import AmbLisp.Proofs.Eval.Growing
import AmbLisp.Proofs.Eval.Rule
import AmbLisp.Proofs.Reference.Evaluator
import AmbLisp.Proofs.Store.Rename

/-!
# A run along a trail goes down a tree

A run by some rule of choice mirrors a branching evaluation if, along every trail that by this rule
leads down the tree of that evaluation, it comes to what the trail leads to, up to the names of scopes
and closures: `Mirrors`. That is as far as it goes for trails whose candidates are the same under
these names, since the candidates of a point are those of the pass that made it. `mirrors_bind` puts
two runs in a row; the operations of runs mirror those of branching evaluations.
-/

namespace AmbLisp

variable {α β γ δ : Type}

/-! ## Trails that only grow -/

/-- The points that have been passed in a world are so in a later one. -/
def World.Passed (w w' : World) : Prop :=
  w.trail.passed <:+ w'.trail.passed

/-- A rule keeps all points that have been passed. -/
def ChoiceRule.Extends (rule : ChoiceRule) : Prop :=
  ∀ t cs, t.passed <:+ (rule t cs).2.passed

namespace ChoiceRule

theorem extends_choose : Extends Trail.choose := by
  intro t cs
  obtain ⟨p, hp, -⟩ := t.choose_eq_current? cs
  exact ⟨[p], hp.symm⟩

theorem extends_record : Extends Trail.record := by
  intro t cs
  obtain ⟨p, hp, -⟩ := t.choose_eq_current? cs
  rw [Trail.record, Trail.noting_of_passed hp]
  exact ⟨[_], rfl⟩

theorem extends_chooseAtHand : Extends Trail.chooseAtHand := extends_record

theorem extends_take : Extends Trail.take := by
  intro t cs
  unfold Trail.take
  split
  · exact List.suffix_rfl
  · exact ⟨[_], rfl⟩

end ChoiceRule

instance World.growth_passed : World.Growth World.Passed where
  refl _ := List.suffix_rfl
  trans h h' := h.trans h'
  store _ _ := List.suffix_rfl
  note _ _ := List.suffix_rfl
  print _ _ := List.suffix_rfl
  choose w cs := ChoiceRule.extends_choose w.trail cs

/-- Evaluation by a rule that keeps all points keeps them. -/
theorem Contract.passed_evaluateBy {rule : ChoiceRule} (h : rule.Extends) (host : Host) (n : Nat) :
    (growing World.Passed).Complies (evaluateBy rule host n) := by
  refine (lawful_growing host).evaluateBy (fun {e w cs} _ _ => ?_) n
  have hpassed := h w.trail cs
  rw [Run.outcome_chooseBy]
  cases hc : (rule w.trail cs).1 with
  | none => exact hpassed
  | some v => exact ⟨trivial, hpassed, trivial⟩

namespace Reference

open DecisionTree

/-! ## Candidates under other names -/

/-- The candidates are the same under other names. -/
def Portable (r : Renaming) (ps : List ChoicePoint) : Prop :=
  ∀ p ∈ ps, ∀ c ∈ p.candidates, c.rename r = c

theorem Portable.of_suffix {r : Renaming} {ps qs : List ChoicePoint} (h : Portable r qs)
    (hs : ps <:+ qs) : Portable r ps :=
  fun p hp => h p (hs.subset hp)

theorem Portable.map_rename {r : Renaming} {cs : List Value} {k : Int} {ps : List ChoicePoint}
    (h : Portable r (⟨cs, k⟩ :: ps)) : cs.map (Value.rename r) = cs :=
  Value.map_rename_of_fixed (h _ List.mem_cons_self)

/-- Where a rule chooses among the candidates of a node, and what it has passed is portable, it
chooses among the alternatives at hand. -/
def Fixes (rule : ChoiceRule) (r : Renaming) : Prop :=
  ∀ {t cs k t'}, rule.Serves t cs k t' → Portable r (rule t (cs.map (Value.rename r))).2.passed →
    cs.map (Value.rename r) = cs

/-- The candidates of a point are portable in the end if it is a new one, and else they were before. -/
theorem fixes_choose (r : Renaming) : Fixes Trail.choose r := by
  intro t cs k t' hserves hportable
  have hpassed := hserves.passed
  rw [show t' = (t.choose cs).2 from congrArg Prod.snd hserves.choice.symm] at hpassed
  unfold Trail.choose at hportable hpassed
  rcases ha : t.ahead with _ | ⟨p, _ | ⟨q, rest⟩⟩ <;> rw [ha] at hportable hpassed
  · refine Value.map_rename_of_fixed fun c hc => Value.rename_injective (r := r) ?_
    exact hportable _ List.mem_cons_self _ (List.mem_map_of_mem hc)
  · replace hportable : Portable r (p.advance :: t.passed) := hportable
    rw [(List.cons.inj hpassed).1] at hportable
    exact hportable.map_rename
  · replace hportable : Portable r (p :: t.passed) := hportable
    rw [(List.cons.inj hpassed).1] at hportable
    exact hportable.map_rename

/-! ## Runs and trees -/

/-- The scopes of a world are those of a branching evaluation under other names. -/
structure Related (r : Renaming) (w : World) (τ : Store) : Prop where
  renames : τ.Renames r w.store
  sound : τ.Sound

/-- An outcome is what a trail leads to: the same fault, or results that are related, with related
scopes behind them; and the same trail. -/
def Agrees (r : Renaming) (τ : Store) (Q : α → β → Store → Prop) :
    Except Fault α × World → Except Fault (β × Store) × Trail → Prop
  | (.ok a, w), (.ok (b, τ'), t) => w.trail = t ∧ Related r w τ' ∧ τ.Grew τ' ∧ Q a b τ'
  | (.error fault, w), (.error fault', t) => fault = fault' ∧ w.trail = t
  | _, _ => False

theorem Agrees.trail {r : Renaming} {τ : Store} {Q : α → β → Store → Prop}
    {out : Except Fault α × World} {found : Except Fault (β × Store) × Trail}
    (h : Agrees r τ Q out found) : out.2.trail = found.2 := by
  rcases out with ⟨fault | a, w⟩ <;> rcases found with ⟨fault' | b, t⟩
  · exact h.2
  · exact h.elim
  · exact h.elim
  · exact h.1

/-- A run by a rule comes to what its trail leads to in the tree of a branching evaluation, if the
points on the way are portable, either in the tree or in the run. -/
def Mirrors (rule : ChoiceRule) (r : Renaming) (act : Run α) (tree : Branching β)
    (Q : α → β → Store → Prop) (w : World) (τ : Store) : Prop :=
  ∀ result t, (tree τ).Descends rule w.trail result t →
    Portable r t.passed ∨ Fixes rule r ∧ Portable r (act.outcome w).2.trail.passed →
    Agrees r τ Q (act.outcome w) (result, t)

variable {rule : ChoiceRule} {r : Renaming} {w : World} {τ : Store}

theorem mirrors_pure (h : Related r w τ) {a : α} {b : β} {Q : α → β → Store → Prop} (hQ : Q a b τ) :
    Mirrors rule r (pure a) (pure b) Q w τ := by
  intro result t hd _
  obtain ⟨rfl, rfl⟩ := hd.of_value
  exact ⟨rfl, h, .refl τ, hQ⟩

theorem mirrors_throw {fault : Fault} (hf : fault.IsOrdinary) {Q : α → β → Store → Prop} :
    Mirrors rule r (throw fault) (Branching.fail fault hf) Q w τ := by
  intro result t hd _
  obtain ⟨rfl, rfl⟩ := hd.of_failure
  exact ⟨rfl, rfl⟩

/-- **Runs in a row mirror branching evaluations in a row.** -/
theorem mirrors_bind {act : Run α} {k : α → Run γ} {tree : Branching β} {k' : β → Branching δ}
    {P : α → β → Store → Prop} {Q : γ → δ → Store → Prop} (ha : Mirrors rule r act tree P w τ)
    (hx : ∀ a, (k a).Grows World.Passed)
    (hk : ∀ a b w' τ', Related r w' τ' → τ.Grew τ' → P a b τ' →
      Mirrors rule r (k a) (k' b) Q w' τ') :
    Mirrors rule r (act >>= k) (tree >>= k') Q w τ := by
  intro result t hd hportable
  change ((tree τ).bind fun p => k' p.1 p.2).Descends rule w.trail result t at hd
  rw [ExceptT.outcome_bind] at hportable ⊢
  -- the points that the first run has passed are still there behind the second one
  have hfirst : ∀ {t₁ : Trail}, t₁.passed <:+ t.passed →
      Portable r t₁.passed ∨ Fixes rule r ∧ Portable r (act.outcome w).2.trail.passed := by
    intro t₁ hsuffix
    refine hportable.imp (·.of_suffix hsuffix) fun ⟨hrule, hrun⟩ => ⟨hrule, ?_⟩
    rcases hr : act.outcome w with ⟨fault | a, w'⟩ <;> rw [hr] at hrun
    · exact hrun
    · exact hrun.of_suffix (hx a w')
  rcases hd.of_bind with ⟨fault, rfl, hd₁⟩ | ⟨⟨b, τ'⟩, t₁, hd₁, hd₂⟩
  · have hagrees := ha _ _ hd₁ (hfirst List.suffix_rfl)
    rcases hr : act.outcome w with ⟨fault' | a, w'⟩ <;> rw [hr] at hagrees
    · exact hagrees
    · exact hagrees.elim
  · have hagrees := ha _ _ hd₁ (hfirst hd₂.suffix)
    rcases hr : act.outcome w with ⟨fault | a, w'⟩ <;> rw [hr] at hagrees hportable
    · exact hagrees.elim
    · obtain ⟨rfl, hrel, hgrew, hP⟩ := hagrees
      have hrest := hk a b w' τ' hrel hgrew hP _ _ hd₂ hportable
      simp only
      rcases hr' : (k a).outcome w' with ⟨fault | c, w''⟩ <;>
        rcases result with fault' | ⟨d, τ''⟩ <;> rw [hr'] at hrest
      · exact hrest
      · exact hrest.elim
      · exact hrest.elim
      · exact ⟨hrest.1, hrest.2.1, hgrew.trans hrest.2.2.1, hrest.2.2.2⟩

/-! ## Operations -/

/-- The value of an evaluation, under the names of a run, and covered by the scopes behind it. -/
def Same (r : Renaming) (v' v : Value) (τ : Store) : Prop :=
  v' = v.rename r ∧ τ.Covers v

/-- Two runs that come to the same values have the same result. -/
theorem Agrees.result_eq {r : Renaming} {τ : Store} {out out' : Except Fault Value × World}
    {found : Except Fault (Value × Store) × Trail} (h : Agrees r τ (Same r) out found)
    (h' : Agrees r τ (Same r) out' found) : out'.1 = out.1 := by
  rcases out with ⟨fault | v, w⟩ <;> rcases out' with ⟨fault' | v', w'⟩ <;>
    rcases found with ⟨fault'' | ⟨u, τ'⟩, t⟩
  · exact congrArg Except.error (h'.1.trans h.1.symm)
  · exact h.elim
  · exact h'.elim
  · exact h.elim
  · exact h.elim
  · exact h'.elim
  · exact h.elim
  · obtain ⟨-, -, -, rfl, -⟩ := h
    obtain ⟨-, -, -, rfl, -⟩ := h'
    rfl

theorem mirrors_note {event : Event} {k : Unit → Run α} {tree : Branching β}
    {Q : α → β → Store → Prop}
    (h : Mirrors rule r (k ()) tree Q { w with journal := event :: w.journal } τ) :
    Mirrors rule r (Run.note event >>= k) tree Q w τ := by
  intro result t hd hportable
  rw [ExceptT.outcome_bind, Run.outcome_note] at hportable ⊢
  exact h _ _ hd hportable

theorem mirrors_printLines {lines : List String} {k : Unit → Run α} {tree : Branching β}
    {Q : α → β → Store → Prop}
    (h : Mirrors rule r (k ()) tree Q
      { w with printed := (lines.map (· ++ "\n")).reverse ++ w.printed } τ) :
    Mirrors rule r (Run.printLines lines >>= k) tree Q w τ := by
  intro result t hd hportable
  rw [ExceptT.outcome_bind, Run.outcome_printLines] at hportable ⊢
  exact h _ _ hd hportable

theorem mirrors_lookup (h : Related r w τ) {e : Nat} (he : e < τ.scopes.size) (name : String) :
    Mirrors rule r (Run.lookup (r.scope e) name) (Branching.lookup e name) (Same r) w τ := by
  intro result t hd _
  rw [Run.outcome_lookup, h.renames.lookup h.sound he]
  cases hl : τ.lookup e name with
  | none =>
    rw [Branching.lookup_of_none hl] at hd
    obtain ⟨rfl, rfl⟩ := hd.of_failure
    exact ⟨rfl, rfl⟩
  | some v =>
    rw [Branching.lookup_of_some hl] at hd
    obtain ⟨rfl, rfl⟩ := hd.of_value
    exact ⟨rfl, h, .refl τ, rfl, h.sound.covers.lookup hl⟩

theorem mirrors_define (h : Related r w τ) {e : Nat} {name : String} {v : Value}
    (hv : τ.Covers v) :
    Mirrors rule r (Run.define (r.scope e) name (v.rename r)) (Branching.define e name v)
      (fun _ _ _ => True) w τ := by
  intro result t hd _
  obtain ⟨rfl, rfl⟩ := hd.of_value
  exact ⟨rfl, ⟨h.renames.define e name v, h.sound.define hv⟩, τ.grew_define e name v, trivial⟩

theorem mirrors_openScope (h : Related r w τ) {scope : Scope}
    (ho : ∀ o, scope.outer = some o → o < τ.scopes.size) (hb : ∀ b ∈ scope.bindings, τ.Covers b.2) :
    Mirrors rule r (Run.openScope (scope.rename r)) (Branching.openScope scope)
      (fun e' e τ' => e' = r.scope e ∧ e < τ'.scopes.size) w τ := by
  intro result t hd _
  obtain ⟨rfl, rfl⟩ := hd.of_value
  refine ⟨rfl, ⟨h.renames.openScope scope, h.sound.openScope ho hb⟩, τ.grew_openScope scope, ?_, ?_⟩
  · exact (h.renames.nextScope 0).symm
  · simp

theorem mirrors_close (h : Related r w τ) {e : Nat} {params : List Value} {body : Value}
    (he : e < τ.scopes.size) (hp : ∀ v ∈ params, τ.Covers v) (hb : τ.Covers body) :
    Mirrors rule r (Run.close (r.scope e) (params.map (Value.rename r)) (body.rename r))
      (Branching.close e params body) (Same r) w τ := by
  intro result t hd _
  obtain ⟨rfl, rfl⟩ := hd.of_value
  obtain ⟨hrenames, hclosure⟩ := h.renames.close e params body
  exact ⟨rfl, ⟨hrenames, h.sound.close e params body⟩, τ.grew_close e params body, hclosure,
    Store.covers_close he hp hb⟩

/-- A choice takes the branch whose number the rule chooses. -/
theorem mirrors_choose (h : Related r w τ) {cs : List Value} (hcs : ∀ c ∈ cs, τ.Covers c) :
    Mirrors rule r (Run.chooseBy rule (cs.map (Value.rename r))) (Branching.choose cs) (Same r) w
      τ := by
  intro result t hd hportable
  change (node cs fun i => .value (cs[i], τ)).Descends rule w.trail result t at hd
  rw [Run.outcome_chooseBy] at hportable ⊢
  have hfix : ∀ {k t'}, rule.Serves w.trail cs k t' → Portable r t'.passed ∨ Fixes rule r ∧
      Portable r (rule w.trail (cs.map (Value.rename r))).2.passed →
      cs.map (Value.rename r) = cs := by
    rintro k t' hserves (h | ⟨hrule, h⟩)
    · rw [hserves.passed] at h
      exact h.map_rename
    · exact hrule hserves h
  cases hd with
  | spent hserves hk =>
    have hsame := hfix hserves hportable
    rw [hsame, hserves.choice, List.getElem?_eq_none hk]
    exact ⟨rfl, rfl⟩
  | @down _ _ _ _ _ k _ hserves hk hsub =>
    obtain ⟨rfl, rfl⟩ := hsub.of_value
    have hsame := hfix hserves hportable
    have hmem : cs[k] ∈ cs := List.getElem_mem hk
    have hrename : cs[k] = cs[k].rename r := by
      have := List.getElem_of_eq hsame (i := k) (by simpa using hk)
      rw [List.getElem_map] at this
      exact this.symm
    rw [hsame, hserves.choice, List.getElem?_eq_getElem hk]
    exact ⟨rfl, ⟨h.renames, h.sound⟩, .refl τ, hrename, hcs _ hmem⟩

end Reference

end AmbLisp
