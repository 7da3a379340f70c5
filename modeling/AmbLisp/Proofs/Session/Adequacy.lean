import AmbLisp.Proofs.Eval.Frame
import AmbLisp.Proofs.Eval.WithoutEval
import AmbLisp.Proofs.Reference.Simulation
import AmbLisp.Proofs.Session.Solving
import AmbLisp.Proofs.Session.Sound
import AmbLisp.Proofs.Store.Shift

/-!
# Solving is branching

Each pass of a search evaluates an expression again from its beginning, in the scopes that the
passes before have left behind. As long as passes leave the global scope alone and no `amb` has a
closure in its alternatives, each pass is a walk in one tree, that of the branching evaluation in
the scopes from which the search began. So the search enumerates the leaves of this tree.
-/

namespace AmbLisp

open DecisionTree

/-- What an expression comes to by branching in the global scope, its values as texts; `n`
evaluations may be nested. -/
def Reference.texts (host : Host) (n : Nat) (expr : Value) (τ : Store) : DecisionTree String :=
  (Reference.evaluate host n expr Store.globalScope τ).map fun p => p.1.print

namespace Session

variable (cfg : Setting) (expr : Value) (s : Session)

/-- No pass for the values of an expression changes the global scope. -/
def BindsNothing : Prop :=
  ∀ t s', (searchFor cfg expr).Reaches {} { s with passes := 0 } t s' →
    ((searchFor cfg expr).pass t s').2.2.store.scopes[Store.globalScope]? =
      s'.store.scopes[Store.globalScope]?

/-- No pass for the values of an expression meets an `amb` with a closure in its alternatives. -/
def ChoosesPlainly : Prop :=
  ∀ t s', (searchFor cfg expr).Reaches {} { s with passes := 0 } t s' →
    ∀ p ∈ ((searchFor cfg expr).pass t s').2.1.passed, ∀ c ∈ p.candidates, c.closureFree = true

/-- No pass for the values of an expression meets an `amb` with a closure in its alternatives that was
made by one of these passes. -/
def ChoosesCovered : Prop :=
  ∀ t s', (searchFor cfg expr).Reaches {} { s with passes := 0 } t s' →
    ∀ p ∈ ((searchFor cfg expr).pass t s').2.1.passed, ∀ c ∈ p.candidates, s.store.Covers c

/-- What a pass by a rule of choice comes to. -/
def passBy (rule : ChoiceRule) (t : Trail) (s : Session) : Except Fault Value × World :=
  (evaluateBy rule cfg.toHost cfg.depth expr Store.globalScope).outcome (s.passWorld t)

/-- What holds of the trails and sessions with which the passes begin: the scopes from which the
search began are still there. -/
structure Exploring (t : Trail) (s' : Session) : Prop where
  reached : (searchFor cfg expr).Reaches {} { s with passes := 0 } t s'
  grew : s.store.Grew s'.store
  same : ∀ i, i < s.store.scopes.size → s'.store.scopes[i]? = s.store.scopes[i]?

variable {cfg expr s}

theorem ChoosesPlainly.covered (h : ChoosesPlainly cfg expr s) : ChoosesCovered cfg expr s :=
  fun t s' hreach p hp c hc => Value.within_of_closureFree (h t s' hreach p hp c hc)

theorem pass_eq_passBy (t : Trail) (s : Session) :
    (searchFor cfg expr).pass t s =
      let out := passBy cfg expr Trail.choose t s
      (out.1, out.2.trail, s.behind out.2) := by
  rw [passBy, evaluateBy_choose]
  rfl

/-- A value has the same text as the one that a walk finds under other names. -/
theorem print_of_agrees {r : Renaming} {τ : Store} {out : Except Fault Value × World}
    {found : Except Fault (Value × Store) × Trail}
    (h : Reference.Agrees r τ (Reference.Same r) out found) :
    (out.1.map Value.print, out.2.trail) = (found.1.map fun p => p.1.print, found.2) := by
  rcases out with ⟨fault | v, w⟩ <;> rcases found with ⟨fault' | ⟨u, τ'⟩, t⟩
  · obtain ⟨rfl, rfl⟩ := h
    rfl
  · exact h.elim
  · exact h.elim
  · obtain ⟨rfl, -, -, rfl, -⟩ := h
    exact congrArg (fun text => (Except.ok text, w.trail)) (Value.print_rename u)

/-- The points of a trail whose candidates are those of the scopes from which the search began. -/
theorem portable_of_covers {ps : List ChoicePoint} {σ : Store}
    (h : ∀ p ∈ ps, ∀ c ∈ p.candidates, s.store.Covers c) :
    Reference.Portable (Renaming.shift s.store σ) ps :=
  fun p hp c hc => (h p hp c hc).rename_shift

/-- A pass by a rule comes to what its trail leads to in the tree of the branching evaluation, if the
points that it meets are portable. -/
theorem pass_agrees {rule : ChoiceRule} (hx : rule.Extends) (hs : s.Sound)
    (hexpr : s.store.Covers expr) {t t₁ : Trail} {s' : Session}
    {result : Except Fault (Value × Store)} (h : Exploring cfg expr s t s')
    (hd : (Reference.evaluate cfg.toHost cfg.depth expr Store.globalScope s.store).Descends rule t
      result t₁) :
    let r := Renaming.shift s.store s'.store
    Reference.Portable r t₁.passed ∨
      Reference.Fixes rule r ∧ Reference.Portable r (passBy cfg expr rule t s').2.trail.passed →
    Reference.Agrees r s.store (Reference.Same r) (passBy cfg expr rule t s') (result, t₁) := by
  intro r hportable
  have hrel : Reference.Related r (s'.passWorld t) s.store :=
    ⟨Store.renames_shift hs.store h.grew h.same, hs.store⟩
  have hmirrors := Reference.evaluateBy_mirrors hx cfg.toHost r cfg.depth hrel hs.global hexpr
  rw [hexpr.rename_shift, Renaming.shift_scope hs.global] at hmirrors
  exact hmirrors _ _ hd hportable

/-- A pass comes to what its trail leads to. -/
theorem choose_agrees (hs : s.Sound) (hexpr : s.store.Covers expr)
    (hcovered : ChoosesCovered cfg expr s) {t : Trail} {s' : Session}
    (h : Exploring cfg expr s t s')
    (hf : (Reference.texts cfg.toHost cfg.depth expr s.store).Follows t) :
    let r := Renaming.shift s.store s'.store
    Reference.Agrees r s.store (Reference.Same r) (passBy cfg expr Trail.choose t s')
      ((Reference.evaluate cfg.toHost cfg.depth expr Store.globalScope s.store).walk t) := by
  intro r
  have hpass := hcovered t s' h.reached
  rw [pass_eq_passBy] at hpass
  exact pass_agrees ChoiceRule.extends_choose hs hexpr h (Traces.of_bind hf.2).descends
    (.inr ⟨Reference.fixes_choose r, portable_of_covers hpass⟩)

/-- **A pass is a walk** in the tree of the branching evaluation. -/
theorem pass_walks (hs : s.Sound) (hexpr : s.store.Covers expr) (hcovered : ChoosesCovered cfg expr s)
    {t : Trail} {s' : Session} (h : Exploring cfg expr s t s')
    (hf : (Reference.texts cfg.toHost cfg.depth expr s.store).Follows t) :
    (((searchFor cfg expr).pass t s').1.map Value.print, ((searchFor cfg expr).pass t s').2.1) =
      (Reference.texts cfg.toHost cfg.depth expr s.store).walk t := by
  rw [pass_eq_passBy, Reference.texts, walk_map]
  exact print_of_agrees (choose_agrees hs hexpr hcovered h hf)

theorem explores (hs : s.Sound) (hexpr : s.store.Covers expr) (hglobal : BindsNothing cfg expr s)
    (hcovered : ChoosesCovered cfg expr s) :
    (searchFor cfg expr).Explores Value.print (Reference.texts cfg.toHost cfg.depth expr s.store)
      (Exploring cfg expr s) where
  walks h hf := pass_walks hs hexpr hcovered h hf
  keeps {t s₁ result t₁ s₂ t₂ s₃} h hf hp hresult hretry := by
    have hkeeps := evaluate_keeps cfg.toHost cfg.depth expr Store.globalScope (s₁.passWorld t)
    have hpass := hglobal t s₁ h.reached
    have hstore : s₃.store = ((searchFor cfg expr).pass t s₁).2.2.store := by
      rw [(retry_eq cfg expr hretry).2, hp]
    rw [pass_eq] at hpass hstore
    refine ⟨h.reached.next hp hresult hretry, ?_, fun i hi => ?_⟩
    · rw [hstore]
      exact h.grew.trans hkeeps.grew
    · rw [hstore, ← h.same i hi]
      by_cases h0 : i = Store.globalScope
      · rw [h0]
        exact hpass
      · exact hkeeps.same (Nat.lt_of_lt_of_le hi h.grew.1) h0

/-! ## Without `eval` -/

/-- Passes over code without `eval` keep it out of the closures that are bound and of the
candidates. -/
theorem keeps_avoidsEval (hdisk : cfg.toHost.AvoidsEval) (hexpr : expr.avoidsEval = true) :
    (searchFor cfg expr).Keeps
      (fun t s => s.store.Binds Value.BodiesAvoidEval ∧ t.Offers (·.avoidsEval = true))
      fun _ _ => True := by
  refine keeps_of_pass cfg expr
    (I := fun t τ => τ.Binds Value.BodiesAvoidEval ∧ t.Offers (·.avoidsEval = true))
    (V := fun _ _ => True) (fun t s h => ?_) fun t τ h => ?_
  · have hw : (s.passWorld t).AvoidsEval := ⟨h.1, h.2⟩
    have hbehind := evaluate_avoidsEval hdisk cfg.depth Store.globalScope hw hexpr
    exact ⟨⟨hbehind.store, hbehind.trail⟩, fun _ _ => trivial⟩
  · exact ⟨h.1, h.2.retry⟩

/-- **Code that is read and does not use `eval`** has no closure in an alternative of an `amb`. -/
theorem choosesPlainly_of_avoidsEval (hdisk : cfg.toHost.AvoidsEval)
    (hstore : s.store.Binds Value.BodiesAvoidEval) (hexpr : expr.avoidsEval = true) :
    ChoosesPlainly cfg expr s := by
  intro t s' hreach p hp c hc
  have hkeeps := keeps_avoidsEval hdisk hexpr
  have hbehind := (hkeeps.pass (hkeeps.reaches hreach ⟨hstore, Trail.offers_new _⟩)).1.2
  refine Value.closureFree_of_avoidsEval (hbehind p ?_ c hc)
  exact List.mem_append_left _ (List.mem_reverse.2 hp)

/-! ## Solving -/

/-- The first values of an expression are those of the first leaves, and no problem is open behind all
of them. -/
theorem solve_eq_leaves (hs : s.Sound) (hexpr : s.store.Covers expr)
    (hglobal : BindsNothing cfg expr s) (hplain : ChoosesPlainly cfg expr s)
    (hpasses : (Reference.texts cfg.toHost cfg.depth expr s.store).passes ≤ cfg.passes) (n : Nat) :
    let T := Reference.texts cfg.toHost cfg.depth expr s.store
    ((solve cfg expr n).outcome s).1.map (·.map Value.print) = (T.leaves.take n).mapM (·.2) ∧
      (T.leaves.length < n → ((solve cfg expr n).outcome s).2.problem = none) := by
  intro T
  have hexploring : Exploring cfg expr s {} { s with passes := 0 } :=
    ⟨.start, .refl _, fun _ _ => rfl⟩
  obtain ⟨vs, s', hy, hvs, -⟩ := (explores hs hexpr hglobal hplain.covered).enumerates
    (counts_searchFor cfg expr) hpasses hpasses hexploring ⟨rfl, traces_nil _⟩
    (advances_fresh _ {} rfl)
  have hrun : run cfg expr s =
      settle expr ((searchFor cfg expr).run cfg.passes {} { s with passes := 0 }) := rfl
  refine ⟨outcome_valuesFrom hy Value.print hvs rfl (fun _ _ h => ordinary_of_mem_leaves h) hrun n,
    fun hn => problem_valuesFrom hy hrun ?_⟩
  have hlen := length_answers_le T.leaves
  rw [← hvs, List.length_map] at hlen
  exact Nat.lt_of_le_of_lt hlen hn

/-- **Solving is branching.** If no pass changes the global scope, no `amb` has a closure in its
alternatives and the tree of the branching evaluation is within the bound on passes, then to solve
for `n` values answers with the texts of the first `n` leaves of this tree, from left to right, or
with the first fault among them, and to solve for all values answers so with all leaves. If no leaf
reached the bound on nesting, the tree is the same under every higher bound. Code that is read and
does not use `eval` has no closure in an alternative. The sessions behind requests are sound again. -/
theorem solve_eq_branching (cfg : Setting) {expr : Value} {s : Session} (hs : s.Sound)
    (hexpr : s.store.Covers expr) :
    let T := Reference.texts cfg.toHost cfg.depth expr s.store
    (BindsNothing cfg expr s → ChoosesPlainly cfg expr s → T.leaves.length + T.nodes ≤ cfg.passes →
        (∀ n, ((solve cfg expr n).outcome s).1.map (·.map Value.print) =
          (T.leaves.take n).mapM (·.2)) ∧
        ((solveAll cfg expr).outcome s).1.map (·.map Value.print) = T.leaves.mapM (·.2)) ∧
      ((∀ l ∈ T.leaves, l.2 ≠ .error .tooDeep) →
        ∀ n, cfg.depth ≤ n → Reference.texts cfg.toHost n expr s.store = T) ∧
      (cfg.toHost.AvoidsEval → s.store.Binds Value.BodiesAvoidEval → expr.avoidsEval = true →
        ChoosesPlainly cfg expr s) ∧
      (run cfg expr s).2.Sound ∧ (tryAgain cfg s).2.Sound := by
  intro T
  refine ⟨fun hglobal hplain hfinite => ?_, fun hleaves n hn => ?_, choosesPlainly_of_avoidsEval,
    (keeps_run hs hexpr).1, (keeps_tryAgain hs).1⟩
  · rw [← passes_eq] at hfinite
    have hsolve := solve_eq_leaves hs hexpr hglobal hplain hfinite
    refine ⟨fun n => (hsolve n).1, ?_⟩
    have hlen : T.leaves.length < cfg.passes + 1 := by
      rw [passes_eq] at hfinite
      omega
    obtain ⟨hvalues, hclosed⟩ := hsolve (cfg.passes + 1)
    rw [outcome_solveAll s (hclosed hlen), hvalues, List.take_of_length_le (Nat.le_of_lt hlen)]
  · have hdeepens := Reference.evaluate_deepens cfg.toHost hn expr Store.globalScope s.store
    exact (hdeepens.map _).eq hleaves

/-- An `amb` of numbers. -/
def ambOf (ns : List Int) : Value :=
  .list (.sym "amb" :: ns.map .int)

theorem evaluate_ambOf (host : Host) (n : Nat) (ns : List Int) (e : ScopeId) :
    evaluate host (n + 2) (ambOf ns) e =
      Run.choose (ns.map .int) >>= fun choice => evaluate host (n + 1) choice e := rfl

/-- A choice of a number changes nothing but the trail, which goes on to offer numbers. -/
theorem outcome_ambOf (host : Host) (n : Nat) (ns : List Int) (e : ScopeId) {w : World}
    (h : w.trail.Offers fun c => ∃ i, c = .int i) :
    let out := (evaluate host (n + 2) (ambOf ns) e).outcome w
    out.2.store = w.store ∧ out.2.trail.Offers fun c => ∃ i, c = .int i := by
  have hns : ∀ c ∈ ns.map Value.int, ∃ i, c = .int i := List.forall_mem_map.2 fun i _ => ⟨i, rfl⟩
  obtain ⟨hoffers, hchoice⟩ := h.choose hns
  rw [evaluate_ambOf, ExceptT.outcome_bind, Run.outcome_choose]
  cases hc : (w.trail.choose (ns.map .int)).1 with
  | none => exact ⟨rfl, hoffers⟩
  | some v =>
    obtain ⟨i, rfl⟩ := hchoice v hc
    exact ⟨rfl, hoffers⟩

theorem keeps_ambOf (cfg : Setting) {n : Nat} (hn : cfg.depth = n + 2) (τ : Store) (ns : List Int) :
    (searchFor cfg (ambOf ns)).Keeps
      (fun t s => s.store = τ ∧ t.Offers fun c => ∃ i, c = .int i) fun _ _ => True := by
  refine keeps_of_pass cfg (ambOf ns) (I := fun t σ => σ = τ ∧ t.Offers fun c => ∃ i, c = .int i)
    (V := fun _ _ => True) (fun t s h => ?_) fun t σ h => ?_
  · have hw : (s.passWorld t).trail.Offers fun c => ∃ i, c = .int i := h.2
    obtain ⟨hstore, htrail⟩ := outcome_ambOf cfg.toHost n ns Store.globalScope hw
    rw [hn]
    exact ⟨⟨hstore.trans h.1, htrail⟩, fun _ _ => trivial⟩
  · exact ⟨h.1, h.2.retry⟩

theorem bindsNothing_ambOf (cfg : Setting) {n : Nat} (hn : cfg.depth = n + 2) (ns : List Int)
    (s : Session) : BindsNothing cfg (ambOf ns) s := by
  intro t s' hreach
  have hkeeps := keeps_ambOf cfg hn s.store ns
  have hbefore := hkeeps.reaches hreach ⟨rfl, Trail.offers_new _⟩
  rw [(hkeeps.pass hbefore).1.1, hbefore.1]

theorem solve_eq_branching_ambOf :
    let cfg : Setting := { depth := 2, passes := 8 }
    let s := initial false
    let T := Reference.texts cfg.toHost cfg.depth (ambOf [1, 2]) s.store
    s.Sound ∧ s.store.Covers (ambOf [1, 2]) ∧ BindsNothing cfg (ambOf [1, 2]) s ∧
      ChoosesPlainly cfg (ambOf [1, 2]) s ∧ T.leaves.length + T.nodes ≤ cfg.passes ∧
      (∀ l ∈ T.leaves, l.2 ≠ .error .tooDeep) ∧
      ((solveAll cfg (ambOf [1, 2])).outcome s).1.map (·.map Value.print) = .ok ["1", "2"] := by
  intro cfg s T
  have hs : s.Sound := sound_initial false
  have hexpr : s.store.Covers (ambOf [1, 2]) := Value.within_of_closureFree rfl
  have hglobal : BindsNothing cfg (ambOf [1, 2]) s := bindsNothing_ambOf cfg rfl [1, 2] s
  obtain ⟨hsolve, -, hplain, -⟩ := solve_eq_branching cfg hs hexpr
  have hplain : ChoosesPlainly cfg (ambOf [1, 2]) s :=
    hplain (Host.avoidsEval_of_empty rfl) (Store.binds_primitives fun _ => trivial) rfl
  have hleaves : T.leaves = [([0], .ok "1"), ([1], .ok "2")] := rfl
  have hdeep : ∀ l ∈ T.leaves, l.2 ≠ .error .tooDeep := by
    rw [hleaves]
    simp
  have hfinite : T.leaves.length + T.nodes ≤ cfg.passes := by decide
  exact ⟨hs, hexpr, hglobal, hplain, hfinite, hdeep, (hsolve hglobal hplain hfinite).2⟩

end Session

end AmbLisp
