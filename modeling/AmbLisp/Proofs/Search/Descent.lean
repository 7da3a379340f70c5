import AmbLisp.Proofs.Search.DecisionTree

/-!
# Ways down a tree

A rule of choice answers an `amb` from what is on the trail and from the alternatives at hand. By a
rule a trail may lead down a tree: at each node the rule chooses one of the node's candidates by its
number, and passes a point that says so (`Descends`). The rule of the evaluator is `Trail.choose`.

Other rules serve to ask what a pass has done. `Trail.record` chooses as ever, but notes at each point
the alternatives at hand in the place of its candidates. `Trail.chooseAtHand` does so too, and takes
one of them, by the number that the trail chooses. `Trail.take` takes one of them by the next number
on the trail. Where `Trail.choose` leads down a tree, the first two lead down the same way
(`Descends.record`, `Descends.atHand`), and so do the numbers of the points that were passed
(`Descends.take`).
-/

namespace AmbLisp

/-- A way to choose among the alternatives of an `amb` along a trail. -/
abbrev ChoiceRule := Trail → List Value → Option Value × Trail

namespace Trail

/-- The trail with these alternatives at the point met last. -/
def noting (t : Trail) (cs : List Value) : Trail :=
  match t.passed with
  | [] => t
  | p :: outer => { t with passed := { p with candidates := cs } :: outer }

/-- Chooses as ever, and notes at the point the alternatives at hand. -/
def record (t : Trail) (cs : List Value) : Option Value × Trail :=
  ((t.choose cs).1, (t.choose cs).2.noting cs)

/-- Takes, of the alternatives at hand, the one with the number that the trail chooses, and notes them
at the point. -/
def chooseAtHand (t : Trail) (cs : List Value) : Option Value × Trail :=
  ((t.record cs).2.passed.head?.bind ChoicePoint.current?, (t.record cs).2)

/-- Takes, of the alternatives at hand, the one with the next number on the trail; there is none behind
the trail. -/
def take (t : Trail) (cs : List Value) : Option Value × Trail :=
  match t.ahead with
  | [] => (none, t)
  | p :: rest =>
    let met : ChoicePoint := { p with candidates := cs }
    (met.current?, { t with passed := met :: t.passed, ahead := rest })

/-- A new trail that consists of numbers. -/
def ofNumbers (ks : List Int) : Trail :=
  { ahead := ks.map fun k => { cursor := k } }

variable {t : Trail} {p : ChoicePoint} {outer : List ChoicePoint} {cs : List Value}

theorem noting_of_passed (h : t.passed = p :: outer) :
    t.noting cs = { t with passed := { p with candidates := cs } :: outer } := by
  rw [noting, h]

/-- What a trail chooses is the candidate with the number of the point that it passes. -/
theorem choose_eq_current? (t : Trail) (cs : List Value) :
    ∃ p, (t.choose cs).2.passed = p :: t.passed ∧ (t.choose cs).1 = p.current? := by
  unfold choose
  split <;> exact ⟨_, rfl, rfl⟩

end Trail

/-- At a node with these candidates, the rule chooses the one with the number `k`. -/
structure ChoiceRule.Serves (rule : ChoiceRule) (t : Trail) (cs : List Value) (k : Nat)
    (t' : Trail) : Prop where
  choice : rule t cs = (cs[k]?, t')
  passed : t'.passed = ⟨cs, k⟩ :: t.passed

namespace ChoiceRule.Serves

variable {t t' : Trail} {cs : List Value} {k : Nat}

theorem record (h : Serves Trail.choose t cs k t') : Serves Trail.record t cs k t' := by
  refine ⟨?_, h.passed⟩
  have hnoting : t'.noting cs = t' := by
    rw [Trail.noting_of_passed h.passed]
    cases t'
    cases h.passed
    rfl
  rw [Trail.record, h.choice, hnoting]

theorem atHand (h : Serves Trail.choose t cs k t') : Serves Trail.chooseAtHand t cs k t' := by
  obtain ⟨hchoice, hpassed⟩ := h.record
  refine ⟨?_, hpassed⟩
  rw [Trail.chooseAtHand, hchoice, hpassed]
  exact congrArg (·, _) (ChoicePoint.current?_ofNat cs k)

theorem take (cs : List Value) (k : Nat) {t : Trail} {c : List Value} {rest : List ChoicePoint}
    (h : t.ahead = ⟨c, k⟩ :: rest) :
    Serves Trail.take t cs k ⟨⟨cs, k⟩ :: t.passed, rest, t.spent⟩ := by
  refine ⟨?_, rfl⟩
  rw [Trail.take, h]
  exact congrArg (·, _) (ChoicePoint.current?_ofNat cs k)

end ChoiceRule.Serves

namespace DecisionTree

variable {α β : Type} {rule : ChoiceRule}

/-- By a rule, a trail leads down a tree to a leaf or to a node with no candidate left, with another
trail behind it. -/
inductive Descends (rule : ChoiceRule) :
    DecisionTree α → Trail → Except Fault α → Trail → Prop
  | value (a : α) (t : Trail) : Descends rule (value a) t (.ok a) t
  | failure (fault : Fault) (h : fault.IsOrdinary) (t : Trail) :
      Descends rule (failure fault h) t (.error fault) t
  | spent {cs : List Value} {sub : Fin cs.length → DecisionTree α} {t t' : Trail} {k : Nat}
      (h : rule.Serves t cs k t') (hk : cs.length ≤ k) :
      Descends rule (node cs sub) t (.error .noChoice) t'
  | down {cs : List Value} {sub : Fin cs.length → DecisionTree α} {t t' t'' : Trail} {k : Nat}
      {result : Except Fault α} (h : rule.Serves t cs k t') (hk : k < cs.length)
      (hsub : Descends rule (sub ⟨k, hk⟩) t' result t'') : Descends rule (node cs sub) t result t''

variable {T : DecisionTree α} {t t' : Trail} {result : Except Fault α}

theorem Descends.of_value {a : α} (h : Descends rule (.value a) t result t') :
    result = .ok a ∧ t' = t := by
  cases h
  exact ⟨rfl, rfl⟩

theorem Descends.of_failure {fault : Fault} {hf : fault.IsOrdinary}
    (h : Descends (α := α) rule (.failure fault hf) t result t') :
    result = .error fault ∧ t' = t := by
  cases h
  exact ⟨rfl, rfl⟩

/-- Down a tree that goes on at its leaves: to a fault in the first part, or through a leaf of it. -/
theorem Descends.of_bind {f : α → DecisionTree β} {result : Except Fault β}
    (h : (T.bind f).Descends rule t result t') :
    (∃ fault, result = .error fault ∧ T.Descends rule t (.error fault) t') ∨
      ∃ a t₁, T.Descends rule t (.ok a) t₁ ∧ (f a).Descends rule t₁ result t' := by
  induction T generalizing t with
  | value a => exact .inr ⟨a, t, .value a t, h⟩
  | failure fault hf =>
    obtain ⟨rfl, rfl⟩ := h.of_failure
    exact .inl ⟨fault, rfl, .failure fault hf t'⟩
  | node cs sub ih =>
    cases h with
    | spent hs hk => exact .inl ⟨.noChoice, rfl, .spent hs hk⟩
    | down hs hk hsub =>
      rcases ih _ hsub with ⟨fault, hr, hd⟩ | ⟨a, t₁, hd, hrest⟩
      · exact .inl ⟨fault, hr, .down hs hk hd⟩
      · exact .inr ⟨a, t₁, .down hs hk hd, hrest⟩

/-- The points that were passed before are still there behind a tree. -/
theorem Descends.suffix (h : T.Descends rule t result t') : t.passed <:+ t'.passed := by
  induction h with
  | value | failure => exact List.suffix_rfl
  | spent hs _ => exact ⟨[_], hs.passed.symm⟩
  | down hs _ _ ih =>
    rw [hs.passed] at ih
    exact (List.suffix_cons _ _).trans ih

/-- A pass over a tree along a trail whose points stand at its nodes. -/
theorem Traces.descends (h : T.Traces t.ahead) :
    T.Descends Trail.choose t (T.walk t).1 (T.walk t).2 := by
  induction T generalizing t with
  | value a => exact .value a t
  | failure fault hf => exact .failure fault hf t
  | node cs sub ih =>
    obtain ⟨k, hchoose, hsub⟩ := Traces.choose h
    have hserves : ChoiceRule.Serves Trail.choose t cs k _ := ⟨hchoose, rfl⟩
    rw [walk_node sub hchoose (by simp [Trail.lastChoice])]
    by_cases hk : k < cs.length
    · rw [dif_pos hk]
      exact .down hserves hk (ih _ (hsub hk))
    · rw [dif_neg hk]
      exact .spent hserves (Nat.le_of_not_lt hk)

/-- A rule that serves wherever another one does leads down the same way. -/
theorem Descends.imp {rule' : ChoiceRule}
    (hrule : ∀ {t cs k t'}, rule.Serves t cs k t' → rule'.Serves t cs k t')
    (h : T.Descends rule t result t') : T.Descends rule' t result t' := by
  induction h with
  | value a t => exact .value a t
  | failure fault hf t => exact .failure fault hf t
  | spent hs hk => exact .spent (hrule hs) hk
  | down hs hk _ ih => exact .down (hrule hs) hk ih

theorem Descends.record (h : T.Descends Trail.choose t result t') :
    T.Descends Trail.record t result t' :=
  h.imp .record

theorem Descends.atHand (h : T.Descends Trail.choose t result t') :
    T.Descends Trail.chooseAtHand t result t' :=
  h.imp .atHand

/-- **The numbers lead down the same way** as the points that have been passed. -/
theorem Descends.take (h : T.Descends Trail.choose t result t') :
    ∃ ps : List ChoicePoint, t'.passed = ps.reverse ++ t.passed ∧
      ∀ (t₀ : Trail) (rest : List ChoicePoint),
        t₀.ahead = ps.map (fun p => { cursor := p.cursor }) ++ rest →
        T.Descends Trail.take t₀ result ⟨ps.reverse ++ t₀.passed, rest, t₀.spent⟩ := by
  induction h with
  | value a t =>
    refine ⟨[], rfl, fun t₀ rest h₀ => ?_⟩
    obtain ⟨_, _, _⟩ := t₀
    cases h₀
    exact .value a _
  | failure fault hf t =>
    refine ⟨[], rfl, fun t₀ rest h₀ => ?_⟩
    obtain ⟨_, _, _⟩ := t₀
    cases h₀
    exact .failure fault hf _
  | @spent cs sub t t' k hs hk =>
    refine ⟨[⟨cs, k⟩], hs.passed, fun t₀ rest h₀ => ?_⟩
    exact .spent (.take cs k h₀) hk
  | @down cs sub t t' t'' k result hs hk _ ih =>
    obtain ⟨ps, hps, htake⟩ := ih
    refine ⟨⟨cs, k⟩ :: ps, ?_, fun t₀ rest h₀ => ?_⟩
    · rw [hps, hs.passed]
      simp
    · have hrest := htake ⟨⟨cs, k⟩ :: t₀.passed, _, t₀.spent⟩ rest rfl
      rw [List.reverse_cons, List.append_assoc]
      exact .down (.take cs k h₀) hk hrest

end DecisionTree

end AmbLisp
