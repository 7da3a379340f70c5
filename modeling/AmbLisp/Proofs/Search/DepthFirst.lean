import AmbLisp.Proofs.Search.DecisionTree
import AmbLisp.Proofs.Trail.Rewind

/-!
# Passes visit a decision tree depth first

Between two passes over a tree, the points of the trail stand at the nodes of one path into it, the
last of them perhaps spent. `Remaining` ties such a list of points to what is still to come: the
leaves to the right of the path, and the number of passes that they take. `Remaining.pass` is the
step: a pass that starts from the rewound points meets the next remaining leaf, or finds a node
spent, and leaves a trail from which one pass less remains.
-/

namespace AmbLisp

namespace DecisionTree

variable {α : Type}

/-- The subtrees of a node from a number on. -/
def subtreesFrom (cs : List Value) (k : Nat) : List (Fin cs.length) :=
  (List.finRange cs.length).drop k

/-- The leaves of the subtrees of a node from a number on. -/
def leavesFrom (cs : List Value) (sub : Fin cs.length → DecisionTree α) (k : Nat) :
    List (Leaf α) :=
  (subtreesFrom cs k).flatMap fun i : Fin cs.length => branch i (sub i).leaves

/-- The passes that explore the subtrees of a node from a number on. -/
def passesFrom (cs : List Value) (sub : Fin cs.length → DecisionTree α) (k : Nat) : Nat :=
  (subtreesFrom cs k).foldr (fun i n => (sub i).passes + n) 0

theorem subtreesFrom_of_lt {cs : List Value} {k : Nat} (h : k < cs.length) :
    subtreesFrom cs k = ⟨k, h⟩ :: subtreesFrom cs (k + 1) := by
  unfold subtreesFrom
  rw [List.drop_eq_getElem_cons (by simpa using h)]
  simp

theorem subtreesFrom_length (cs : List Value) : subtreesFrom cs cs.length = [] := by
  unfold subtreesFrom
  rw [List.drop_eq_nil_iff]
  simp

theorem leavesFrom_zero (cs : List Value) (sub : Fin cs.length → DecisionTree α) :
    leavesFrom cs sub 0 = (node cs sub).leaves := rfl

theorem passesFrom_zero (cs : List Value) (sub : Fin cs.length → DecisionTree α) :
    passesFrom cs sub 0 + 1 = (node cs sub).passes := rfl

theorem leavesFrom_of_lt {cs : List Value} (sub : Fin cs.length → DecisionTree α) {k : Nat}
    (h : k < cs.length) :
    leavesFrom cs sub k = branch k (sub ⟨k, h⟩).leaves ++ leavesFrom cs sub (k + 1) := by
  simp only [leavesFrom, subtreesFrom_of_lt h, List.flatMap_cons]

theorem passesFrom_of_lt {cs : List Value} (sub : Fin cs.length → DecisionTree α) {k : Nat}
    (h : k < cs.length) :
    passesFrom cs sub k = (sub ⟨k, h⟩).passes + passesFrom cs sub (k + 1) := by
  simp only [passesFrom, subtreesFrom_of_lt h, List.foldr_cons]

theorem leavesFrom_length (cs : List Value) (sub : Fin cs.length → DecisionTree α) :
    leavesFrom cs sub cs.length = [] := by
  simp only [leavesFrom, subtreesFrom_length, List.flatMap_nil]

theorem passesFrom_length (cs : List Value) (sub : Fin cs.length → DecisionTree α) :
    passesFrom cs sub cs.length = 0 := by
  simp only [passesFrom, subtreesFrom_length, List.foldr_nil]

/-! ## What remains -/

/-- The points stand on a path into a tree, as a pass leaves them; `ls` are the leaves to the right
of the path, and `m` more passes explore what is there. -/
inductive Remaining : DecisionTree α → List ChoicePoint → List (Leaf α) → Nat → Prop
  | value (a : α) : Remaining (value a) [] [] 0
  | failure (fault : Fault) (h : fault.IsOrdinary) : Remaining (failure fault h) [] [] 0
  | spent (cs : List Value) (sub : Fin cs.length → DecisionTree α) :
      Remaining (node cs sub) [⟨cs, cs.length⟩] [] 0
  | inside {cs : List Value} {sub : Fin cs.length → DecisionTree α} (i : Fin cs.length)
      {ps : List ChoicePoint} {ls : List (Leaf α)} {m : Nat} (h : Remaining (sub i) ps ls m) :
      Remaining (node cs sub) (⟨cs, (i : Nat)⟩ :: ps)
        (branch i ls ++ leavesFrom cs sub (i + 1)) (m + passesFrom cs sub (i + 1) + 1)

/-- The chosen numbers at the points are those of a path. -/
def Spells (ps : List ChoicePoint) (path : List Nat) : Prop :=
  ps.map (·.cursor) = path.map fun n : Nat => (n : Int)

/-- What a pass adds to the leaves found so far: nothing if it lacked a choice, and else the next
remaining leaf, at the end of the path that the points spell. -/
def Finds (result : Except Fault α) (ps : List ChoicePoint) (before after : List (Leaf α)) : Prop :=
  (result = .error .noChoice ∧ before = after) ∨
    ∃ path : List Nat, before = (path, result) :: after ∧ result ≠ .error .noChoice ∧
      Spells ps path

/-- A pass over a tree along a trail, before which the leaves `ls` and `m` passes remained. -/
def Advances (T : DecisionTree α) (t : Trail) (ls : List (Leaf α)) (m : Nat) : Prop :=
  ∃ result ps ls' m', T.walk t = (result, ⟨ps.reverse ++ t.passed, [], t.spent⟩) ∧
    T.Remaining ps ls' m' ∧ m = m' + 1 ∧ Finds result ps ls ls'

theorem not_exhausted_of_lt {cs : List Value} (i : Fin cs.length) :
    (⟨cs, (i : Nat)⟩ : ChoicePoint).exhausted = false := by
  simp [ChoicePoint.exhausted]

/-- A pass that goes down into a subtree advances the node as it advances the subtree. -/
theorem Advances.descend {cs : List Value} {sub : Fin cs.length → DecisionTree α}
    {i : Fin cs.length} {t : Trail} {ahead : List ChoicePoint} {ls : List (Leaf α)} {m : Nat}
    (hw : (node cs sub).walk t = (sub i).walk ⟨⟨cs, (i : Nat)⟩ :: t.passed, ahead, t.spent⟩)
    (h : (sub i).Advances ⟨⟨cs, (i : Nat)⟩ :: t.passed, ahead, t.spent⟩ ls m) :
    (node cs sub).Advances t (branch i ls ++ leavesFrom cs sub (i + 1))
      (m + passesFrom cs sub (i + 1) + 1) := by
  obtain ⟨result, ps, ls', m', hwalk, hrem, rfl, hfind⟩ := h
  refine ⟨result, ⟨cs, (i : Nat)⟩ :: ps, _, _, ?_, .inside i hrem, by omega, ?_⟩
  · rw [hw, hwalk]
    simp
  · rcases hfind with ⟨hr, rfl⟩ | ⟨path, rfl, hr, hpath⟩
    · exact .inl ⟨hr, rfl⟩
    · refine .inr ⟨i :: path, by simp [branch], hr, ?_⟩
      simpa [Spells] using hpath

/-- A pass that comes to a node's subtree with a number for the first time, given what a pass does
that comes to a subtree for the first time. -/
theorem advances_from {cs : List Value} (sub : Fin cs.length → DecisionTree α)
    (ih : ∀ (i : Fin cs.length) (t : Trail), t.ahead = [] →
      (sub i).Advances t (sub i).leaves (sub i).passes)
    {t : Trail} {k : Nat} (hk : k ≤ cs.length)
    (h : t.choose cs = (cs[k]?, ⟨⟨cs, k⟩ :: t.passed, [], t.spent⟩)) :
    (node cs sub).Advances t (leavesFrom cs sub k) (passesFrom cs sub k + 1) := by
  have hw := walk_node sub h (by simp [Trail.lastChoice])
  by_cases hlt : k < cs.length
  · rw [dif_pos hlt] at hw
    rw [leavesFrom_of_lt sub hlt, passesFrom_of_lt sub hlt]
    exact Advances.descend hw (ih ⟨k, hlt⟩ _ rfl)
  · obtain rfl : k = cs.length := by omega
    rw [dif_neg hlt] at hw
    rw [leavesFrom_length, passesFrom_length]
    exact ⟨.error .noChoice, [⟨cs, cs.length⟩], [], 0, hw, .spent cs sub, rfl, .inl ⟨rfl, rfl⟩⟩

/-- A pass that comes to a tree behind its trail finds the leftmost leaf. -/
theorem advances_fresh (T : DecisionTree α) (t : Trail) (h : t.ahead = []) :
    T.Advances t T.leaves T.passes := by
  induction T generalizing t with
  | value a =>
    refine ⟨.ok a, [], [], 0, ?_, .value a, rfl, .inr ⟨[], rfl, nofun, rfl⟩⟩
    cases t
    subst h
    rfl
  | failure fault ho =>
    refine ⟨.error fault, [], [], 0, ?_, .failure fault ho, rfl, .inr ⟨[], rfl, ?_, rfl⟩⟩
    · cases t
      subst h
      rfl
    · simpa using ho.ne_noChoice
  | node cs sub ih =>
    have hc : t.choose cs = (cs[0]?, ⟨⟨cs, (0 : Nat)⟩ :: t.passed, [], t.spent⟩) := by
      unfold Trail.choose
      rw [h]
      exact congrArg (·, _) (ChoicePoint.current?_ofNat cs 0)
    have := advances_from sub ih (Nat.zero_le _) hc
    rwa [leavesFrom_zero, passesFrom_zero] at this

namespace Remaining

variable {T : DecisionTree α} {ps : List ChoicePoint} {ls : List (Leaf α)} {m : Nat}

/-- Nothing remains once no point is left to try. -/
theorem finished (h : T.Remaining ps ls m) (hr : rewind ps = []) : ls = [] ∧ m = 0 := by
  cases h with
  | value | failure | spent => exact ⟨rfl, rfl⟩
  | inside i h =>
    rw [rewind_cons (not_exhausted_of_lt i)] at hr
    cases hr

theorem traces_rewind (h : T.Remaining ps ls m) : T.Traces (rewind ps) := by
  induction h with
  | value | failure => simp [Traces]
  | spent cs sub =>
    rw [rewind_singleton_of_exhausted (by simp [ChoicePoint.exhausted])]
    simp [Traces]
  | @inside cs sub i ps ls m h ih =>
    rw [rewind_cons (not_exhausted_of_lt i)]
    exact ⟨i, rfl, fun _ => ih⟩

/-- **The step of the search**: a pass along the rewound points. -/
theorem pass (h : T.Remaining ps ls m) (hr : rewind ps ≠ []) (t : Trail)
    (ht : t.ahead = rewind ps) : T.Advances t ls m := by
  induction h generalizing t with
  | value | failure => exact absurd rfl hr
  | spent cs sub =>
    exact absurd (rewind_singleton_of_exhausted (by simp [ChoicePoint.exhausted])) hr
  | @inside cs sub i ps ls m h ih =>
    rw [rewind_cons (not_exhausted_of_lt i)] at ht
    by_cases hps : rewind ps = []
    · -- the subtree is done with: the point moves on, and the next subtree is new
      obtain ⟨rfl, rfl⟩ := h.finished hps
      have hc : t.choose cs =
          (cs[(i : Nat) + 1]?, ⟨⟨cs, ((i : Nat) + 1 : Nat)⟩ :: t.passed, [], t.spent⟩) := by
        unfold Trail.choose
        rw [ht, hps]
        exact congrArg (·, _) (ChoicePoint.current?_ofNat cs (i + 1))
      have := advances_from sub (fun i t => advances_fresh (sub i) t) i.isLt hc
      simpa [branch] using this
    · -- the point chooses as before
      obtain ⟨q, qs, hq⟩ := List.exists_cons_of_ne_nil hps
      have hc : t.choose cs =
          (cs[(i : Nat)]?, ⟨⟨cs, (i : Nat)⟩ :: t.passed, rewind ps, t.spent⟩) := by
        unfold Trail.choose
        rw [ht, hq]
        exact congrArg (·, _) (ChoicePoint.current?_ofNat cs i)
      have hw := walk_node sub hc (by simp [Trail.lastChoice])
      rw [dif_pos i.isLt] at hw
      exact Advances.descend hw (ih hps _ rfl)

end Remaining

end DecisionTree

end AmbLisp
