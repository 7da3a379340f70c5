import AmbLisp.Proofs.Fault.Ordinary
import AmbLisp.Search

/-!
# Decision trees

What a search explores, apart from passes and trails: a node is an `amb`, with a subtree for each of
its candidates, and a leaf is what an evaluation ends with. `walk` is one pass over a tree: it asks
the trail once at every node and goes down into the subtree whose number the trail has chosen.
`walk_bind`: to walk a tree that goes on at its leaves is to walk the tree and then what follows.
-/

namespace AmbLisp

/-- A finite tree of decisions. -/
inductive DecisionTree (α : Type) where
  | value (a : α)
  | failure (fault : Fault) (ordinary : fault.IsOrdinary)
  | node (candidates : List Value) (subtree : Fin candidates.length → DecisionTree α)

/-- The number of the candidate that the point met last has chosen. -/
def Trail.lastChoice (t : Trail) : Nat :=
  (t.passed.headD {}).cursor.toNat

namespace DecisionTree

variable {α β : Type}

/-! ## Leaves and nodes -/

/-- What a tree has at the end of a path: the numbers of the subtrees that lead there, and a value
or an ordinary fault. -/
abbrev Leaf (α : Type) := List Nat × Except Fault α

/-- Leaves of the subtree with a number, seen from its node. -/
def branch (i : Nat) (ls : List (Leaf α)) : List (Leaf α) :=
  ls.map fun l => (i :: l.1, l.2)

/-- The leaves from left to right. -/
def leaves : DecisionTree α → List (Leaf α)
  | value a => [([], .ok a)]
  | failure fault _ => [([], .error fault)]
  | node cs sub =>
    (List.finRange cs.length).flatMap fun i : Fin cs.length => branch i (sub i).leaves

/-- The number of nodes. -/
def nodes : DecisionTree α → Nat
  | value _ | failure .. => 0
  | node cs sub => (List.finRange cs.length).foldr (fun i n => (sub i).nodes + n) 0 + 1

/-- How many passes explore a tree: one for each leaf, and one for each node, which finds it spent.
-/
def passes : DecisionTree α → Nat
  | value _ | failure .. => 1
  | node cs sub => (List.finRange cs.length).foldr (fun i n => (sub i).passes + n) 0 + 1

theorem passes_eq (T : DecisionTree α) : T.passes = T.leaves.length + T.nodes := by
  induction T with
  | value | failure => rfl
  | node cs sub ih =>
    have hsum : ∀ is : List (Fin cs.length),
        is.foldr (fun i n => (sub i).passes + n) 0 =
          (is.flatMap fun i : Fin cs.length => branch i (sub i).leaves).length +
            is.foldr (fun i n => (sub i).nodes + n) 0 := by
      intro is
      induction is with
      | nil => rfl
      | cons i is ih' =>
        rw [List.foldr_cons, ih', ih i, List.flatMap_cons, List.length_append, List.foldr_cons,
          branch, List.length_map]
        omega
    rw [passes, hsum, leaves, nodes, Nat.add_assoc]

/-- The faults among the leaves are ordinary. -/
theorem ordinary_of_mem_leaves {T : DecisionTree α} {path : List Nat} {fault : Fault}
    (h : (path, .error fault) ∈ T.leaves) : fault.IsOrdinary := by
  induction T generalizing path with
  | value a =>
    rw [leaves, List.mem_singleton] at h
    cases h
  | failure f hf =>
    rw [leaves, List.mem_singleton] at h
    cases h
    exact hf
  | node cs sub ih =>
    obtain ⟨i, -, hi⟩ := List.mem_flatMap.1 h
    obtain ⟨⟨path', result⟩, hl, heq⟩ := List.mem_map.1 hi
    cases heq
    exact ih i hl

/-! ## Walking -/

/-- One pass over a tree along a trail. -/
def walk : DecisionTree α → Trail → Except Fault α × Trail
  | value a, t => (.ok a, t)
  | failure fault _, t => (.error fault, t)
  | node cs sub, t =>
    match t.choose cs with
    | (none, t) => (.error .noChoice, t)
    | (some _, t) =>
      if h : t.lastChoice < cs.length then (sub ⟨t.lastChoice, h⟩).walk t
      else (.error .noChoice, t)

/-- The points stand at the nodes of a path into a tree, as far as both go. -/
def Traces : DecisionTree α → List ChoicePoint → Prop
  | node cs sub, p :: ps =>
    ∃ k : Nat, p = ⟨cs, k⟩ ∧ ∀ h : k < cs.length, (sub ⟨k, h⟩).Traces ps
  | _, _ => True

theorem walk_node {cs : List Value} (sub : Fin cs.length → DecisionTree α) {t t' : Trail} {k : Nat}
    (h : t.choose cs = (cs[k]?, t')) (hk : t'.lastChoice = k) :
    (node cs sub).walk t =
      if hlt : k < cs.length then (sub ⟨k, hlt⟩).walk t' else (.error .noChoice, t') := by
  subst hk
  rw [walk, h]
  by_cases hlt : t'.lastChoice < cs.length
  · simp [hlt]
  · simp [hlt]

theorem traces_nil (T : DecisionTree α) : T.Traces [] := by
  cases T <;> trivial

/-- A choice at a node that the trail stands at: the number of a candidate, and the trail in the
subtree with this number. -/
theorem Traces.choose {cs : List Value} {sub : Fin cs.length → DecisionTree α} {t : Trail}
    (h : (node cs sub).Traces t.ahead) :
    ∃ k : Nat, t.choose cs = (cs[k]?, ⟨⟨cs, k⟩ :: t.passed, t.ahead.tail, t.spent⟩) ∧
      ∀ hk : k < cs.length, (sub ⟨k, hk⟩).Traces t.ahead.tail := by
  unfold Trail.choose
  rcases ha : t.ahead with _ | ⟨p, _ | ⟨q, rest⟩⟩
  · exact ⟨0, congrArg (·, _) (ChoicePoint.current?_ofNat cs 0), fun _ => traces_nil _⟩
  · rw [ha] at h
    obtain ⟨k, rfl, -⟩ := h
    exact ⟨k + 1, congrArg (·, _) (ChoicePoint.current?_ofNat cs (k + 1)), fun _ => traces_nil _⟩
  · rw [ha] at h
    obtain ⟨k, rfl, hsub⟩ := h
    exact ⟨k, congrArg (·, _) (ChoicePoint.current?_ofNat cs k), hsub⟩

/-! ## Going on at the leaves -/

/-- A tree with another tree in the place of each value. -/
def bind : DecisionTree α → (α → DecisionTree β) → DecisionTree β
  | value a, f => f a
  | failure fault h, _ => failure fault h
  | node cs sub, f => node cs fun i => (sub i).bind f

instance : Monad DecisionTree where
  pure := value
  bind := bind

theorem walk_bind (T : DecisionTree α) (f : α → DecisionTree β) (t : Trail) :
    (T.bind f).walk t =
      match T.walk t with
      | (.ok a, t) => (f a).walk t
      | (.error fault, t) => (.error fault, t) := by
  induction T generalizing t with
  | value | failure => rfl
  | node cs sub ih =>
    simp only [bind, walk]
    split
    · rfl
    · split
      · exact ih _ _
      · rfl

/-- A tree with other values. -/
def map (f : α → β) (T : DecisionTree α) : DecisionTree β :=
  T.bind fun a => value (f a)

theorem walk_map (T : DecisionTree α) (f : α → β) (t : Trail) :
    (T.map f).walk t = ((T.walk t).1.map f, (T.walk t).2) := by
  rw [map, walk_bind]
  rcases T.walk t with ⟨fault | a, t⟩ <;> rfl

theorem Traces.of_bind {T : DecisionTree α} {f : α → DecisionTree β} {ps : List ChoicePoint}
    (h : (T.bind f).Traces ps) : T.Traces ps := by
  induction T generalizing ps with
  | value | failure => trivial
  | node cs sub ih =>
    cases ps with
    | nil => trivial
    | cons p ps =>
      obtain ⟨k, hp, hsub⟩ := h
      exact ⟨k, hp, fun hk => ih _ (hsub hk)⟩

end DecisionTree

end AmbLisp
