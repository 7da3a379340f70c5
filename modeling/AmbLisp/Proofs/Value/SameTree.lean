import AmbLisp.Primitive.Apply
import AmbLisp.Proofs.Reader.RoundTrip
import AmbLisp.Proofs.Value.Equality

/-!
# The same tree

A value is a tree, with the elements of a list below it, and a path leads down from one element to the
next. Values are the same tree if they show the same at each path (`Value.SameTree`), and data if no
path leads to a function (`Value.IsData`). Of data, to be the same tree is to be identical
(`sameTree_iff`). `equality_laws` says so of `eq?`, and that readable values are equal just if their
texts are.
-/

namespace AmbLisp

namespace Value

/-- What a value shows of itself: its kind and what it holds, but of a list only the length. -/
inductive Node where
  | int (n : Int)
  | bool (b : Bool)
  | sym (name : String)
  | str (text : String)
  | nil
  | list (length : Nat)
  | function

def node : Value → Node
  | int n => .int n
  | bool b => .bool b
  | sym name => .sym name
  | str text => .str text
  | nil => .nil
  | list vs => .list vs.length
  | prim _ | closure .. => .function

/-- The value at the end of a path. -/
def part? : Value → List Nat → Option Value
  | v, [] => some v
  | list vs, i :: path => vs[i]?.bind fun v => v.part? path
  | _, _ :: _ => none

/-- No path leads to a function. -/
def IsData (v : Value) : Prop :=
  ∀ path u, v.part? path = some u → u.isFunction = false

/-- At each path there is nothing in either value, or the same node. -/
def SameTree (v w : Value) : Prop :=
  ∀ path, (v.part? path).map node = (w.part? path).map node

/-- `eq?` says that the values are equal. -/
def Equals (v w : Value) : Prop :=
  Primitive.eq.apply [v, w] = .ok (.bool true)

variable {u v w : Value} {vs ws : List Value}

@[simp] theorem part?_nil (v : Value) : v.part? [] = some v := by
  cases v <;> rfl

@[simp] theorem part?_list_cons (vs : List Value) (i : Nat) (path : List Nat) :
    (list vs).part? (i :: path) = vs[i]?.bind fun v => v.part? path := rfl

theorem isData_list : (list vs).IsData ↔ ∀ v ∈ vs, v.IsData := by
  constructor
  · intro h v hv path u hu
    obtain ⟨i, hi⟩ := List.mem_iff_getElem?.1 hv
    exact h (i :: path) u (by rw [part?_list_cons, hi, Option.bind_some, hu])
  · intro h path u hu
    cases path with
    | nil =>
      cases hu
      rfl
    | cons i path =>
      obtain ⟨v, hi, hv⟩ := Option.bind_eq_some_iff.1 hu
      exact h v (List.mem_of_getElem? hi) path u hv

theorem isData_of_no_parts (hpart : ∀ i path, v.part? (i :: path) = none)
    (hv : v.isFunction = false) : v.IsData := by
  intro path u hu
  cases path with
  | nil =>
    rw [part?_nil] at hu
    exact Option.some.inj hu ▸ hv
  | cons i path =>
    rw [hpart] at hu
    cases hu

/-- No path leads to a function just if there is none in the value. -/
theorem isData_iff : v.IsData ↔ v.functionFree = true := by
  induction v using Value.induction with
  | int | bool | sym | str | nil =>
    exact iff_of_true (isData_of_no_parts (fun _ _ => rfl) rfl) rfl
  | prim | closure => exact iff_of_false (fun h => absurd (h [] _ rfl) nofun) nofun
  | list vs ih =>
    rw [isData_list, functionFree_list]
    exact forall₂_congr ih

theorem SameTree.node_eq (h : v.SameTree w) : v.node = w.node := by
  have hroot := h []
  rw [part?_nil, part?_nil] at hroot
  exact Option.some.inj hroot

/-- The elements of lists that are the same tree are so in pairs. -/
theorem SameTree.element (h : (list vs).SameTree (list ws)) {i : Nat} (hv : vs[i]? = some v)
    (hw : ws[i]? = some w) : v.SameTree w := by
  intro path
  have hpath := h (i :: path)
  rwa [part?_list_cons, part?_list_cons, hv, hw, Option.bind_some, Option.bind_some] at hpath

/-- **Data is the same tree** as nothing but itself. -/
theorem sameTree_iff (hv : v.functionFree = true) : v.SameTree w ↔ v = w := by
  constructor
  · intro h
    induction v using Value.induction generalizing w with
    | int | bool | sym | str | nil =>
      have hnode := h.node_eq
      cases w <;> simp_all [node]
    | prim | closure => cases hv
    | list vs ih =>
      have hnode := h.node_eq
      cases w with
      | list ws =>
        have hlength : vs.length = ws.length := Node.list.inj hnode
        refine congrArg list (List.ext_getElem hlength fun i hi hi' => ?_)
        have hmem : vs[i] ∈ vs := List.getElem_mem hi
        refine ih _ hmem (functionFree_list.1 hv _ hmem) ?_
        exact h.element (List.getElem?_eq_getElem hi) (List.getElem?_eq_getElem hi')
      | _ => cases hnode
  · rintro rfl path
    rfl

theorem equals_iff : v.Equals w ↔ v.functionFree = true ∧ v = w := by
  have happly : Primitive.eq.apply [v, w] = .ok (.bool (v.equal w)) := rfl
  rw [← equal_iff, Equals, happly]
  constructor
  · intro h
    exact bool.inj (Except.ok.inj h)
  · intro h
    rw [h]

theorem functionFree_of_readable (h : Readable v) : v.functionFree = true := by
  induction h with
  | list _ ih => exact functionFree_list.2 ih
  | _ => rfl

/-- Readable values with one text are identical, since the text is read as either. -/
theorem eq_of_print_eq (hv : Readable v) (hw : Readable w) (h : v.print = w.print) : v = w := by
  have hread := Reader.parse_print_of_readable hv
  rw [h, Reader.parse_print_of_readable hw] at hread
  exact (Except.ok.inj hread).symm

/-- **Equality is structural identity of data.** `eq?` has a boolean for any two values, and it is `#t`
just if no function is part of either value and they are the same tree. So it is symmetric and
transitive, and reflexive on data alone; and readable values are equal just if they have the same
text. -/
theorem equality_laws :
    (∀ v w : Value, ∃ b, Primitive.eq.apply [v, w] = .ok (.bool b)) ∧
    (∀ v w : Value, v.Equals w ↔ v.IsData ∧ w.IsData ∧ v.SameTree w) ∧
    (∀ v w : Value, v.Equals w → w.Equals v) ∧
    (∀ u v w : Value, u.Equals v → v.Equals w → u.Equals w) ∧
    (∀ v : Value, v.Equals v ↔ v.IsData) ∧
    ∀ v w : Value, Readable v → Readable w → (v.Equals w ↔ v.print = w.print) := by
  refine ⟨fun v w => ⟨v.equal w, rfl⟩, fun v w => ?_, fun v w h => ?_, fun u v w h h' => ?_,
    fun v => ?_, fun v w hv hw => ?_⟩
  · rw [equals_iff, isData_iff, isData_iff]
    constructor
    · rintro ⟨hfree, rfl⟩
      exact ⟨hfree, hfree, fun _ => rfl⟩
    · rintro ⟨hfree, -, hsame⟩
      exact ⟨hfree, (sameTree_iff hfree).1 hsame⟩
  · obtain ⟨hfree, rfl⟩ := equals_iff.1 h
    exact h
  · obtain ⟨-, rfl⟩ := equals_iff.1 h'
    exact h
  · rw [equals_iff, isData_iff]
    exact and_iff_left rfl
  · rw [equals_iff]
    constructor
    · rintro ⟨-, rfl⟩
      rfl
    · intro h
      exact ⟨functionFree_of_readable hv, eq_of_print_eq hv hw h⟩

/-- A string in a nested list, the integer with the same digits in its place, and a primitive. -/
theorem equality_laws_nested :
    let v : Value := list [nil, list [bool true, str "1"]]
    let w : Value := list [nil, list [bool true, int 1]]
    let f : Value := list [nil, list [bool true, prim .car]]
    v.Equals v ∧ v.print ≠ w.print ∧ ¬ f.Equals f := by
  intro v w f
  obtain ⟨-, -, hsymm, htrans, hrefl, hprint⟩ := equality_laws
  have hv : v.Equals v := rfl
  have hpair : ∀ a b, Readable a → Readable b → Readable (list [a, b]) := fun a b ha hb =>
    .list (List.forall_mem_cons.2 ⟨ha, List.forall_mem_singleton.2 hb⟩)
  have hreadable : ∀ u, Readable u → Readable (list [nil, list [bool true, u]]) :=
    fun u hu => hpair _ _ .nil (hpair _ _ (.bool true) hu)
  have hdiffer : ¬ v.Equals w := fun h => absurd (Except.ok.inj h) nofun
  have hpart : f.part? [1, 1] = some (prim .car) := rfl
  refine ⟨htrans v v v hv (hsymm v v hv), fun h => hdiffer ?_, fun h => ?_⟩
  · exact (hprint v w (hreadable _ (.str "1")) (hreadable _ (.int (by decide)))).2 h
  · exact absurd ((hrefl f).1 h _ _ hpart) nofun

end Value

end AmbLisp
