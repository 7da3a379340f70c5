import AmbLisp.Proofs.Value.Atoms

/-!
# Equal data

Values that compare as equal are one and the same, and there is no function in them; and values without
functions compare as equal to themselves (`equal_iff`). So the comparison is symmetric (`equal_comm`),
and a value with a function in it is equal to none, not even to itself.
-/

namespace AmbLisp.Value

/-- **Equality is identity of data**: of values without functions. -/
theorem equal_iff {v w : Value} : v.equal w = true ↔ v.functionFree = true ∧ v = w := by
  induction v using Value.induction generalizing w with
  | int | bool | sym | str | nil | prim => cases w <;> simp [equal, functionFree]
  | closure => cases w <;> simp [equal, functionFree]
  | list vs ih =>
    cases w with
    | list ws =>
      rw [equal, functionFree_list, list.injEq]
      induction vs generalizing ws with
      | nil => cases ws <;> simp [equalAll]
      | cons v vs ihs =>
        rw [List.forall_mem_cons] at ih
        cases ws with
        | nil => simp [equalAll]
        | cons w ws =>
          rw [equalAll, Bool.and_eq_true, ih.1, ihs ih.2, List.forall_mem_cons, List.cons.injEq,
            and_and_and_comm]
    | _ => simp [equal]

theorem eq_of_equalAll {vs ws : List Value} (h : equalAll vs ws = true) : vs = ws := by
  have hlist : (list vs).equal (list ws) = true := by rw [equal, h]
  exact list.inj (equal_iff.1 hlist).2

theorem equal_comm (v w : Value) : v.equal w = w.equal v := by
  rw [Bool.eq_iff_iff, equal_iff, equal_iff]
  constructor <;> rintro ⟨hfree, rfl⟩ <;> exact ⟨hfree, rfl⟩

/-- A value with a function in it is equal to none. -/
theorem equal_of_function {v : Value} (h : v.functionFree = false) (w : Value) :
    v.equal w = false := by
  cases heq : v.equal w with
  | false => rfl
  | true =>
    rw [(equal_iff.1 heq).1] at h
    cases h

end AmbLisp.Value
