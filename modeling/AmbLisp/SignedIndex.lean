/-!
# Signed indices

An index below zero counts from the end of a list: `-1` is the last element. `get?_ofNat` and
`get?_eq_none_of_length_le` say that an index of zero and above is an ordinary one.
-/

namespace AmbLisp.SignedIndex

/-- Is an index not below the first element? Such an index can still lie behind the last one. -/
def reaches (xs : List α) (i : Int) : Bool :=
  0 ≤ xs.length + i

/-- The element at an index. -/
def get? (xs : List α) (i : Int) : Option α :=
  if 0 ≤ i then xs[i.toNat]?
  else if reaches xs i then xs[(xs.length + i).toNat]?
  else none

theorem get?_ofNat (xs : List α) (n : Nat) : get? xs n = xs[n]? := by
  simp [get?]

theorem get?_eq_none_of_length_le {xs : List α} {i : Int} (h : xs.length ≤ i) :
    get? xs i = none := by
  have h0 : 0 ≤ i := by omega
  simp only [get?, h0, if_true, List.getElem?_eq_none_iff]
  omega

theorem get?_isSome_of_reaches {xs : List α} {i : Int} (hr : reaches xs i) (h : i < xs.length) :
    (get? xs i).isSome := by
  have h' : 0 ≤ xs.length + i := by simpa [reaches] using hr
  unfold get?
  split
  · rw [List.getElem?_eq_getElem (by omega)]
    rfl
  · rw [List.getElem?_eq_getElem (by omega)]
    rfl

end AmbLisp.SignedIndex
