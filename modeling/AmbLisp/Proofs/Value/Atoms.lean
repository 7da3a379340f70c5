import AmbLisp.Proofs.Value.Induction
import AmbLisp.Proofs.Value.Readable

/-!
# What values are made of

`Value.MadeOf`: all atoms in a value are of one kind, also those in the parameters and the bodies of
closures. What is made of readable atoms is readable, unless there is a function in it
(`readable_of_madeOf`).
-/

namespace AmbLisp

namespace Value

mutual

/-- All atoms in a value are of a kind, also in the parameters and the body of a closure. -/
def MadeOf (A : Value → Prop) : Value → Prop
  | list vs => AllMadeOf A vs
  | closure _ _ params body => AllMadeOf A params ∧ MadeOf A body
  | prim _ => True
  | v => A v

/-- All atoms in these values are of a kind. -/
def AllMadeOf (A : Value → Prop) : List Value → Prop
  | [] => True
  | v :: vs => MadeOf A v ∧ AllMadeOf A vs

end

mutual

/-- There is no function in a value. -/
def functionFree : Value → Bool
  | list vs => allFunctionFree vs
  | prim _ | closure .. => false
  | _ => true

/-- There is no function in these values. -/
def allFunctionFree : List Value → Bool
  | [] => true
  | v :: vs => functionFree v && allFunctionFree vs

end

variable {A : Value → Prop} {v : Value}

theorem allMadeOf_iff {vs : List Value} : AllMadeOf A vs ↔ ∀ v ∈ vs, v.MadeOf A := by
  induction vs with
  | nil => simp [AllMadeOf]
  | cons v vs ih => rw [AllMadeOf, ih, List.forall_mem_cons]

theorem madeOf_list {vs : List Value} : (list vs).MadeOf A ↔ ∀ v ∈ vs, v.MadeOf A := by
  rw [MadeOf, allMadeOf_iff]

theorem madeOf_closure (n : Nat) (e : ScopeId) {params : List Value} {body : Value} :
    (closure n e params body).MadeOf A ↔ (∀ v ∈ params, v.MadeOf A) ∧ body.MadeOf A := by
  rw [MadeOf, allMadeOf_iff]

theorem functionFree_list {vs : List Value} :
    (list vs).functionFree = true ↔ ∀ v ∈ vs, v.functionFree = true := by
  rw [functionFree]
  induction vs with
  | nil => simp [allFunctionFree]
  | cons v vs ih => rw [allFunctionFree, Bool.and_eq_true, ih, List.forall_mem_cons]

/-- There is nothing to be made of but atoms. -/
theorem madeOf_of_all (h : ∀ v, A v) (v : Value) : v.MadeOf A := by
  induction v using Value.induction with
  | int | bool | sym | str | nil => exact h _
  | prim => trivial
  | list vs ih => exact madeOf_list.2 ih
  | closure n e params body ih ihb => exact (madeOf_closure n e).2 ⟨ih, ihb⟩

theorem MadeOf.and {B : Value → Prop} (h : v.MadeOf A) (h' : v.MadeOf B) :
    v.MadeOf fun a => A a ∧ B a := by
  induction v using Value.induction with
  | int | bool | sym | str | nil => exact ⟨h, h'⟩
  | prim => trivial
  | list vs ih =>
    rw [madeOf_list] at h h' ⊢
    exact fun v hv => ih v hv (h v hv) (h' v hv)
  | closure n e params body ih ihb =>
    rw [madeOf_closure] at h h' ⊢
    exact ⟨fun v hv => ih v hv (h.1 v hv) (h'.1 v hv), ihb h.2 h'.2⟩

theorem MadeOf.imp {B : Value → Prop} (h : v.MadeOf A) (hAB : ∀ a, A a → B a) : v.MadeOf B := by
  induction v using Value.induction with
  | int | bool | sym | str | nil => exact hAB _ h
  | prim => trivial
  | list vs ih =>
    rw [madeOf_list] at h ⊢
    exact fun v hv => ih v hv (h v hv)
  | closure n e params body ih ihb =>
    rw [madeOf_closure] at h ⊢
    exact ⟨fun v hv => ih v hv (h.1 v hv), ihb h.2⟩

mutual

/-- Whether all atoms in a value are of a kind can be decided, if it can for each atom. -/
instance decidableMadeOf [DecidablePred A] : ∀ v : Value, Decidable (v.MadeOf A)
  | list vs => decidableAllMadeOf vs
  | closure _ _ params body =>
    have := decidableAllMadeOf params
    have := decidableMadeOf body
    inferInstanceAs (Decidable (AllMadeOf A params ∧ MadeOf A body))
  | prim _ => inferInstanceAs (Decidable True)
  | int n => inferInstanceAs (Decidable (A (int n)))
  | bool b => inferInstanceAs (Decidable (A (bool b)))
  | sym name => inferInstanceAs (Decidable (A (sym name)))
  | str text => inferInstanceAs (Decidable (A (str text)))
  | nil => inferInstanceAs (Decidable (A nil))

instance decidableAllMadeOf [DecidablePred A] : ∀ vs : List Value, Decidable (AllMadeOf A vs)
  | [] => inferInstanceAs (Decidable True)
  | v :: vs =>
    have := decidableMadeOf v
    have := decidableAllMadeOf vs
    inferInstanceAs (Decidable (MadeOf A v ∧ AllMadeOf A vs))

end

theorem madeOf_sequence (hA : A (.sym Keyword.sequence.name)) {forms : List Value}
    (h : ∀ v ∈ forms, v.MadeOf A) : (sequence forms).MadeOf A :=
  madeOf_list.2 (List.forall_mem_cons.2 ⟨hA, h⟩)

end Value

theorem Readable.madeOf {v : Value} (h : Readable v) : v.MadeOf Readable := by
  induction h with
  | list _ ih => exact Value.madeOf_list.2 ih
  | int h => exact .int h
  | bool b => exact .bool b
  | nil => exact .nil
  | str text => exact .str text
  | sym h => exact .sym h

/-- Nothing but functions comes between readable atoms and the reader. -/
theorem readable_of_madeOf {v : Value} (h : v.MadeOf Readable) (hf : v.functionFree = true) :
    Readable v := by
  induction v using Value.induction with
  | int | bool | sym | str | nil => exact h
  | prim | closure => cases hf
  | list vs ih =>
    exact .list fun v hv => ih v hv (Value.madeOf_list.1 h v hv) (Value.functionFree_list.1 hf v hv)

end AmbLisp
