import AmbLisp.Proofs.Eval.Calm

/-!
# Membership and difference

What `member?` and `distinct?` come to in a standard store, by induction on the list that they go
through: whether some element is equal to a value, and whether all elements are different. They leave
all alone. For a list of length `k` it is enough that `2 * k + 3` evaluations may be nested.
-/

namespace AmbLisp

open Prelude Prelude.Function Store

/-- No two of these values are equal. -/
def Value.AllDifferent (vs : List Value) : Prop :=
  vs.Pairwise fun v w => v.equal w = false

instance (vs : List Value) : Decidable (Value.AllDifferent vs) :=
  inferInstanceAs (Decidable (List.Pairwise _ _))

/-- Not all values are different just if there are equal ones at two positions. -/
theorem Value.not_allDifferent_iff {vs : List Value} :
    ¬ AllDifferent vs ↔
      ∃ (i j : Nat) (hi : i < vs.length) (hj : j < vs.length), i ≠ j ∧ vs[i].equal vs[j] = true := by
  rw [AllDifferent, List.pairwise_iff_getElem]
  constructor
  · intro h
    simp only [Classical.not_forall, Bool.not_eq_false] at h
    obtain ⟨i, j, hi, hj, hlt, heq⟩ := h
    exact ⟨i, j, hi, hj, Nat.ne_of_lt hlt, heq⟩
  · rintro ⟨i, j, hi, hj, hne, heq⟩ h
    rcases Nat.lt_or_gt_of_ne hne with hlt | hlt
    · rw [h i j hi hj hlt] at heq
      cases heq
    · rw [equal_comm, h j i hj hi hlt] at heq
      cases heq

theorem Value.decide_allDifferent_cons (v : Value) (vs : List Value) :
    decide (AllDifferent (v :: vs)) = (!vs.any v.equal && decide (AllDifferent vs)) := by
  rw [Bool.eq_iff_iff, decide_eq_true_iff, AllDifferent, List.pairwise_cons, Bool.and_eq_true,
    Bool.not_eq_true', List.any_eq_false, decide_eq_true_iff]
  simp only [Bool.not_eq_true]
  exact Iff.rfl

namespace Prelude

variable {host : Host} {σ : Store}

/-- **Membership**: some element is equal to a value. -/
theorem gives_member (hσ : σ.Standard) (serial : Nat) (x : Value) (xs : List Value) (n : Nat) :
    ((evaluate host n).apply host
      [.closure serial globalScope (member.params.map .sym) member.body, x, .list xs]).Gives
      (2 * xs.length + 3 ≤ n) σ (.bool (xs.any x.equal)) := by
  induction xs generalizing σ serial n with
  | nil =>
    refine Run.gives_function hσ rfl fun τ e _ hcall => evaluates_cond ?_ n
    have hnil := hcall.evaluates_isNil host "items" rfl rfl
    exact hnil.clause_true rfl ((evaluates_bool false).mono (by decide))
  | cons y ys ih =>
    rw [List.length_cons, List.any_cons]
    refine Run.gives_function hσ rfl fun τ e hext hcall => evaluates_cond ?_ n
    have hx := hcall.evaluates_argument host "x" rfl
    have hnil := hcall.evaluates_isNil host "items" rfl rfl
    have hcar := hcall.evaluates_car host "items" rfl rfl
    have hcdr := hcall.evaluates_cdr host "items" rfl rfl
    have heq : Evaluates host τ e 3 (.call "eq?" [.sym "x", .call "car" [.sym "items"]])
        (.bool (x.equal y)) :=
      hcall.evaluates_primitive .eq rfl (by decide)
        ((hx.mono (by decide)).all_cons (hcar.all_cons evaluatesAll_nil)) rfl rfl
    refine (hnil.mono (by omega)).clause_false rfl ?_
    cases hxy : x.equal y with
    | true =>
      rw [hxy] at heq
      exact (heq.mono (by omega)).clause_true rfl ((evaluates_bool true).mono (by omega))
    | false =>
      rw [hxy] at heq
      obtain ⟨serial', hl⟩ := hcall.function member (by simp [functions]) rfl
      have hargs : EvaluatesAll host τ e (2 * ys.length + 3)
          [.sym "x", .call "cdr" [.sym "items"]] [x, .list ys] :=
        (hx.mono (by omega)).all_cons ((hcdr.mono (by omega)).all_cons evaluatesAll_nil)
      refine (heq.mono (by omega)).clause_false rfl (clause_else (by omega) ?_)
      exact evaluates_call rfl hl (by omega) hargs (ih (hσ.extends hext) serial')

/-- **Difference**: no two elements are equal. -/
theorem gives_distinct (hσ : σ.Standard) (serial : Nat) (xs : List Value) (n : Nat) :
    ((evaluate host n).apply host
      [.closure serial globalScope (distinct.params.map .sym) distinct.body, .list xs]).Gives
      (2 * xs.length + 3 ≤ n) σ (.bool (decide (Value.AllDifferent xs))) := by
  induction xs generalizing σ serial n with
  | nil =>
    refine Run.gives_function hσ rfl fun τ e _ hcall => evaluates_cond ?_ n
    have hnil := hcall.evaluates_isNil host "items" rfl rfl
    exact hnil.clause_true rfl ((evaluates_bool true).mono (by decide))
  | cons y ys ih =>
    rw [List.length_cons]
    refine Run.gives_function hσ rfl fun τ e hext hcall => evaluates_cond ?_ n
    have hnil := hcall.evaluates_isNil host "items" rfl rfl
    have hcar := hcall.evaluates_car host "items" rfl rfl
    have hcdr := hcall.evaluates_cdr host "items" rfl rfl
    obtain ⟨serial₁, hmember⟩ := hcall.function member (by simp [functions]) rfl
    obtain ⟨serial₂, hdistinct⟩ := hcall.function distinct (by simp [functions]) rfl
    have htwo : EvaluatesAll host τ e (2 * ys.length + 3)
        [.call "car" [.sym "items"], .call "cdr" [.sym "items"]] [y, .list ys] :=
      (hcar.mono (by omega)).all_cons ((hcdr.mono (by omega)).all_cons evaluatesAll_nil)
    have hin := evaluates_call rfl hmember (by omega) htwo
      (gives_member (hσ.extends hext) serial₁ y ys)
    refine (hnil.mono (by omega)).clause_false rfl ?_
    rw [Value.decide_allDifferent_cons]
    cases hys : ys.any y.equal with
    | true =>
      rw [hys] at hin
      exact hin.clause_true rfl ((evaluates_bool false).mono (by omega))
    | false =>
      rw [hys] at hin
      refine hin.clause_false rfl (clause_else (by omega) ?_)
      exact evaluates_call rfl hdistinct (by omega)
        ((hcdr.mono (by omega)).all_cons evaluatesAll_nil) (ih (hσ.extends hext) serial₂)

end Prelude

/-! ## What a predicate decides -/

namespace Run

variable {act : Run Value} {enough P : Prop} {w : World} {b : Bool}

/-- A run leaves all alone and comes to the truth value of `P`, or evaluations are nested too deeply,
which they are not if there is `enough` room. -/
def Decides (act : Run Value) (enough : Prop) (w : World) (P : Prop) : Prop :=
  ∃ result w', act.outcome w = (result, w') ∧ w.Calm w' ∧
    ((∃ b, result = .ok (.bool b) ∧ (b = true ↔ P)) ∨ result = .error .tooDeep ∧ ¬ enough)

theorem Gives.decides (h : act.Gives enough w.store (.bool b)) (hb : b = true ↔ P) :
    act.Decides enough w P := by
  obtain ⟨result, w', hact, hcalm, hresult⟩ := h w (.refl _)
  exact ⟨result, w', hact, hcalm, hresult.imp (fun h => ⟨b, h, hb⟩) id⟩

end Run

namespace Prelude

/-- **`member?` and `distinct?` decide** whether a value is equal to some element of a list, and
whether no two positions of a list hold equal values, wherever the global scope still binds what it
binds in a new session. They choose nothing, print nothing and change no scope. What has a function in
it is equal to nothing. -/
theorem member_distinct_decide (host : Host) (n : Nat) {w : World} {f g : Value}
    (hw : w.store.Standard) (hf : w.store.lookup globalScope "member?" = some f)
    (hg : w.store.lookup globalScope "distinct?" = some g) (x : Value) (xs : List Value) :
    ((evaluate host n).apply host [f, x, .list xs]).Decides (2 * xs.length + 3 ≤ n) w
        (∃ y ∈ xs, x.equal y = true) ∧
      ((evaluate host n).apply host [g, .list xs]).Decides (2 * xs.length + 3 ≤ n) w
        (¬ ∃ (i j : Nat) (hi : i < xs.length) (hj : j < xs.length),
          i ≠ j ∧ xs[i].equal xs[j] = true) ∧
      ∀ v : Value, v.functionFree = false → ∀ u, v.equal u = false ∧ u.equal v = false := by
  obtain ⟨serial, hl⟩ := hw.function member (by simp [functions])
  obtain ⟨serial', hl'⟩ := hw.function distinct (by simp [functions])
  cases hf.symm.trans hl
  cases hg.symm.trans hl'
  refine ⟨(gives_member hw serial x xs n).decides List.any_eq_true,
    (gives_distinct hw serial' xs n).decides ?_, fun v hv u => ?_⟩
  · rw [decide_eq_true_iff, ← Value.not_allDifferent_iff, Classical.not_not]
  · exact ⟨Value.equal_of_function hv u, Value.equal_comm u v ▸ Value.equal_of_function hv u⟩

/-- A list in which there are equal values and equal functions. -/
def pairs : List Value :=
  [.prim .car, .int 1, .prim .car, .int 1]

theorem member_distinct_decide_pairs : ∃ f g, (Store.initial true).Standard ∧
    (Store.initial true).lookup globalScope "member?" = some f ∧
    (Store.initial true).lookup globalScope "distinct?" = some g ∧
    ((evaluate Disk.empty 11).apply Disk.empty [f, .prim .car, .list pairs]).Decides
      (2 * pairs.length + 3 ≤ 11) { store := Store.initial true }
      (∃ y ∈ pairs, (Value.prim .car).equal y = true) ∧
    ((evaluate Disk.empty 11).apply Disk.empty [g, .list pairs]).Decides
      (2 * pairs.length + 3 ≤ 11) { store := Store.initial true }
      (¬ ∃ (i j : Nat) (hi : i < pairs.length) (hj : j < pairs.length),
        i ≠ j ∧ pairs[i].equal pairs[j] = true) := by
  have hw := standard_initial
  -- nothing but this matters of the store, which no step may compute
  generalize Store.initial true = σ at hw ⊢
  obtain ⟨_, hf⟩ := hw.function member (by simp [functions])
  obtain ⟨_, hg⟩ := hw.function distinct (by simp [functions])
  have h := member_distinct_decide Disk.empty 11 (w := ⟨σ, {}, [], []⟩) hw hf hg (.prim .car) pairs
  exact ⟨_, _, hw, hf, hg, h.1, h.2.1⟩

end Prelude

end AmbLisp
