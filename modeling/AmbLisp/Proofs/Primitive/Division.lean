import Mathlib.Algebra.BigOperators.Group.List.Basic
import Mathlib.Algebra.Order.Ring.Int
import AmbLisp.Proofs.Eval.Calm

/-!
# Division and remainder

To divide an integer is to write it as a multiple of the divisor and a remainder that is smaller than
the divisor and lies on the same side of zero as what is divided (`Integer.Divides`). There is exactly
one way to do so, and the quotient of the absolute values with the sign test gives it (`divides_iff`).
It leaves the range of integers in one case only (`inRange_quotient`). `division_laws` says so of the
calls of `/` and `%`.
-/

namespace AmbLisp

/-- `a` is `q` times `d` and a rest that is smaller than `d` and on the same side of zero as `a`. -/
structure Integer.Divides (a d q r : Int) : Prop where
  eq : a = q * d + r
  small : r.natAbs < d.natAbs
  side : r = 0 ∨ r.sign = a.sign

namespace Integer

open Primitive (quotient)

variable {a d q r : Int}

/-! ## The quotient -/

/-- The sign test rounds towards zero. -/
theorem quotient_eq_tdiv (a d : Int) : quotient a d = a.tdiv d := by
  unfold quotient
  cases a with
  | ofNat m =>
    have hm : 0 ≤ Int.ofNat m := Int.natCast_nonneg m
    cases d with
    | ofNat n => exact if_pos (iff_of_true hm (Int.natCast_nonneg n))
    | negSucc n => exact if_neg fun h => absurd (h.1 hm) (Int.not_le.2 (Int.negSucc_lt_zero n))
  | negSucc m =>
    have hm : ¬ 0 ≤ Int.negSucc m := Int.not_le.2 (Int.negSucc_lt_zero m)
    cases d with
    | ofNat n => exact if_neg fun h => hm (h.2 (Int.natCast_nonneg n))
    | negSucc n => exact if_pos (iff_of_false hm (Int.not_le.2 (Int.negSucc_lt_zero n)))

theorem sub_mul_quotient (a d : Int) : a - d * quotient a d = a.tmod d := by
  rw [quotient_eq_tdiv, Int.tmod_def]

theorem natAbs_quotient (a d : Int) : (quotient a d).natAbs = a.natAbs / d.natAbs := by
  rw [quotient_eq_tdiv]
  exact Int.natAbs_tdiv a d

theorem divides_quotient (a : Int) (hd : d ≠ 0) :
    Divides a d (quotient a d) (a - d * quotient a d) := by
  refine ⟨?_, ?_, ?_⟩
  · rw [Int.mul_comm d]
    omega
  · rw [sub_mul_quotient, Int.natAbs_tmod]
    exact Nat.mod_lt _ (Int.natAbs_pos.2 hd)
  · rw [sub_mul_quotient, Int.sign_tmod]
    by_cases hdvd : d ∣ a
    · exact .inl (Int.tmod_eq_zero_of_dvd hdvd)
    · exact .inr (if_neg hdvd)

theorem Divides.ne_zero (h : Divides a d q r) : d ≠ 0 := by
  rintro rfl
  exact Nat.not_lt_zero _ h.small

theorem Divides.nonneg (h : Divides a d q r) (ha : 0 ≤ a) : 0 ≤ r := by
  rcases h.side with rfl | hsign
  · exact Int.le_refl 0
  · rw [← Int.sign_nonneg_iff, hsign]
    exact Int.sign_nonneg_iff.2 ha

theorem Divides.nonpos (h : Divides a d q r) (ha : a ≤ 0) : r ≤ 0 := by
  rcases h.side with rfl | hsign
  · exact Int.le_refl 0
  · rw [← Int.sign_nonpos_iff, hsign]
    exact Int.sign_nonpos_iff.2 ha

/-- There is only one way to divide. -/
theorem Divides.unique (h : Divides a d q r) : a.tdiv d = q ∧ a.tmod d = r := by
  have heq : r + d * q = a := by rw [h.eq, Int.mul_comm d, Int.add_comm]
  have hsmall := h.small
  rcases Int.le_total 0 a with ha | ha
  · have hr := h.nonneg ha
    exact (Int.tdiv_tmod_unique ha h.ne_zero).2 ⟨heq, hr, by omega⟩
  · have hr := h.nonpos ha
    exact (Int.tdiv_tmod_unique' ha h.ne_zero).2 ⟨heq, by omega, hr⟩

/-- **The one way to divide**, by any integer but zero. -/
theorem divides_iff (a : Int) (hd : d ≠ 0) (q r : Int) :
    Divides a d q r ↔ q = quotient a d ∧ r = a - d * quotient a d := by
  constructor
  · intro h
    rw [sub_mul_quotient, quotient_eq_tdiv, h.unique.1, h.unique.2]
    exact ⟨rfl, rfl⟩
  · rintro ⟨rfl, rfl⟩
    exact divides_quotient a hd

/-- The quotient of an integer in range is out of range in one case only. -/
theorem inRange_quotient (ha : inRange a = true) (hd : d ≠ 0) :
    inRange (quotient a d) = true ↔ ¬ (a = least ∧ d = -1) := by
  have habs := natAbs_quotient a d
  have hpos : 0 < d.natAbs := Int.natAbs_pos.2 hd
  simp only [inRange, Bool.and_eq_true, decide_eq_true_eq] at ha ⊢
  by_cases hone : d.natAbs = 1
  · have hcases : d = 1 ∨ d = -1 := by omega
    rcases hcases with rfl | rfl
    · rw [quotient_eq_tdiv, Int.tdiv_one]
      exact iff_of_true ha fun h => absurd h.2 (by decide)
    · rw [quotient_eq_tdiv, Int.tdiv_neg, Int.tdiv_one]
      unfold least greatest at *
      omega
  · -- the absolute value is halved at least
    have hhalf : a.natAbs / d.natAbs ≤ a.natAbs / 2 := Nat.div_le_div_left (by omega) (by decide)
    unfold least greatest at *
    omega

/-- A rest is no larger than what is divided. -/
theorem inRange_rest (ha : inRange a = true) (hd : d ≠ 0) :
    inRange (a - d * quotient a d) = true := by
  have hdivides := divides_quotient a hd
  have hle : (a - d * quotient a d).natAbs ≤ a.natAbs := by
    rw [sub_mul_quotient, Int.natAbs_tmod]
    exact Nat.mod_le _ _
  simp only [inRange, Bool.and_eq_true, decide_eq_true_eq] at ha ⊢
  unfold least greatest at *
  rcases Int.le_total 0 a with hside | hside
  · have hr := hdivides.nonneg hside
    omega
  · have hr := hdivides.nonpos hside
    omega

end Integer

namespace Primitive

open Integer

/-! ## The primitives -/

theorem mapM_int? (xs : List Int) : (xs.map Value.int).mapM Value.int? = some xs := by
  induction xs with
  | nil => rfl
  | cons x xs ih =>
    rw [List.map_cons, List.mapM_cons, ih]
    rfl

theorem total_eq_sum (xs : List Int) : total xs = xs.sum :=
  List.sum_eq_foldl.symm

theorem apply_div (a : Int) {bs : List Int} (hbs : bs ≠ []) :
    div.apply ((a :: bs).map .int) =
      if bs.sum = 0 then .error .divisionByZero else bounded (quotient a bs.sum) := by
  obtain ⟨b, bs, rfl⟩ := List.exists_cons_of_ne_nil hbs
  have hcount : div.arity.admits ((a :: b :: bs).map Value.int).length = true := by
    simp [arity, Arity.admits]
  rw [apply, onInts, mapM_int?]
  dsimp only
  rw [checked, if_pos hcount, List.tail_cons, total_eq_sum, List.headD_cons]

theorem apply_mod (a : Int) {b : Int} (hb : b ≠ 0) :
    mod.apply [.int a, .int b] = bounded (a - b * quotient a b) := by
  change (if b = 0 then Except.error Fault.divisionByZero else bounded (a - b * quotient a b)) = _
  rw [if_neg hb]

theorem bounded_of_inRange {i : Int} (h : inRange i = true) : bounded i = .ok (.int i) :=
  if_pos h

/-- What there is to read of a division. -/
theorem apply_div_message {a : Int} (ha : inRange a = true) {bs : List Int} (hbs : bs ≠ []) :
    (div.apply ((a :: bs).map .int)).mapError Fault.message =
      if bs.sum = 0 then .error "cant divide by zero"
      else if a = least ∧ bs.sum = -1 then .error "integer overflow"
      else .ok (.int (quotient a bs.sum)) := by
  rw [apply_div a hbs]
  by_cases hd : bs.sum = 0
  · rw [if_pos hd, if_pos hd]
    rfl
  · rw [if_neg hd, if_neg hd]
    by_cases hleast : a = least ∧ bs.sum = -1
    · rw [bounded, if_neg fun h => (inRange_quotient ha hd).1 h hleast, if_pos hleast]
      rfl
    · rw [bounded_of_inRange ((inRange_quotient ha hd).2 hleast), if_neg hleast]
      rfl

theorem apply_mod_message {a : Int} (ha : inRange a = true) {b : Int} (hb : b ≠ 0) :
    (mod.apply [.int a, .int b]).mapError Fault.message = .ok (.int (a - b * quotient a b)) := by
  rw [apply_mod a hb, bounded_of_inRange (inRange_rest ha hb)]
  rfl

end Primitive

/-! ## Calls with integers -/

section Calls

open Primitive Integer

variable {host : Host} {n : Nat} {e : ScopeId} {w : World}

theorem outcome_all_ints (host : Host) (n : Nat) (e : ScopeId) (w : World) (xs : List Int) :
    ((evaluate host (n + 1)).all e (xs.map .int)).outcome w = (.ok (xs.map .int), w) := by
  induction xs with
  | nil => rfl
  | cons x xs ih =>
    have hx : (evaluate host (n + 1) (.int x) e).outcome w = (.ok (.int x), w) := rfl
    rw [List.map_cons, Evaluator.all, ExceptT.outcome_bind, hx]
    dsimp only
    rw [ExceptT.outcome_bind, ih]
    rfl

/-- A call of a primitive with integers comes to what the primitive computes. -/
theorem outcome_call_ints (host : Host) (p : Primitive) (hn : 2 ≤ n)
    (hl : w.store.lookup e p.name = some (.prim p)) (xs : List Int)
    (hp : p.printed (xs.map .int) = []) :
    (evaluate host n (.call p.name (xs.map .int)) e).outcome w = (p.apply (xs.map .int), w) := by
  obtain ⟨n, rfl⟩ : ∃ k, n = k + 2 := ⟨n - 2, by omega⟩
  have hhead : (evaluate host (n + 1) (.sym p.name) e).outcome w = (.ok (.prim p), w) := by
    change (Run.lookup e p.name).outcome w = _
    rw [Run.outcome_lookup, hl]
  have hall : ((evaluate host (n + 1)).all e (.sym p.name :: xs.map .int)).outcome w =
      (.ok (.prim p :: xs.map .int), w) := by
    rw [Evaluator.all, ExceptT.outcome_bind, hhead]
    dsimp only
    rw [ExceptT.outcome_bind, outcome_all_ints]
    rfl
  rw [evaluate, step_call p.not_keyword, ExceptT.outcome_bind, hall]
  dsimp only
  rw [Evaluator.apply, call_of_printed_nil hp]
  cases p.apply (xs.map .int) with
  | error fault => rfl
  | ok v =>
    dsimp only
    rw [ExceptT.outcome_bind, Run.outcome_printLines, hp]
    rfl

/-- **Division and remainder.** To divide an integer in range by others is to divide it by their sum,
which may be any integer: there is no value just if the sum is zero or if the smallest integer is
divided by minus one, and otherwise the value is the quotient of the one way to divide. The order of the
divisors does not matter. A remainder is that of the one way to divide by any integer but zero, and it
is always in range. -/
theorem division_laws {a : Int} (hn : 2 ≤ n) (hdiv : w.store.lookup e "/" = some (.prim .div))
    (hmod : w.store.lookup e "%" = some (.prim .mod)) (ha : inRange a = true) :
    let answer (name : String) (xs : List Int) : Except String Value :=
      ((evaluate host n (.call name (xs.map .int)) e).outcome w).1.mapError Fault.message
    (∀ bs : List Int, bs ≠ [] →
      (answer "/" (a :: bs) = .error "cant divide by zero" ↔ bs.sum = 0) ∧
      (answer "/" (a :: bs) = .error "integer overflow" ↔ a = least ∧ bs.sum = -1) ∧
      (bs.sum ≠ 0 → ¬ (a = least ∧ bs.sum = -1) → ∃ q r,
        (∀ q' r', Divides a bs.sum q' r' ↔ q' = q ∧ r' = r) ∧ answer "/" (a :: bs) = .ok (.int q)) ∧
      ∀ bs' : List Int, bs'.Perm bs → answer "/" (a :: bs') = answer "/" (a :: bs)) ∧
    ∀ b : Int, b ≠ 0 → ∃ q r,
      (∀ q' r', Divides a b q' r' ↔ q' = q ∧ r' = r) ∧ answer "%" [a, b] = .ok (.int r) := by
  intro answer
  have hquotient : ∀ bs : List Int, bs ≠ [] → answer "/" (a :: bs) =
      if bs.sum = 0 then .error "cant divide by zero"
      else if a = least ∧ bs.sum = -1 then .error "integer overflow"
      else .ok (.int (quotient a bs.sum)) := by
    intro bs hbs
    have hcall := outcome_call_ints host .div hn hdiv (a :: bs) rfl
    rw [← apply_div_message ha hbs]
    exact congrArg (fun out => out.1.mapError Fault.message) hcall
  refine ⟨fun bs hbs => ?_, fun b hb => ?_⟩
  · have hanswer := hquotient bs hbs
    refine ⟨?_, ?_, fun hd hleast => ?_, fun bs' hperm => ?_⟩
    · rw [hanswer]
      by_cases hd : bs.sum = 0
      · exact iff_of_true (if_pos hd) hd
      · rw [if_neg hd]
        refine iff_of_false ?_ hd
        split <;> simp
    · rw [hanswer]
      by_cases hd : bs.sum = 0
      · rw [if_pos hd, hd]
        exact iff_of_false (by simp) fun h => absurd h.2 (by decide)
      · rw [if_neg hd]
        by_cases hleast : a = least ∧ bs.sum = -1
        · exact iff_of_true (if_pos hleast) hleast
        · rw [if_neg hleast]
          exact iff_of_false nofun hleast
    · rw [if_neg hd, if_neg hleast] at hanswer
      exact ⟨_, _, divides_iff a hd, hanswer⟩
    · have hbs' : bs' ≠ [] := fun h => hbs (List.nil_perm.1 (h ▸ hperm))
      rw [hanswer, hquotient bs' hbs', hperm.sum_eq]
  · refine ⟨_, _, divides_iff a hb, ?_⟩
    have hcall := outcome_call_ints host .mod hn hmod [a, b] rfl
    rw [← apply_mod_message ha hb]
    exact congrArg (fun out => out.1.mapError Fault.message) hcall

/-- The smallest integer divided by `2` and `-3`, whose sum is minus one, by `-3` and `-4`, and by minus
one alone. -/
theorem division_laws_least :
    let w : World := { store := Store.primitives }
    let answer (name : String) (xs : List Int) : Except String Value :=
      ((evaluate Disk.empty 2 (.call name (xs.map .int)) 0).outcome w).1.mapError Fault.message
    answer "/" [least, 2, -3] = .error "integer overflow" ∧
      (∃ q r, Divides least (-7) q r ∧ answer "/" [least, -3, -4] = .ok (.int q)) ∧
      ∃ q r, Divides least (-1) q r ∧ answer "%" [least, -1] = .ok (.int r) := by
  intro w answer
  have hdiv : w.store.lookup 0 "/" = some (.prim .div) := Store.lookup_primitives .div
  have hmod : w.store.lookup 0 "%" = some (.prim .mod) := Store.lookup_primitives .mod
  obtain ⟨hquotient, hrest⟩ :=
    @division_laws Disk.empty 2 0 w least (by decide) hdiv hmod rfl
  obtain ⟨-, hoverflow, -, -⟩ := hquotient [2, -3] (by simp)
  obtain ⟨-, -, hvalue, -⟩ := hquotient [-3, -4] (by simp)
  obtain ⟨q, r, hq, hanswer⟩ := hvalue (by decide) (by decide)
  obtain ⟨q', r', hq', hanswer'⟩ := hrest (-1) (by decide)
  exact ⟨hoverflow.2 ⟨rfl, by decide⟩, ⟨q, r, (hq q r).2 ⟨rfl, rfl⟩, hanswer⟩,
    q', r', (hq' q' r').2 ⟨rfl, rfl⟩, hanswer'⟩

end Calls

end AmbLisp
