import AmbLisp.Proofs.Session.Atoms

/-!
# Requests in a row

`Delivers` tells what a way to ask for values, such as `solve`, comes to: values, and then a fault if
there are no more. Behind a single request a problem is open just if the request had a value
(`problem_run`, `problem_tryAgain`). So single requests in a row have the same values one by one, then
the same fault, and from then on there is no problem any more (`attempts_eq`).
-/

namespace AmbLisp.Session

/-- What those get who ask for more values than there are. -/
def closed (vs : List Value) (fault : Fault) : Except Fault (List Value) :=
  if fault = .noMoreValues then .ok vs else .error fault

/-- The first values that a session has for those who ask for at most so many of them, and the fault
behind them if these are all there are. -/
structure Delivers (values : Nat → Request (List Value)) (s : Session) (vs : List Value)
    (ending : Option Fault) : Prop where
  first : ∀ n, n ≤ vs.length → ((values n).outcome s).1 = .ok (vs.take n)
  beyond : ∀ fault, ending = some fault → ∀ n, vs.length < n →
    ((values n).outcome s).1 = closed vs fault

theorem closed_cons (v : Value) (vs : List Value) (fault : Fault) :
    closed (v :: vs) fault = (closed vs fault).map (v :: ·) := by
  unfold closed
  split <;> rfl

theorem closed_nil_ne (fault : Fault) (v : Value) (vs : List Value) :
    closed [] fault ≠ .ok (v :: vs) := by
  unfold closed
  split <;> exact nofun

theorem closed_nil_injective {fault fault' : Fault} (h : closed [] fault = closed [] fault') :
    fault = fault' := by
  unfold closed at h
  by_cases hf : fault = .noMoreValues <;> by_cases hf' : fault' = .noMoreValues
  · rw [hf, hf']
  · rw [if_pos hf, if_neg hf'] at h
    cases h
  · rw [if_neg hf, if_pos hf'] at h
    cases h
  · rw [if_neg hf, if_neg hf'] at h
    exact Except.error.inj h

theorem map_cons_injective {v : Value} {r r' : Except Fault (List Value)}
    (h : r.map (v :: ·) = r'.map (v :: ·)) : r = r' := by
  cases r <;> cases r' <;> cases h <;> rfl

variable {cfg : Setting} {request : Request Value} {s s' : Session} {v : Value} {vs : List Value}
  {ending : Option Fault} {fault : Fault}

/-- Those who ask for no value get none. -/
theorem delivers_none (cfg : Setting) (request : Request Value) (s : Session) :
    Delivers (valuesFrom cfg request) s [] none := by
  refine ⟨fun n hn => ?_, nofun⟩
  obtain rfl : n = 0 := Nat.le_zero.1 hn
  rfl

/-- There are no values just if the first request has none. -/
theorem delivers_nil : Delivers (valuesFrom cfg request) s [] (some fault) ↔
    (request s).1 = .error fault := by
  rcases hr : request s with ⟨f | v, s'⟩
  · have hclosed : ∀ n, ((valuesFrom cfg request (n + 1)).outcome s).1 = closed [] f := by
      intro n
      rw [outcome_valuesFrom_error cfg hr, closed]
    constructor
    · intro h
      have hbeyond := h.beyond fault rfl 1 Nat.one_pos
      rw [hclosed] at hbeyond
      exact congrArg Except.error (closed_nil_injective hbeyond)
    · intro h
      obtain rfl := Except.error.inj h
      refine ⟨fun n hn => ?_, fun fault hf n hn => ?_⟩
      · obtain rfl : n = 0 := Nat.le_zero.1 hn
        rfl
      · obtain rfl := Option.some.inj hf
        obtain ⟨n, rfl⟩ := Nat.exists_eq_add_one.2 hn
        exact hclosed n
  · constructor
    · intro h
      have hbeyond := h.beyond fault rfl 1 Nat.one_pos
      rw [outcome_valuesFrom_ok cfg hr] at hbeyond
      exact absurd hbeyond.symm (closed_nil_ne fault v [])
    · intro h
      cases h

/-- The first value is that of the first request, and the others are those behind it. -/
theorem delivers_cons : Delivers (valuesFrom cfg request) s (v :: vs) ending ↔
    (request s).1 = .ok v ∧ Delivers (valuesFrom cfg (tryAgain cfg)) (request s).2 vs ending := by
  rcases hr : request s with ⟨f | u, s'⟩
  · refine ⟨fun h => ?_, fun h => by cases h.1⟩
    have hfirst := h.first 1 (Nat.succ_le_succ (Nat.zero_le _))
    rw [outcome_valuesFrom_error cfg hr, ← closed] at hfirst
    exact absurd hfirst (closed_nil_ne f v _)
  · have hrest : ∀ n, ((valuesFrom cfg request (n + 1)).outcome s).1 =
        ((valuesFrom cfg (tryAgain cfg) n).outcome s').1.map (u :: ·) := by
      intro n
      rw [outcome_valuesFrom_ok cfg hr]
    constructor
    · intro h
      have hfirst := h.first 1 (Nat.succ_le_succ (Nat.zero_le _))
      rw [hrest] at hfirst
      obtain rfl : u = v := (List.cons.inj (Except.ok.inj hfirst)).1
      refine ⟨rfl, fun n hn => ?_, fun fault hf n hn => ?_⟩
      · have hfirst := h.first (n + 1) (Nat.succ_le_succ hn)
        rw [hrest] at hfirst
        exact map_cons_injective (hfirst : _ = Except.map (u :: ·) (.ok (vs.take n)))
      · have hbeyond := h.beyond fault hf (n + 1) (Nat.succ_lt_succ hn)
        rw [hrest, closed_cons] at hbeyond
        exact map_cons_injective hbeyond
    · rintro ⟨hv, h⟩
      obtain rfl := Except.ok.inj hv
      refine ⟨fun n hn => ?_, fun fault hf n hn => ?_⟩
      · cases n with
        | zero => rfl
        | succ n =>
          rw [hrest, h.first n (Nat.le_of_succ_le_succ hn)]
          rfl
      · obtain ⟨n, rfl⟩ := Nat.exists_eq_add_one.2 (Nat.lt_of_le_of_lt (Nat.zero_le _) hn)
        rw [hrest, h.beyond fault hf n (Nat.lt_of_succ_lt_succ hn), closed_cons]

/-! ## One by one -/

/-- A problem is open behind a request just if the request has a value. -/
theorem problem_settle {expr : Value} {out : Except Fault Value × Option Trail × Session}
    (h : out.2.1.isSome = out.1.isOk) :
    (settle expr out).2.problem.isSome = (settle expr out).1.isOk := by
  change (out.2.1.map _).isSome = _
  rw [Option.isSome_map]
  exact h

theorem problem_run (cfg : Setting) (expr : Value) (s : Session) :
    (run cfg expr s).2.problem.isSome = (run cfg expr s).1.isOk :=
  problem_settle (Search.isSome_run _ _ _ _)

theorem problem_tryAgain (cfg : Setting) (s : Session) :
    (tryAgain cfg s).2.problem.isSome = (tryAgain cfg s).1.isOk := by
  unfold tryAgain
  split
  · next hp =>
    change s.problem.isSome = _
    rw [hp]
    rfl
  · exact problem_settle (Search.isSome_again _ _ _ _)

theorem tryAgain_of_none (h : s.problem = none) : tryAgain cfg s = (.error .noProblem, s) := by
  simp only [tryAgain, h]

/-- The results of so many requests in a row, each with whether a problem is open behind it. -/
def attempts (cfg : Setting) : Nat → Request Value → Session → List (Except Fault Value × Bool)
  | 0, _, _ => []
  | n + 1, request, s =>
    ((request s).1, (request s).2.problem.isSome) :: attempts cfg n (tryAgain cfg) (request s).2

theorem attempts_of_none (h : s.problem = none) (n : Nat) :
    attempts cfg n (tryAgain cfg) s = List.replicate n (.error .noProblem, false) := by
  induction n with
  | zero => rfl
  | succ n ih => rw [attempts, tryAgain_of_none h, ih, h, List.replicate_succ, Option.isSome_none]

/-- What single requests come to behind the last value. -/
def afterwards : Option Fault → Nat → List (Except Fault Value × Bool)
  | none, _ => []
  | some fault, n => (.error fault, false) :: List.replicate n (.error .noProblem, false)

/-- **Single requests in a row** have the values that are delivered, and then the fault behind them;
from then on there is no problem. -/
theorem attempts_eq (cfg : Setting) (n : Nat) (h : (request s).2.problem.isSome = (request s).1.isOk)
    (hends : ∀ fault, (request s).1 = .error fault → fault.EndsSearch) :
    ∃ vs ending m, Delivers (valuesFrom cfg request) s vs ending ∧
      (∀ fault, ending = some fault → fault.EndsSearch) ∧
      attempts cfg n request s = vs.map (fun v => (.ok v, true)) ++ afterwards ending m := by
  induction n generalizing request s with
  | zero => exact ⟨[], none, 0, delivers_none cfg request s, nofun, rfl⟩
  | succ n ih =>
    rcases hr : request s with ⟨fault | v, s'⟩ <;> rw [hr] at h hends
    · have hnone : s'.problem = none := Option.isNone_iff_eq_none.1 (Option.isSome_eq_false_iff.1 h)
      refine ⟨[], some fault, n, delivers_nil.2 (by rw [hr]), fun f hf => ?_, ?_⟩
      · exact hends f (congrArg Except.error (Option.some.inj hf))
      · rw [attempts, hr, attempts_of_none hnone, h]
        rfl
    · obtain ⟨p, hp⟩ := Option.isSome_iff_exists.1 h
      obtain ⟨vs, ending, m, hdelivers, hending, hrest⟩ :=
        ih (problem_tryAgain cfg s') fun _ => endsSearch_tryAgain hp
      refine ⟨v :: vs, ending, m, delivers_cons.2 ⟨by rw [hr], by rw [hr]; exact hdelivers⟩,
        hending, ?_⟩
      rw [attempts, hr, hrest, h]
      rfl

end AmbLisp.Session
