import AmbLisp.Proofs.Search.Enumeration
import AmbLisp.Proofs.Search.Overlooks
import AmbLisp.Proofs.Session.Pass

/-!
# Solving an expression

To solve an expression is to run it and then to try again. So a search that enumerates the leaves of
a tree answers with the values of the first leaves, or with the first fault among them:
`Session.outcome_valuesFrom`.
-/

namespace AmbLisp

open DecisionTree

namespace Session

variable {cfg : Setting} {expr : Value}

theorem counts_searchFor (cfg : Setting) (expr : Value) : (searchFor cfg expr).Counts :=
  ⟨fun _ _ => rfl, fun _ _ => rfl⟩

/-- The session with another current problem. -/
def withProblem (s : Session) (problem : Option Problem) : Session :=
  { s with problem }

/-- Passes do not see the current problem. -/
theorem overlooks_problem (cfg : Setting) (expr : Value) (problem : Option Problem) :
    (searchFor cfg expr).Overlooks fun s => s.withProblem problem :=
  ⟨fun _ _ => rfl, fun _ _ => rfl, fun _ => rfl⟩

/-- To try again, from the session that a request with a value has left behind. -/
theorem tryAgain_settle {v : Value} {t : Trail} {s : Session} :
    tryAgain cfg (settle expr (.ok v, some t, s)).2 =
      settle expr ((searchFor cfg expr).again cfg.passes t s) := by
  change settle expr ((searchFor cfg expr).again cfg.passes t
    (s.withProblem (some { expression := expr, trail := t }))) = _
  rw [(overlooks_problem cfg expr _).again]
  rfl

/-- **Requests in a row answer with the values of the first leaves**, or with the first fault among
them, if the search yields what there is to answer for the leaves. -/
theorem outcome_valuesFrom {out : Except Fault Value × Option Trail × Session}
    {vs : List (List Nat × Value)} {fault : Fault} {s' : Session}
    (hy : (searchFor cfg expr).Yields cfg.passes out vs fault s') {β : Type} (view : Value → β)
    {ls : List (Leaf β)} (hvs : vs.map (fun v => (v.1, view v.2)) = (answers ls).1)
    (hfault : fault = (answers ls).2)
    (hls : ∀ path fault, (path, .error fault) ∈ ls → fault.IsOrdinary) {request : Request Value}
    {s : Session} (hrequest : request s = settle expr out) (n : Nat) :
    ((valuesFrom cfg request n).outcome s).1.map (·.map view) = (ls.take n).mapM (·.2) := by
  induction hy generalizing ls request s n with
  | closed fault s' =>
    cases n with
    | zero => rfl
    | succ n =>
      rw [outcome_valuesFrom_succ, hrequest]
      rcases ls with _ | ⟨⟨path, f | b⟩, ls⟩
      · obtain rfl : fault = .noMoreValues := hfault
        rfl
      · obtain rfl : fault = f := hfault
        have hf := (hls path fault List.mem_cons_self).2
        cases fault <;> first | exact absurd rfl hf | rfl
      · cases hvs
  | @value a t s₁ s' path rest fault hpath hy ih =>
    rcases ls with _ | ⟨⟨path', f | b⟩, ls⟩
    · cases hvs
    · cases hvs
    · obtain ⟨hhead, hrest⟩ := List.cons.inj hvs
      obtain ⟨rfl, rfl⟩ := Prod.mk.inj hhead
      cases n with
      | zero => rfl
      | succ n =>
        have hok : request s = (.ok a, (settle expr (.ok a, some t, s₁)).2) := hrequest
        have ih : ((valuesFrom cfg (tryAgain cfg) n).outcome
            (settle expr (.ok a, some t, s₁)).2).1.map (·.map view) = (ls.take n).mapM (·.2) :=
          ih hrest hfault (fun p f hf => hls p f (List.mem_cons_of_mem _ hf)) tryAgain_settle n
        rw [outcome_valuesFrom_ok cfg hok, List.take_succ_cons, List.mapM_cons, ← ih]
        rcases (valuesFrom cfg (tryAgain cfg) n).outcome (settle expr (.ok a, some t, s₁)).2 with
          ⟨fault | vs, s₂⟩ <;> rfl

/-- Who asks for more values than a search yields leaves no problem open. -/
theorem problem_valuesFrom {out : Except Fault Value × Option Trail × Session}
    {vs : List (List Nat × Value)} {fault : Fault} {s' : Session}
    (hy : (searchFor cfg expr).Yields cfg.passes out vs fault s') {request : Request Value}
    {s : Session} (hrequest : request s = settle expr out) {n : Nat} (hn : vs.length < n) :
    ((valuesFrom cfg request n).outcome s).2.problem = none := by
  obtain ⟨n, rfl⟩ := Nat.exists_eq_add_one.2 (Nat.lt_of_le_of_lt (Nat.zero_le _) hn)
  induction hy generalizing request s n with
  | closed fault s' =>
    have herror : request s = (.error fault, (settle expr (.error fault, none, s')).2) := hrequest
    rw [outcome_valuesFrom_error cfg herror]
    rfl
  | @value a t s₁ s' path rest fault hpath _ ih =>
    have hok : request s = (.ok a, (settle expr (.ok a, some t, s₁)).2) := hrequest
    have hrest : rest.length < n := Nat.lt_of_succ_lt_succ hn
    obtain ⟨n, rfl⟩ := Nat.exists_eq_add_one.2 (Nat.lt_of_le_of_lt (Nat.zero_le _) hrest)
    rw [outcome_valuesFrom_ok cfg hok]
    exact ih tryAgain_settle n hrest

/-- To solve for all values is to solve for more values than there may be, unless there are so
many. -/
theorem outcome_solveAll (s : Session)
    (h : ((solve cfg expr (cfg.passes + 1)).outcome s).2.problem = none) :
    (solveAll cfg expr).outcome s = (solve cfg expr (cfg.passes + 1)).outcome s := by
  rw [solveAll, ExceptT.outcome_bind]
  rcases hsolve : (solve cfg expr (cfg.passes + 1)).outcome s with ⟨fault | vs, s'⟩
  · rfl
  · rw [hsolve] at h
    dsimp only at h ⊢
    change ((if s'.problem.isSome then _ else _ : Request (List Value)).outcome s') = _
    rw [h]
    rfl

end Session

end AmbLisp
