import AmbLisp.Proofs.Eval.Outcome
import AmbLisp.Proofs.Search.Reaches
import AmbLisp.Session

/-!
# The steps of a session

`pass_eq` says what a pass of a session's search comes to: one evaluation in the global scope, in
the world that `passWorld` makes of a session and a trail. `retry_eq` says the same of going back,
and `outcome_valuesFrom_succ` of requests in a row. What a search keeps of the trail and the store
follows from what one evaluation keeps (`keeps_of_pass`). To read a source text leaves the session
alone (`outcome_readForm`, `outcome_readProgram`, `outcome_fileProgram`).
-/

namespace AmbLisp.Session

variable (cfg : Setting) (expr : Value)

/-- The world in which a pass along a trail begins. -/
def passWorld (t : Trail) (s : Session) : World :=
  { store := s.store, trail := t, printed := s.printed,
    journal := .pass (s.passes + 1) t.totalDepth :: s.journal }

/-- The session behind a pass. -/
def behind (s : Session) (w : World) : Session :=
  { s with store := w.store, passes := s.passes + 1, printed := w.printed, journal := w.journal }

theorem pass_eq (t : Trail) (s : Session) :
    (searchFor cfg expr).pass t s =
      let out := (evaluate cfg.toHost cfg.depth expr Store.globalScope).outcome (s.passWorld t)
      (out.1, out.2.trail, s.behind out.2) := rfl

theorem retry_eq {t t' : Trail} {s s' : Session} {more : Bool}
    (h : (searchFor cfg expr).retry t s = (more, t', s')) :
    t.retry = (more, t') ∧ s'.store = s.store := by
  rw [Search.retry] at h
  rcases hr : t.retry with ⟨more₁, t₁⟩
  rw [hr] at h
  cases h
  refine ⟨rfl, ?_⟩
  cases t.retryEvent? <;> rfl

/-- What passes keep of the trail and the store, and going back of the trail, a search keeps. -/
theorem keeps_of_pass {I : Trail → Store → Prop} {V : Value → Store → Prop}
    (hpass : ∀ t (s : Session), I t s.store →
      let out := (evaluate cfg.toHost cfg.depth expr Store.globalScope).outcome (s.passWorld t)
      I out.2.trail out.2.store ∧ ∀ v, out.1 = .ok v → V v out.2.store)
    (hretry : ∀ t τ, I t τ → I t.retry.2 τ) :
    (searchFor cfg expr).Keeps (fun t s => I t s.store) fun v s => V v s.store where
  pass {t s} h := by
    rw [pass_eq]
    exact hpass t s h
  retry {t s} h := by
    rcases hr : (searchFor cfg expr).retry t s with ⟨more, t', s'⟩
    obtain ⟨ht, hs⟩ := retry_eq cfg expr hr
    have hback := hretry t s.store h
    rw [ht] at hback
    rw [hs]
    exact hback
  note h := h

theorem outcome_attempt {α : Type} (request : Request α) (s : Session) :
    (attempt request).outcome s = (.ok (request s).1, (request s).2) := rfl

theorem outcome_valuesFrom_succ (request : Request Value) (n : Nat) (s : Session) :
    (valuesFrom cfg request (n + 1)).outcome s =
      match request s with
      | (.ok v, s) =>
        match (valuesFrom cfg (tryAgain cfg) n).outcome s with
        | (.ok vs, s) => (.ok (v :: vs), s)
        | (.error fault, s) => (.error fault, s)
      | (.error .noMoreValues, s) => (.ok [], s)
      | (.error fault, s) => (.error fault, s) := by
  rw [valuesFrom, ExceptT.outcome_bind, outcome_attempt]
  rcases request s with ⟨fault | v, s⟩
  · cases fault <;> rfl
  · change (valuesFrom cfg (tryAgain cfg) n >>= fun vs => pure (v :: vs)).outcome s = _
    rw [ExceptT.outcome_bind]
    dsimp only
    rcases (valuesFrom cfg (tryAgain cfg) n).outcome s with ⟨fault | vs, s⟩ <;> rfl

theorem outcome_valuesFrom_ok {request : Request Value} {s s' : Session} {v : Value}
    (h : request s = (.ok v, s')) (n : Nat) :
    (valuesFrom cfg request (n + 1)).outcome s =
      let out := (valuesFrom cfg (tryAgain cfg) n).outcome s'
      (out.1.map (v :: ·), out.2) := by
  rw [outcome_valuesFrom_succ, h]
  dsimp only
  rcases (valuesFrom cfg (tryAgain cfg) n).outcome s' with ⟨fault | vs, s⟩ <;> rfl

theorem outcome_valuesFrom_error {request : Request Value} {s s' : Session} {fault : Fault}
    (h : request s = (.error fault, s')) (n : Nat) :
    (valuesFrom cfg request (n + 1)).outcome s =
      (if fault = .noMoreValues then .ok [] else .error fault, s') := by
  rw [outcome_valuesFrom_succ, h]
  by_cases hf : fault = .noMoreValues
  · subst hf
    rfl
  · rw [if_neg hf]
    cases fault <;> first | exact absurd rfl hf | rfl

theorem exists_ok_of_print {ε : Type} {result : Except ε Value} {text : String}
    (h : (result.map Value.print).toOption = some text) : ∃ v, result = .ok v ∧ v.print = text := by
  cases result with
  | error fault => cases h
  | ok v => exact ⟨v, rfl, Option.some.inj h⟩

theorem exists_error_of_kind {α : Type} {result : Except Fault α} {kind : Fault.Kind}
    (h : (match result with | .ok _ => none | .error fault => some fault.kind) = some kind) :
    ∃ fault, result = .error fault ∧ fault.kind = kind := by
  cases result with
  | error fault => exact ⟨fault, rfl, Option.some.inj h⟩
  | ok a => cases h

/-! ## Source texts -/

theorem outcome_readForm (host : Host) (source : String) (s : Session) :
    (readForm source host).outcome s = (Loader.form host source, s) := rfl

theorem outcome_readProgram (host : Host) (source : String) (s : Session) :
    (readProgram host source).outcome s =
      match Loader.programForms host source with
      | .ok [expr] => (.ok expr, s)
      | .ok forms => (.ok (.sequence forms), s)
      | .error fault => (.error fault, s) := by
  unfold readProgram
  rcases Loader.programForms host source with fault | _ | ⟨expr, _ | ⟨expr', forms⟩⟩ <;> rfl

theorem outcome_fileProgram (path : String) (s : Session) :
    (fileProgram cfg path).outcome s =
      match Loader.fileForms cfg.toHost path with
      | .ok forms => (.ok (.sequence forms), s)
      | .error fault => (.error fault, s) := by
  unfold fileProgram
  cases Loader.fileForms cfg.toHost path <;> rfl

end AmbLisp.Session
