import AmbLisp.Proofs.Eval.InStep
import AmbLisp.Proofs.Search.Overlooks
import AmbLisp.Proofs.Session.Delivery

/-!
# What a request prints

A request does not see what has been printed before (`outcome_run`, `outcome_tryAgain`), so the texts
that it prints are its own (`texts`), and it delivers the same values whatever was printed
(`delivers_congr`). Requests in a row print one page after the other (`printed_valuesFrom`).
-/

namespace AmbLisp.Session

/-- The session, with texts that were printed before all others. -/
def under (texts : List String) (s : Session) : Session :=
  { s with printed := s.printed ++ texts }

/-- The session before anything was printed. -/
def unprinted (s : Session) : Session :=
  { s with printed := [] }

/-- A request comes to the same whatever has been printed before, and leaves it printed. -/
def IgnoresPrinted {α : Type} (request : Request α) : Prop :=
  ∀ texts s, request.outcome (s.under texts) =
    let out := request.outcome s
    (out.1, out.2.under texts)

/-- The texts that a request prints. -/
def texts {α : Type} (request : Request α) (s : Session) : List String :=
  (request.outcome s.unprinted).2.printed.reverse

/-- Passes do not see what has been printed. -/
theorem overlooks_under (cfg : Setting) (expr : Value) (texts : List String) :
    (searchFor cfg expr).Overlooks (under texts) where
  pass t s := by
    have hworld : (s.under texts).passWorld t = (s.passWorld t).under texts := rfl
    rw [pass_eq, pass_eq, hworld, evaluate_under]
    rfl
  note _ _ := rfl
  count _ := rfl

theorem settle_under (expr : Value) (texts : List String)
    (out : Except Fault Value × Option Trail × Session) :
    settle expr (out.1, out.2.1, out.2.2.under texts) =
      ((settle expr out).1, (settle expr out).2.under texts) := rfl

theorem ignoresPrinted_run (cfg : Setting) (expr : Value) : IgnoresPrinted (run cfg expr) := by
  intro texts s
  change settle expr ((searchFor cfg expr).run cfg.passes {} (under texts { s with passes := 0 })) = _
  rw [(overlooks_under cfg expr texts).run, settle_under]
  rfl

theorem ignoresPrinted_tryAgain (cfg : Setting) : IgnoresPrinted (tryAgain cfg) := by
  intro texts s
  change tryAgain cfg (s.under texts) = ((tryAgain cfg s).1, (tryAgain cfg s).2.under texts)
  have hproblem : (s.under texts).problem = s.problem := rfl
  rw [tryAgain, tryAgain, hproblem]
  cases s.problem with
  | none => rfl
  | some p =>
    dsimp only
    rw [(overlooks_under cfg p.expression texts).again, settle_under]

variable {cfg : Setting} {request : Request Value} {s s' : Session}

theorem ignoresPrinted_valuesFrom (h : IgnoresPrinted request) (n : Nat) :
    IgnoresPrinted (valuesFrom cfg request n) := by
  induction n generalizing request with
  | zero => exact fun _ _ => rfl
  | succ n ih =>
    intro texts s
    have hunder : request (s.under texts) = ((request s).1, (request s).2.under texts) := h texts s
    rcases hr : request s with ⟨fault | v, s'⟩ <;> rw [hr] at hunder
    · rw [outcome_valuesFrom_error cfg hr, outcome_valuesFrom_error cfg hunder]
    · rw [outcome_valuesFrom_ok cfg hr, outcome_valuesFrom_ok cfg hunder,
        ih (ignoresPrinted_tryAgain cfg) texts s']

section

variable {α : Type} {request : Request α} (h : IgnoresPrinted request)

include h

theorem IgnoresPrinted.outcome (s : Session) :
    request.outcome s =
      let out := request.outcome s.unprinted
      (out.1, out.2.under s.printed) := h s.printed s.unprinted

theorem IgnoresPrinted.result_congr (hs : s.unprinted = s'.unprinted) :
    (request.outcome s).1 = (request.outcome s').1 := by
  rw [h.outcome s, h.outcome s', hs]

theorem IgnoresPrinted.unprinted_congr (hs : s.unprinted = s'.unprinted) :
    (request.outcome s).2.unprinted = (request.outcome s').2.unprinted := by
  rw [h.outcome s, h.outcome s', hs]
  rfl

/-- A request prints its texts, and nothing that has been printed goes away. -/
theorem IgnoresPrinted.printed (s : Session) :
    (request.outcome s).2.printed = (texts request s).reverse ++ s.printed := by
  rw [h.outcome s, texts, List.reverse_reverse]
  rfl

end

/-! ## Rules -/

section

variable {α β : Type}

theorem ignoresPrinted_pure (a : α) : IgnoresPrinted (pure a : Request α) := fun _ _ => rfl

theorem ignoresPrinted_throw (fault : Fault) : IgnoresPrinted (throw fault : Request α) :=
  fun _ _ => rfl

theorem ignoresPrinted_lift (result : Except Fault α) :
    IgnoresPrinted (liftM result : Request α) := fun _ _ => by cases result <;> rfl

theorem IgnoresPrinted.attempt {request : Request α} (h : IgnoresPrinted request) :
    IgnoresPrinted (Session.attempt request) := by
  intro texts s
  have hunder : request (s.under texts) = ((request s).1, (request s).2.under texts) := h texts s
  rw [outcome_attempt, outcome_attempt, hunder]

theorem IgnoresPrinted.bind {act : Request α} {k : α → Request β} (h : IgnoresPrinted act)
    (hk : ∀ a, IgnoresPrinted (k a)) : IgnoresPrinted (act >>= k) := by
  intro texts s
  rw [ExceptT.outcome_bind, ExceptT.outcome_bind, h texts s]
  rcases act.outcome s with ⟨fault | a, s'⟩
  · rfl
  · exact hk a texts s'

/-- What goes on by something else in the session than what has been printed. -/
theorem ignoresPrinted_get {k : Session → Request α} (hsame : ∀ texts s, k (under texts s) = k s)
    (hk : ∀ s, IgnoresPrinted (k s)) : IgnoresPrinted (get >>= k) := by
  intro texts s
  have hget : ∀ s, (get >>= k).outcome s = (k s).outcome s := fun _ => rfl
  rw [hget, hget, hsame]
  exact hk s texts s

end

theorem ignoresPrinted_readForm (host : Host) (source : String) :
    IgnoresPrinted (readForm source host) := by
  intro texts s
  rw [outcome_readForm, outcome_readForm]

theorem ignoresPrinted_fileProgram (path : String) : IgnoresPrinted (fileProgram cfg path) := by
  intro texts s
  rw [outcome_fileProgram, outcome_fileProgram]
  cases Loader.fileForms cfg.toHost path <;> rfl

/-! ## Requests in a row -/

theorem delivers_congr {vs : List Value} {ending : Option Fault} (h : IgnoresPrinted request)
    (hs : s.unprinted = s'.unprinted) (hdelivers : Delivers (valuesFrom cfg request) s vs ending) :
    Delivers (valuesFrom cfg request) s' vs ending where
  first n hn := by
    rw [← (ignoresPrinted_valuesFrom h n).result_congr hs]
    exact hdelivers.first n hn
  beyond fault hf n hn := by
    rw [← (ignoresPrinted_valuesFrom h n).result_congr hs]
    exact hdelivers.beyond fault hf n hn

/-- What requests in a row print, request by request: so many of them, but none behind a fault. -/
def pages (cfg : Setting) : Nat → Request Value → Session → List (List String)
  | 0, _, _ => []
  | n + 1, request, s =>
    texts request s ::
      if (request s).1.isOk then pages cfg n (tryAgain cfg) (request s).2 else []

theorem pages_ok {v : Value} (h : request s = (.ok v, s')) (n : Nat) :
    pages cfg (n + 1) request s = texts request s :: pages cfg n (tryAgain cfg) s' := by
  rw [pages, h]
  rfl

theorem pages_error {fault : Fault} (h : request s = (.error fault, s')) (n : Nat) :
    pages cfg (n + 1) request s = [texts request s] := by
  rw [pages, h]
  rfl

theorem pages_congr (h : IgnoresPrinted request) (hs : s.unprinted = s'.unprinted) (n : Nat) :
    pages cfg n request s = pages cfg n request s' := by
  induction n generalizing request s s' with
  | zero => rfl
  | succ n ih =>
    have hresult : (request s).1 = (request s').1 := h.result_congr hs
    have hrest : pages cfg n (tryAgain cfg) (request s).2 =
        pages cfg n (tryAgain cfg) (request s').2 :=
      ih (ignoresPrinted_tryAgain cfg) (h.unprinted_congr hs)
    rw [pages, pages, texts, texts, hs, hresult, hrest]

theorem take_pages {m n : Nat} (hmn : m ≤ n) :
    (pages cfg n request s).take m = pages cfg m request s := by
  induction m generalizing n request s with
  | zero => rfl
  | succ m ih =>
    obtain ⟨n, rfl⟩ := Nat.exists_eq_add_one.2 (Nat.lt_of_lt_of_le (Nat.succ_pos m) hmn)
    rw [pages, pages, List.take_succ_cons]
    split
    · rw [ih (Nat.le_of_succ_le_succ hmn)]
    · rw [List.take_nil]

/-- **Requests in a row print their pages.** -/
theorem printed_valuesFrom (h : IgnoresPrinted request) (n : Nat) :
    ((valuesFrom cfg request n).outcome s).2.printed =
      (pages cfg n request s).flatten.reverse ++ s.printed := by
  induction n generalizing request s with
  | zero => rfl
  | succ n ih =>
    have hprinted : (request s).2.printed = (texts request s).reverse ++ s.printed := h.printed s
    rcases hr : request s with ⟨fault | v, s'⟩ <;> rw [hr] at hprinted
    · rw [outcome_valuesFrom_error cfg hr, pages_error hr, List.flatten_singleton]
      exact hprinted
    · have hrest := ih (s := s') (ignoresPrinted_tryAgain cfg)
      rw [outcome_valuesFrom_ok cfg hr, pages_ok hr, List.flatten_cons, List.reverse_append,
        List.append_assoc, ← hprinted]
      exact hrest

theorem length_pages {vs : List Value} {fault : Fault}
    (h : Delivers (valuesFrom cfg request) s vs (some fault)) :
    (pages cfg (vs.length + 1) request s).length = vs.length + 1 := by
  induction vs generalizing request s with
  | nil =>
    have hresult := delivers_nil.1 h
    rw [List.length_nil, pages, hresult]
    rfl
  | cons v vs ih =>
    obtain ⟨hresult, hrest⟩ := delivers_cons.1 h
    rw [List.length_cons, pages, hresult, List.length_cons]
    exact congrArg (· + 1) (ih hrest)

end AmbLisp.Session
