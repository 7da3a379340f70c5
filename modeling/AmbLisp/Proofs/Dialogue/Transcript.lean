import AmbLisp.Proofs.Dialogue.Answer

/-!
# Lines one after the other

A transcript lists the exchanges of a dialogue. Some lines leave the session as it is, so they can be
left out of a transcript and all other exchanges stay the same (`transcript_of_omits`). An expression
and requests for more of its values are answered with the values that it is solved for, then with the
fault behind them, and then with the news that there is no problem (`answers_of_form`).
-/

namespace AmbLisp.Dialogue

open Session

/-- A line that is entered, its answer, and the sessions around it. -/
structure Exchange where
  before : Session
  line : String
  answer : Except Fault (Option String)
  after : Session

/-- What is answered to lines that are entered one after the other. -/
def transcript (cfg : Setting) : List String → Session → List Exchange
  | [], _ => []
  | line :: lines, s =>
    let out := (answer cfg line).outcome s
    ⟨s, line, out.1, out.2⟩ :: transcript cfg lines out.2

variable {cfg : Setting} {s : Session} {line : String}

/-! ## Idle lines -/

/-- A line that asks a session for nothing: it is blank, it cannot be read, or it asks for another
value while no problem is open. -/
inductive Idle (cfg : Setting) (s : Session) (line : String) : Prop
  | blank (h : Text.trim line = "")
  | unread {fault : Fault} (hne : Text.trim line ≠ tryAgainCommand)
    (h : Loader.form cfg.toHost (Text.trim line) = .error fault)
  | noProblem (hline : Text.trim line = tryAgainCommand) (h : s.problem = none)

/-- An idle line changes nothing. -/
theorem after_of_idle (h : Idle cfg s line) : ((answer cfg line).outcome s).2 = s := by
  by_cases hblank : Text.trim line = ""
  · rw [outcome_answer_blank hblank]
  · rw [outcome_answer cfg s hblank]
    cases h with
    | blank h => exact absurd h hblank
    | unread hne h => rw [request_unread hne h]
    | noProblem hline h => rw [hline, request_tryAgain, tryAgain_of_none h]

/-- Some exchanges with a property are left out. -/
inductive Omits (P : Exchange → Prop) : List Exchange → List Exchange → Prop
  | nil : Omits P [] []
  | keep {x : Exchange} {xs kept : List Exchange} (h : Omits P xs kept) :
    Omits P (x :: xs) (x :: kept)
  | drop {x : Exchange} {xs kept : List Exchange} (hx : P x) (h : Omits P xs kept) :
    Omits P (x :: xs) kept

/-- **Idle lines can be left out**: all other exchanges stay the same. -/
theorem transcript_of_omits {lines : List String} {kept : List Exchange}
    (h : Omits (fun x => Idle cfg x.before x.line) (transcript cfg lines s) kept) :
    transcript cfg (kept.map (·.line)) s = kept := by
  induction lines generalizing s kept with
  | nil =>
    cases h
    rfl
  | cons line lines ih =>
    cases h with
    | keep h => rw [List.map_cons, transcript, ih h]
    | drop hidle h =>
      dsimp only at hidle h
      rw [after_of_idle hidle] at h
      exact ih h

/-! ## An expression and further values -/

/-- The answer, and whether a problem is open behind it. -/
def Exchange.status (x : Exchange) : Except Fault (Option String) × Bool :=
  (x.answer, x.after.problem.isSome)

/-- What is answered when there are these values and, if there are no more, this fault behind them: so
many answers are given to further requests. -/
def answersTo (cfg : Setting) (vs : List Value) :
    Option Fault → Nat → List (Except Fault (Option String) × Bool)
  | none, _ => vs.map fun v => ((cfg.print .readable v).map some, true)
  | some fault, n =>
    vs.map (fun v => ((cfg.print .readable v).map some, true)) ++
      (closing fault, false) :: List.replicate n (.ok (some "No current problem"), false)

theorem status_tryAgain {again : List String} (h : ∀ l ∈ again, Text.trim l = tryAgainCommand) :
    (transcript cfg again s).map Exchange.status =
      (attempts cfg again.length (Session.tryAgain cfg) s).map fun a => (answerTo cfg a.1, a.2) := by
  induction again generalizing s with
  | nil => rfl
  | cons line again ih =>
    rw [List.forall_mem_cons] at h
    have hanswer := outcome_answer cfg s (trim_tryAgain_ne h.1)
    rw [h.1, request_tryAgain] at hanswer
    rw [transcript, hanswer, List.map_cons, ih h.2]
    rfl

/-- The answers to attempts, one by one. -/
theorem answerTo_attempts {vs : List Value} {ending : Option Fault} {m : Nat}
    (h : ∀ fault, ending = some fault → fault.EndsSearch) :
    (vs.map (fun v => ((.ok v : Except Fault Value), true)) ++ afterwards ending m).map
        (fun a => (answerTo cfg a.1, a.2)) = answersTo cfg vs ending m := by
  rw [List.map_append, List.map_map]
  cases ending with
  | none =>
    rw [afterwards, List.map_nil, List.append_nil]
    rfl
  | some fault =>
    rw [afterwards, List.map_cons, List.map_replicate, answerTo_error (h fault rfl)]
    rfl

/-- **The answers to an expression** and to requests for more of its values. -/
theorem answers_of_form {expr : Value} {again : List String} (hne : Text.trim line ≠ tryAgainCommand)
    (hread : Loader.form cfg.toHost (Text.trim line) = .ok expr)
    (hagain : ∀ l ∈ again, Text.trim l = tryAgainCommand) :
    ∃ vs ending m, Delivers (solve cfg expr) s vs ending ∧
      (transcript cfg (line :: again) s).map Exchange.status = answersTo cfg vs ending m := by
  have hanswer := outcome_answer cfg s (ne_blank_of_form hread)
  rw [request_form hne hread] at hanswer
  obtain ⟨vs, ending, m, hdelivers, hends, hattempts⟩ :=
    attempts_eq cfg (again.length + 1) (problem_run cfg expr s) fun _ => endsSearch_run
  refine ⟨vs, ending, m, hdelivers, ?_⟩
  rw [← answerTo_attempts hends, ← hattempts, transcript, hanswer, List.map_cons,
    status_tryAgain hagain]
  rfl

/-- **The laws of a dialogue.** An idle line leaves the session as it is, so idle lines can be left out
of a dialogue and no other exchange changes. An expression, and then as many requests for another value
as you like, are answered with the values that the expression is solved for in the same session, then
with the fault behind them if there are no more, and then with the news that there is no problem; a
problem is open behind a line just if its answer is a value. The answer is the text of the value, or a
fault if the value is nested more deeply than can be printed. -/
theorem dialogue_laws (cfg : Setting) (s : Session) :
    (∀ line, Idle cfg s line → ((answer cfg line).outcome s).2 = s) ∧
      (∀ lines kept, Omits (fun x => Idle cfg x.before x.line) (transcript cfg lines s) kept →
        transcript cfg (kept.map (·.line)) s = kept) ∧
      ∀ line expr again, Text.trim line ≠ tryAgainCommand →
        Loader.form cfg.toHost (Text.trim line) = .ok expr →
        (∀ l ∈ again, Text.trim l = tryAgainCommand) →
        ∃ vs ending m, Delivers (solve cfg expr) s vs ending ∧
          (transcript cfg (line :: again) s).map Exchange.status = answersTo cfg vs ending m :=
  ⟨fun _ => after_of_idle, fun _ _ => transcript_of_omits, fun _ _ _ => answers_of_form⟩

/-- `(amb 1 2)`, asked for three more values, and the first of these requests behind idle lines. -/
theorem dialogue_laws_amb :
    let cfg : Setting := { depth := 8, passes := 8 }
    let s := initial false
    (∃ expr vs ending m, Loader.form cfg.toHost "(amb 1 2)" = .ok expr ∧
      Delivers (solve cfg expr) s vs ending ∧
      answersTo cfg vs ending m = [(.ok (some "1"), true), (.ok (some "2"), true),
        (.ok (some "No more values"), false), (.ok (some "No current problem"), false)]) ∧
    ∃ kept, Omits (fun x => Idle cfg x.before x.line)
        (transcript cfg ["(amb 1 2)", " ", ")", "try-again"] s) kept ∧
      transcript cfg ["(amb 1 2)", "try-again"] s = kept := by
  intro cfg s
  obtain ⟨-, homits, hanswers⟩ := dialogue_laws cfg s
  constructor
  · have htrim : Text.trim "(amb 1 2)" = "(amb 1 2)" := by decide +kernel
    obtain ⟨expr, hread, -⟩ : ∃ expr, Loader.form cfg.toHost "(amb 1 2)" = .ok expr ∧
        expr.print = "(amb 1 2)" := exists_ok_of_print (by decide +kernel)
    obtain ⟨vs, ending, m, hdelivers, hstatus⟩ := hanswers "(amb 1 2)" expr
      ["try-again", " try-again", "try-again"] (by decide +kernel) (htrim.symm ▸ hread)
      (by decide +kernel)
    refine ⟨expr, vs, ending, m, hread, hdelivers, ?_⟩
    rw [← hstatus]
    decide +kernel
  · have hunread : (Loader.form cfg.toHost (Text.trim ")")).isOk = false := by decide +kernel
    obtain ⟨fault, hunread⟩ := Except.exists_error_of_isOk hunread
    have hidle : ∀ s, Idle cfg s ")" := fun _ => .unread (by decide +kernel) hunread
    have hblank : ∀ s, Idle cfg s " " := fun _ => .blank (by decide +kernel)
    have hkept := homits ["(amb 1 2)", " ", ")", "try-again"] _
      (.keep (.drop (hblank _) (.drop (hidle _) (.keep .nil))))
    exact ⟨_, .keep (.drop (hblank _) (.drop (hidle _) (.keep .nil))), hkept⟩

end AmbLisp.Dialogue
