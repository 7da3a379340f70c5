import AmbLisp.Dialogue
import AmbLisp.Proofs.Session.Printing

/-!
# What a dialogue prints

Nothing in a dialogue sees what has been printed before it. So to execute a source text, or to talk to
the user, prints texts of its own behind all others (`ignoresPrinted_execute`,
`ignoresPrinted_converse`), and the first of these in a dialogue is the prompt (`texts_converse`).
-/

namespace AmbLisp.Dialogue

open Session

variable {cfg : Setting}

theorem ignoresPrinted_request (cfg : Setting) (line : String) :
    IgnoresPrinted (request cfg line) := by
  unfold request
  split
  · exact ignoresPrinted_tryAgain cfg
  · exact (ignoresPrinted_readForm cfg.toHost line).bind (ignoresPrinted_run cfg)

theorem ignoresPrinted_answer (cfg : Setting) (line : String) : IgnoresPrinted (answer cfg line) := by
  unfold answer
  dsimp only
  split
  · exact ignoresPrinted_pure none
  · refine (ignoresPrinted_request cfg (Text.trim line)).attempt.bind fun result => ?_
    split
    · exact (ignoresPrinted_lift _).bind fun text => ignoresPrinted_pure (some text)
    · split
      · exact ignoresPrinted_pure _
      · exact ignoresPrinted_throw _

theorem ignoresPrinted_emit (text : String) : IgnoresPrinted (emit text) := fun _ _ => rfl

theorem ignoresPrinted_sayAnswer (host : Host) (reply : Option String) :
    IgnoresPrinted (sayAnswer host reply) := by
  cases reply with
  | none => exact ignoresPrinted_pure ()
  | some text => exact (ignoresPrinted_lift _).bind fun text => ignoresPrinted_emit _

/-! ## Execution -/

theorem ignoresPrinted_exhaust (cfg : Setting) (n : Nat) : IgnoresPrinted (exhaust cfg n) := by
  induction n with
  | zero => exact ignoresPrinted_throw _
  | succ n ih =>
    refine (ignoresPrinted_answer cfg tryAgainCommand).bind fun reply =>
      (ignoresPrinted_sayAnswer cfg.toHost reply).bind fun _ =>
        ignoresPrinted_get (fun _ _ => rfl) fun s => ?_
    split
    · exact ih
    · exact ignoresPrinted_pure ()

theorem ignoresPrinted_execute (cfg : Setting) (source : String) (all : Bool) :
    IgnoresPrinted (execute cfg source all) := by
  refine (ignoresPrinted_answer cfg source).bind fun reply =>
    (ignoresPrinted_sayAnswer cfg.toHost reply).bind fun _ =>
      ignoresPrinted_get (fun _ _ => rfl) fun s => ?_
  split
  · exact ignoresPrinted_exhaust cfg cfg.passes
  · exact ignoresPrinted_pure ()

/-! ## Dialogues -/

theorem ignoresPrinted_turn (cfg : Setting) (line : Option String) :
    IgnoresPrinted (turn cfg line) := by
  cases line with
  | none => exact (ignoresPrinted_emit _).bind fun _ => ignoresPrinted_pure false
  | some line =>
    rw [turn]
    split
    · exact ignoresPrinted_pure false
    · exact (ignoresPrinted_answer cfg line).bind fun reply =>
        (ignoresPrinted_sayAnswer cfg.toHost reply).bind fun _ => ignoresPrinted_pure true

/-- A dialogue prompts the user first, and what it does then does not see what has been printed. -/
theorem exists_prompted (cfg : Setting) (lines : List String) :
    ∃ rest : Request Unit, IgnoresPrinted rest ∧
      converse cfg lines = emit prompt >>= fun _ => rest := by
  induction lines with
  | nil =>
    exact ⟨turn cfg none >>= fun _ => pure (),
      (ignoresPrinted_turn cfg none).bind fun _ => ignoresPrinted_pure (), rfl⟩
  | cons line lines ih =>
    obtain ⟨rest, hrest, heq⟩ := ih
    refine ⟨turn cfg (some line) >>= fun more => if more then converse cfg lines else pure (),
      (ignoresPrinted_turn cfg (some line)).bind fun more => ?_, rfl⟩
    split
    · rw [heq]
      exact (ignoresPrinted_emit prompt).bind fun _ => hrest
    · exact ignoresPrinted_pure ()

theorem ignoresPrinted_converse (cfg : Setting) (lines : List String) :
    IgnoresPrinted (converse cfg lines) := by
  obtain ⟨rest, hrest, heq⟩ := exists_prompted cfg lines
  rw [heq]
  exact (ignoresPrinted_emit prompt).bind fun _ => hrest

/-- A dialogue begins with the prompt. -/
theorem texts_converse (cfg : Setting) (lines : List String) (s : Session) :
    ∃ texts', texts (converse cfg lines) s = prompt :: texts' := by
  obtain ⟨rest, hrest, heq⟩ := exists_prompted cfg lines
  have hprinted := hrest.printed { s with printed := [prompt] }
  have hconverse : (converse cfg lines).outcome s.unprinted =
      rest.outcome { s with printed := [prompt] } := by
    rw [heq]
    rfl
  refine ⟨texts rest { s with printed := [prompt] }, ?_⟩
  rw [texts, hconverse, hprinted, List.reverse_append, List.reverse_reverse]
  rfl

end AmbLisp.Dialogue
