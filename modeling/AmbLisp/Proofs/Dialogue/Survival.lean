import AmbLisp.Proofs.Dialogue.Answer
import AmbLisp.Proofs.Reader.Acceptance
import AmbLisp.Proofs.Reader.Characters
import AmbLisp.Proofs.Search.Ending

/-!
# Dialogues go on

A line is answered with the text of a value or of a fault. If all files can be had, `Escapes` tells what
is left without an answer: values that are nested more deeply than can be printed, and faults from
outside, which are about a path with a NUL character, a numeral that is too long to be converted, a
character that cannot be written, or a search that goes on too long (`answers_or_escapes`). The first
three do not happen if nothing of the kind comes in with a line or a file. Then a source text is
executed and a dialogue goes on as far as values can be printed and searches end (`execute_of_clean`,
`dialogue_survives`).
-/

namespace AmbLisp

/-- The character can be part of a path. -/
def NotNul (ch : Char) : Prop :=
  ch ≠ Char.ofNat 0

instance (text : String) : Decidable (Text.MadeOf NotNul text) :=
  List.decidableBAll (fun ch => ch ≠ Char.ofNat 0) text.toList

theorem notNul_of_isBlank (ch : Char) (h : Text.isBlank ch = true) : NotNul ch := by
  rintro rfl
  cases h

theorem Value.hasConstants_spells (P : Char → Prop) : Value.HasConstants (Value.Spells P) :=
  ⟨fun _ _ => trivial, fun _ => trivial, trivial, trivial⟩

/-- No NUL character is in a source text, and all its integers are converted. -/
structure Text.Clean (source : String) : Prop where
  nulFree : Text.MadeOf NotNul source
  converts : Reader.Converts source

instance (source : String) : Decidable (Text.Clean source) :=
  decidable_of_iff (Text.MadeOf NotNul source ∧ Reader.Converts source)
    ⟨fun h => ⟨h.1, h.2⟩, fun h => ⟨h.nulFree, h.converts⟩⟩

/-- The files have clean texts, and every character can be written. -/
structure Host.Clean (host : Host) : Prop where
  texts : ∀ path text, Loader.sourceText host.disk path = .ok text → Text.Clean text
  encodes : ∀ c, host.encodes c = true

theorem Host.Clean.madeOf {host : Host} (h : host.Clean) : host.MadeOf (Value.Spells NotNul) := by
  intro path forms hforms
  obtain ⟨text, htext, hforms⟩ := Loader.fileForms_eq_ok.1 hforms
  exact Reader.spells_of_parseProgram notNul_of_isBlank (h.texts path text htext).nulFree
    (Loader.programForms_eq_ok.1 hforms).1

set_option maxRecDepth 4000 in
theorem Prelude.contains_definition : ∀ source ∈ Prelude.definitions,
    ∃ cs, String.ofList cs = source ∧ cs.contains (Char.ofNat 0) = false := by
  unfold Prelude.definitions
  repeat refine List.forall_mem_cons.2 ⟨⟨_, rfl, by decide +kernel⟩, ?_⟩
  exact List.forall_mem_nil _

namespace Session

/-- No string of a session has a NUL character. -/
def NulFree (s : Session) : Prop :=
  s.MadeOf (Value.Spells NotNul)

theorem nulFree_initial (prelude : Bool) : (initial prelude).NulFree := by
  refine madeOf_initial (Value.hasConstants_spells NotNul) (fun v hv => ?_) prelude
  obtain ⟨source, hmem, hsource⟩ := Prelude.exists_definition hv
  obtain ⟨cs, rfl, hnul⟩ := Prelude.contains_definition source hmem
  refine Reader.spells_of_parse notNul_of_isBlank (fun ch hch => ?_) hsource
  rintro rfl
  rw [String.toList_ofList] at hch
  rw [List.contains_eq_mem, decide_eq_false_iff_not] at hnul
  exact hnul hch

end Session

/-! ## Faults from outside -/

/-- A fault comes from outside, and this is where it comes from, if paths are strings of a kind. -/
inductive Intrudes (A : Value → Prop) (host : Host) : Fault → Prop
  | nulInPath {path : String} (hpath : A (.str path)) (hnul : Char.ofNat 0 ∈ path.toList) :
    Intrudes A host .nulInPath
  | longNumeral {path text : String} {digits : Nat}
    (htext : Loader.sourceText host.disk path = .ok text) (h : ¬ Reader.Converts text) :
    Intrudes A host (.longNumeral digits)
  | unencodable {c : Char} (h : host.encodes c = false) : Intrudes A host (.unencodable c)
  | tooManyPasses : Intrudes A host .tooManyPasses

/-- The faults that are left to the caller of the program. -/
inductive Uncaught (host : Host) : Fault → Prop
  | nulInPath : Uncaught host .nulInPath
  | longNumeral (digits : Nat) : Uncaught host (.longNumeral digits)
  | unencodable {c : Char} (h : host.encodes c = false) : Uncaught host (.unencodable c)
  | tooDeep : Uncaught host .tooDeep
  | tooManyPasses : Uncaught host .tooManyPasses

namespace Intrudes

variable {A : Value → Prop} {host : Host} {fault : Fault}

theorem outside (h : Intrudes A host fault) : fault.kind = .outside := by
  cases h <;> rfl

theorem uncaught (h : Intrudes A host fault) : Uncaught host fault := by
  cases h with
  | nulInPath _ _ => exact .nulInPath
  | longNumeral _ _ => exact .longNumeral _
  | unencodable h => exact .unencodable h
  | tooManyPasses => exact .tooManyPasses

/-- Where all is clean, nothing comes from outside but searches that go on too long. -/
theorem of_clean (hhost : host.Clean) (h : Intrudes (Value.Spells NotNul) host fault) :
    fault = .tooManyPasses := by
  cases h with
  | nulInPath hpath hnul => exact absurd rfl (hpath _ hnul)
  | longNumeral htext h => exact absurd (hhost.texts _ _ htext).converts h
  | unencodable h =>
    rw [hhost.encodes] at h
    cases h
  | tooManyPasses => rfl

end Intrudes

theorem Reader.not_converts {source : String} {α : Type} {read : Except ReadError α} {fault : Fault}
    (hblames : ∀ e, read = .error e → Blames (Cursor.ofSource source).tokens e)
    (h : Loader.Unconverted read fault) : ¬ Reader.Converts source := by
  obtain ⟨e, digits, hread, hreason, -⟩ := h
  exact fun hconverts => hconverts.reason_ne (hblames e hread) hreason

section

variable {A : Value → Prop} {host : Host} {fault : Fault}

theorem Loader.Reports.plain_or_intrudes (hhad : ∀ path, host.disk path ≠ .pending) {path : String}
    (hpath : A (.str path)) (h : Reports host path fault) :
    fault.IsPlain ∨ Intrudes A host fault := by
  cases h with
  | plain h => exact .inl h
  | nul h hnul => exact .inr (h ▸ .nulInPath hpath hnul)
  | pending path' _ hpending => exact absurd hpending (hhad path')
  | numeral source hsource h =>
    have hnot := Reader.not_converts (fun _ => Reader.blames_parseProgram) h
    obtain ⟨e, digits, -, -, rfl⟩ := h
    exact .inr (.longNumeral hsource hnot)

theorem Fault.RaisedFrom.plain_or_intrudes (hhad : ∀ path, host.disk path ≠ .pending)
    (h : fault.RaisedFrom A host) : fault.IsPlain ∨ Intrudes A host fault := by
  rcases h with (h | ⟨c, rfl, hc⟩) | ⟨path, hpath, hload⟩
  · exact .inl h
  · exact .inr (.unencodable hc)
  · exact (Loader.reports_fileForms host path fault hload).plain_or_intrudes hhad hpath

end

namespace Dialogue

open Session

variable {A : Value → Prop} {cfg : Setting} {line : String} {s s' : Session} {fault : Fault}

/-! ## Answers -/

/-- The texts with which the results of requests are answered. -/
inductive Replies (cfg : Setting) : Except Fault Value → String → Prop
  | value {v : Value} (h : v.nesting ≤ cfg.printable) : Replies cfg (.ok v) v.print
  | noMoreValues : Replies cfg (.error .noMoreValues) "No more values"
  | noProblem : Replies cfg (.error .noProblem) "No current problem"
  | failed {fault : Fault} (h : fault.IsPlain) :
    Replies cfg (.error fault) ("Error: " ++ fault.message)

/-- A blank line has no answer, and any other line has one by the result of its request. -/
def Answers (cfg : Setting) (s : Session) (line : String) : Option String → Prop
  | none => Text.trim line = ""
  | some text => Text.trim line ≠ "" ∧ Replies cfg (request cfg (Text.trim line) s).1 text

/-- The result of the request of a line is left without an answer, and this fault leaves the dialogue
instead. -/
inductive Escapes (A : Value → Prop) (cfg : Setting) (line : String) :
    Except Fault Value → Fault → Prop
  | value {v : Value} (h : cfg.printable < v.nesting) : Escapes A cfg line (.ok v) .tooDeep
  | numeral {digits : Nat} (h : ¬ Reader.Converts line) :
    Escapes A cfg line (.error (.longNumeral digits)) (.longNumeral digits)
  | outside {fault : Fault} (h : Intrudes A cfg.toHost fault) :
    Escapes A cfg line (.error fault) fault

theorem Replies.answerTo {result : Except Fault Value} {text : String}
    (h : Replies cfg result text) : answerTo cfg result = .ok (some text) := by
  cases h with
  | value h =>
    rw [Dialogue.answerTo, Host.print_of_nesting h]
    rfl
  | noMoreValues | noProblem => rfl
  | failed h => exact answerTo_plain h

theorem answerTo_outside (h : fault.kind = .outside) : answerTo cfg (.error fault) = .error fault := by
  rw [answerTo_error (.inr (.inr h)), closing, if_pos h]

theorem Escapes.answerTo {result : Except Fault Value} (h : Escapes A cfg line result fault) :
    answerTo cfg result = .error fault := by
  cases h with
  | value h =>
    rw [Dialogue.answerTo, Host.print, if_neg (Nat.not_le.2 h)]
    rfl
  | numeral h => rfl
  | outside h => exact answerTo_outside h.outside

/-- Where all is clean, a line is left without an answer only for a value or a search. -/
theorem Escapes.of_clean (hhost : cfg.toHost.Clean) (hline : Reader.Converts line)
    {result : Except Fault Value} (h : Escapes (Value.Spells NotNul) cfg line result fault) :
    fault = .tooDeep ∨ fault = .tooManyPasses := by
  cases h with
  | value _ => exact .inl rfl
  | numeral h => exact absurd hline h
  | outside h => exact .inr (h.of_clean hhost)

section

variable (hA : Value.HasConstants A) (hhost : cfg.toHost.MadeOf A)
  (hhad : ∀ path, cfg.disk path ≠ .pending)

include hA hhost hhad

/-- The request of a line makes no atoms, and its result has a reply, or it escapes. -/
theorem request_madeOf (hs : s.MadeOf A)
    (hline : ∀ expr, Reader.parse line = .ok expr → expr.MadeOf A) :
    let out := request cfg line s
    out.2.MadeOf A ∧
      ((∃ text, Replies cfg out.1 text) ∨ ∃ fault, Escapes A cfg line out.1 fault) := by
  have hvalue : ∀ v, (∃ text, Replies cfg (.ok v) text) ∨ ∃ fault, Escapes A cfg line (.ok v) fault := by
    intro v
    rcases Nat.lt_or_ge cfg.printable v.nesting with hdeep | hflat
    · exact .inr ⟨_, .value hdeep⟩
    · exact .inl ⟨_, .value hflat⟩
  have hends : ∀ fault,
      fault = .tooManyPasses ∨ fault = .noMoreValues ∨ fault.RaisedFrom A cfg.toHost →
      (∃ text, Replies cfg (.error fault) text) ∨ ∃ why, Escapes A cfg line (.error fault) why := by
    rintro _ (rfl | rfl | h)
    · exact .inr ⟨_, .outside .tooManyPasses⟩
    · exact .inl ⟨_, .noMoreValues⟩
    · rcases h.plain_or_intrudes hhad with hplain | hintrudes
      · exact .inl ⟨_, .failed hplain⟩
      · exact .inr ⟨_, .outside hintrudes⟩
  by_cases hagain : line = tryAgainCommand
  · subst hagain
    rw [request_tryAgain]
    refine ⟨(madeOf_tryAgain hA hhost hs).1, ?_⟩
    cases hp : s.problem with
    | none =>
      rw [tryAgain_of_none hp]
      exact .inl ⟨_, .noProblem⟩
    | some p =>
      cases hresult : (Session.tryAgain cfg s).1 with
      | ok v => exact hvalue v
      | error fault => exact hends fault (error_tryAgain hA hhost hs hp hresult)
  · cases hread : Loader.form cfg.toHost line with
    | error fault =>
      rw [request_unread hagain hread]
      refine ⟨hs, ?_⟩
      rcases Loader.reports_form cfg.toHost line fault hread with hplain | hlong
      · exact .inl ⟨_, .failed hplain⟩
      · have hnot := Reader.not_converts (fun _ => Reader.blames_parse) hlong
        obtain ⟨e, digits, -, -, rfl⟩ := hlong
        exact .inr ⟨_, .numeral hnot⟩
    | ok expr =>
      have hexpr := hline expr (Loader.form_eq_ok.1 hread).1
      rw [request_form hagain hread]
      refine ⟨(madeOf_run hA hhost hs hexpr).1, ?_⟩
      cases hresult : (Session.run cfg expr s).1 with
      | ok v => exact hvalue v
      | error fault => exact hends fault (error_run hA hhost hs hexpr hresult)

/-- **A line is answered**, or it escapes, if all files can be had. -/
theorem answer_madeOf (hs : s.MadeOf A)
    (hline : ∀ expr, Reader.parse (Text.trim line) = .ok expr → expr.MadeOf A) :
    let out := (answer cfg line).outcome s
    out.2.MadeOf A ∧ ((∃ reply, out.1 = .ok reply ∧ Answers cfg s line reply) ∨
      ∃ fault, out.1 = .error fault ∧
        Escapes A cfg (Text.trim line) (request cfg (Text.trim line) s).1 fault) := by
  by_cases hblank : Text.trim line = ""
  · rw [outcome_answer_blank hblank]
    exact ⟨hs, .inl ⟨none, rfl, hblank⟩⟩
  · obtain ⟨hbehind, hresult⟩ := request_madeOf hA hhost hhad hs hline
    rw [outcome_answer cfg s hblank]
    refine ⟨hbehind, ?_⟩
    rcases hresult with ⟨text, htext⟩ | ⟨fault, hfault⟩
    · exact .inl ⟨some text, htext.answerTo, hblank, htext⟩
    · exact .inr ⟨fault, hfault.answerTo, hfault⟩

end

/-- A line of any session is answered, or it escapes. -/
theorem answers_or_escapes (hhad : ∀ path, cfg.disk path ≠ .pending) (s : Session) (line : String) :
    let out := (answer cfg line).outcome s
    (∃ reply, out.1 = .ok reply ∧ Answers cfg s line reply) ∨
      ∃ fault, out.1 = .error fault ∧
        Escapes (fun _ => True) cfg (Text.trim line) (request cfg (Text.trim line) s).1 fault :=
  (answer_madeOf Value.hasConstants_any cfg.toHost.madeOf_any hhad (madeOf_any s)
    fun expr (_ : Reader.parse (Text.trim line) = .ok expr) =>
      Value.madeOf_of_all (fun _ => trivial) expr).2

/-- In a session without NUL characters, a clean line is answered unless its value is nested too deeply
or its search goes on too long, and no NUL character comes in. -/
theorem answers_of_clean (hhad : ∀ path, cfg.disk path ≠ .pending) (hhost : cfg.toHost.Clean)
    (hs : s.NulFree) (hline : Text.Clean (Text.trim line)) :
    let out := (answer cfg line).outcome s
    out.2.NulFree ∧ ((∃ reply, out.1 = .ok reply ∧ Answers cfg s line reply) ∨
      ∃ fault, (fault = .tooDeep ∨ fault = .tooManyPasses) ∧ out.1 = .error fault ∧
        Escapes (Value.Spells NotNul) cfg (Text.trim line) (request cfg (Text.trim line) s).1
          fault) := by
  have hform : ∀ expr, Reader.parse (Text.trim line) = .ok expr →
      expr.MadeOf (Value.Spells NotNul) :=
    fun _ => Reader.spells_of_parse notNul_of_isBlank hline.nulFree
  obtain ⟨hbehind, hanswer⟩ :=
    answer_madeOf (Value.hasConstants_spells NotNul) hhost.madeOf hhad hs hform
  refine ⟨hbehind, hanswer.imp id ?_⟩
  rintro ⟨fault, hfault, hescapes⟩
  exact ⟨fault, hescapes.of_clean hhost hline.converts, hfault, hescapes⟩

/-! ## More passes -/

/-- A request that does not run out of passes comes to the same with more of them. -/
theorem request_more {passes : Nat} (hpasses : cfg.passes ≤ passes)
    (h : (request cfg line s).1 ≠ .error .tooManyPasses) :
    request { cfg with passes } line s = request cfg line s := by
  by_cases hagain : line = tryAgainCommand
  · subst hagain
    rw [request_tryAgain] at h ⊢
    rw [request_tryAgain]
    unfold Session.tryAgain at h ⊢
    cases hp : s.problem with
    | none => rfl
    | some p =>
      rw [hp] at h
      exact congrArg (settle p.expression) (Search.again_more h hpasses)
  · cases hread : Loader.form cfg.toHost line with
    | error fault =>
      rw [request_unread hagain hread]
      exact request_unread hagain hread
    | ok expr =>
      have hmore : request { cfg with passes } line s = Session.run { cfg with passes } expr s :=
        request_form hagain hread
      rw [request_form hagain hread] at h ⊢
      rw [hmore]
      exact congrArg (settle expr) (Search.run_more h hpasses)

/-- The answer to a line is the same however many more passes its search may take. -/
theorem answer_more {passes : Nat} (hpasses : cfg.passes ≤ passes)
    (h : ((answer cfg line).outcome s).1 ≠ .error .tooManyPasses) :
    (answer { cfg with passes } line).outcome s = (answer cfg line).outcome s := by
  by_cases hblank : Text.trim line = ""
  · rw [outcome_answer_blank hblank, outcome_answer_blank hblank]
  · rw [outcome_answer cfg s hblank] at h ⊢
    rw [outcome_answer { cfg with passes } s hblank]
    have hrequest : (request cfg (Text.trim line) s).1 ≠ .error .tooManyPasses := by
      intro hfault
      dsimp only at h
      rw [hfault] at h
      exact h rfl
    rw [request_more hpasses hrequest]
    rfl

/-! ## Dialogues -/

/-- The session after an answer was printed. -/
def told (reply : Option String) (s : Session) : Session :=
  reply.elim s fun text => said text s

/-- The session after the user was prompted. -/
def prompted (s : Session) : Session :=
  { s with printed := prompt :: s.printed }

theorem Escapes.uncaught {result : Except Fault Value} (h : Escapes A cfg line result fault) :
    Uncaught cfg.toHost fault := by
  cases h with
  | value _ => exact .tooDeep
  | numeral _ => exact .longNumeral _
  | outside h => exact h.uncaught

/-- An answer is printed, unless the output does not take one of its characters. -/
theorem outcome_sayAnswer (host : Host) (reply : Option String) (s : Session) :
    (sayAnswer host reply).outcome s = (.ok (), told reply s) ∨
      ∃ c, host.encodes c = false ∧
        (sayAnswer host reply).outcome s = (.error (.unencodable c), s) := by
  cases reply with
  | none => exact .inl rfl
  | some text =>
    have hsay := outcome_say host text s
    rcases host.encode_cases text with hencode | ⟨c, hc, hencode⟩ <;> rw [hencode] at hsay
    · exact .inl hsay
    · exact .inr ⟨c, hc, hsay⟩

variable {lines : List String}

theorem outcome_turn_exit (h : Text.trim line = exitCommand) :
    (turn cfg (some line)).outcome s = (.ok false, s) := by
  rw [turn, if_pos h]
  rfl

theorem outcome_turn (cfg : Setting) (h : Text.trim line ≠ exitCommand) (s : Session) :
    (turn cfg (some line)).outcome s =
      match (answer cfg line).outcome s with
      | (.ok reply, s₁) =>
        match (sayAnswer cfg.toHost reply).outcome s₁ with
        | (.ok (), s') => (.ok true, s')
        | (.error fault, s') => (.error fault, s')
      | (.error fault, s') => (.error fault, s') := by
  rw [turn, if_neg h, ExceptT.outcome_bind]
  rcases (answer cfg line).outcome s with ⟨fault | reply, s₁⟩
  · rfl
  · dsimp only
    rw [ExceptT.outcome_bind]
    rcases (sayAnswer cfg.toHost reply).outcome s₁ with ⟨fault | _, s'⟩ <;> rfl

/-- A dialogue with this line, and then others. -/
theorem outcome_converse_cons (cfg : Setting) (line : String) (lines : List String) (s : Session) :
    (converse cfg (line :: lines)).outcome s =
      match (turn cfg (some line)).outcome (prompted s) with
      | (.ok true, s') => (converse cfg lines).outcome s'
      | (.ok false, s') => (.ok (), s')
      | (.error fault, s') => (.error fault, s') := by
  have hprompt : (emit prompt).outcome s = (.ok (), prompted s) := rfl
  rw [converse, ExceptT.outcome_bind, hprompt]
  dsimp only
  rw [ExceptT.outcome_bind]
  rcases (turn cfg (some line)).outcome (prompted s) with ⟨fault | _ | _, s'⟩ <;> rfl

/-- Lines are answered in turn, and their answers are printed. -/
inductive LeadsTo (cfg : Setting) : Session → List String → Session → Prop
  | nil (s : Session) : LeadsTo cfg s [] s
  | cons {s s₁ s' : Session} {line : String} {lines : List String}
    (hturn : (turn cfg (some line)).outcome (prompted s) = (.ok true, s₁))
    (hlines : LeadsTo cfg s₁ lines s') : LeadsTo cfg s (line :: lines) s'

/-- How a dialogue ends behind lines that are answered in turn: at the end of the lines, at the command
to leave it, or at a line that it breaks off at. -/
inductive Finishes (cfg : Setting) (Q : Fault → Prop) (s : Session) :
    List String → Except Fault Unit × Session → Prop
  | input {lines : List String} {s' : Session} (hlines : LeadsTo cfg s lines s') :
    Finishes cfg Q s lines (.ok (), said "" (prompted s'))
  | exit {before later : List String} {line : String} {s' : Session}
    (hbefore : LeadsTo cfg s before s') (hexit : Text.trim line = exitCommand) :
    Finishes cfg Q s (before ++ line :: later) (.ok (), prompted s')
  | broken {before later : List String} {line : String} {s₁ s' : Session} {fault : Fault}
    (hbefore : LeadsTo cfg s before s₁)
    (hturn : (turn cfg (some line)).outcome (prompted s₁) = (.error fault, s')) (hfault : Q fault) :
    Finishes cfg Q s (before ++ line :: later) (.error fault, s')

/-- A line before those of a dialogue is one more line of it. -/
theorem Finishes.cons {Q : Fault → Prop} {s₁ : Session} {out : Except Fault Unit × Session}
    (hturn : (turn cfg (some line)).outcome (prompted s) = (.ok true, s₁))
    (h : Finishes cfg Q s₁ lines out) : Finishes cfg Q s (line :: lines) out := by
  cases h with
  | input hlines => exact .input (.cons hturn hlines)
  | exit hbefore hexit => exact .exit (.cons hturn hbefore) hexit
  | broken hbefore hfails hfault => exact .broken (.cons hturn hbefore) hfails hfault

/-! ## What goes on -/

/-- A line is answered, or there is a fault of a kind; behind the answer the session is as it should
be. -/
structure GoesOn (I : Session → Prop) (Q : Fault → Prop)
    (out : Except Fault (Option String) × Session) : Prop where
  fails : Fails Q out.1
  keeps : ∀ reply, out.1 = .ok reply → I (told reply out.2)

section

variable {I : Session → Prop} {Q : Fault → Prop} {source : String}
  (hwrites : ∀ c, cfg.encodes c = false → Q (.unencodable c))

include hwrites

/-- Behind an answer that is printed the session is as it should be. -/
theorem GoesOn.told {reply : Option String}
    (h : GoesOn I Q ((answer cfg line).outcome s))
    (hanswer : (answer cfg line).outcome s = (.ok reply, s')) :
    (sayAnswer cfg.toHost reply).outcome s' = (.ok (), told reply s') ∧ I (told reply s') ∨
      ∃ fault, (sayAnswer cfg.toHost reply).outcome s' = (.error fault, s') ∧ Q fault := by
  rw [hanswer] at h
  rcases outcome_sayAnswer cfg.toHost reply s' with hsay | ⟨c, hc, hsay⟩
  · exact .inl ⟨hsay, h.keeps reply rfl⟩
  · exact .inr ⟨_, hsay, hwrites c hc⟩

/-- The turn of a line that is not the command to leave. -/
theorem GoesOn.turn (h : GoesOn I Q ((answer cfg line).outcome s))
    (hexit : Text.trim line ≠ exitCommand) :
    (∃ s', (turn cfg (some line)).outcome s = (.ok true, s') ∧ I s') ∨
      ∃ fault s', (turn cfg (some line)).outcome s = (.error fault, s') ∧ Q fault := by
  have hturn := outcome_turn cfg hexit s
  rcases hr : (answer cfg line).outcome s with ⟨fault | reply, s'⟩ <;> rw [hr] at hturn
  · rw [hr] at h
    exact .inr ⟨fault, s', hturn, h.fails fault rfl⟩
  · rcases h.told hwrites hr with ⟨hsay, hs'⟩ | ⟨fault, hsay, hfault⟩ <;>
      simp only [hsay] at hturn
    · exact .inl ⟨_, hturn, hs'⟩
    · exact .inr ⟨fault, s', hturn, hfault⟩

/-- **A dialogue finishes**, and the faults that break it off are of a kind, if each of its lines goes
on. -/
theorem finishes_converse (hprompted : ∀ s, I s → I (prompted s))
    (hlines : ∀ line ∈ lines, ∀ s, I s → GoesOn I Q ((answer cfg line).outcome s)) (hs : I s) :
    Finishes cfg Q s lines ((converse cfg lines).outcome s) := by
  induction lines generalizing s with
  | nil => exact .input (.nil s)
  | cons line lines ih =>
    rw [List.forall_mem_cons] at hlines
    have hcons := outcome_converse_cons cfg line lines s
    by_cases hexit : Text.trim line = exitCommand
    · rw [outcome_turn_exit hexit] at hcons
      rw [hcons]
      exact .exit (.nil s) hexit
    · rcases (hlines.1 _ (hprompted s hs)).turn hwrites hexit with
        ⟨s', hturn, hs'⟩ | ⟨fault, s', hturn, hfault⟩ <;>
        rw [hturn] at hcons <;> rw [hcons]
      · exact (ih hlines.2 hs').cons hturn
      · exact .broken (.nil s) hturn hfault

theorem fails_exhaust (hpasses : Q .tooManyPasses)
    (hagain : ∀ s, I s → GoesOn I Q ((answer cfg tryAgainCommand).outcome s))
    (n : Nat) (hs : I s) : Fails Q ((exhaust cfg n).outcome s).1 := by
  induction n generalizing s with
  | zero => exact fails_error hpasses
  | succ n ih =>
    have hgoes := hagain s hs
    rw [exhaust, ExceptT.outcome_bind]
    rcases hr : (answer cfg tryAgainCommand).outcome s with ⟨fault | reply, s'⟩
    · rw [hr] at hgoes
      exact fails_error (hgoes.fails fault rfl)
    · dsimp only
      rw [ExceptT.outcome_bind]
      rcases hgoes.told hwrites hr with ⟨hsay, hs'⟩ | ⟨fault, hsay, hfault⟩ <;> rw [hsay]
      · change Fails Q ((if (told reply s').problem.isSome then exhaust cfg n else pure ()).outcome
          (told reply s')).1
        split
        · exact ih hs'
        · exact fails_ok ()
      · exact fails_error hfault

theorem fails_execute (hpasses : Q .tooManyPasses)
    (hsource : GoesOn I Q ((answer cfg source).outcome s))
    (hagain : ∀ s, I s → GoesOn I Q ((answer cfg tryAgainCommand).outcome s)) (all : Bool) :
    Fails Q ((execute cfg source all).outcome s).1 := by
  rw [execute, ExceptT.outcome_bind]
  rcases hr : (answer cfg source).outcome s with ⟨fault | reply, s'⟩
  · rw [hr] at hsource
    exact fails_error (hsource.fails fault rfl)
  · dsimp only
    rw [ExceptT.outcome_bind]
    rcases hsource.told hwrites hr with ⟨hsay, hs'⟩ | ⟨fault, hsay, hfault⟩ <;> rw [hsay]
    · change Fails Q ((if reply.isSome && all && (told reply s').problem.isSome
        then exhaust cfg cfg.passes else pure ()).outcome (told reply s')).1
      split
      · exact fails_exhaust hwrites hpasses hagain cfg.passes hs'
      · exact fails_ok ()
    · exact fails_error hfault

end

theorem nulFree_prompted (h : s.NulFree) : (prompted s).NulFree :=
  ⟨h.store, h.problem⟩

theorem nulFree_told (h : s.NulFree) (reply : Option String) : (told reply s).NulFree := by
  cases reply with
  | none => exact h
  | some text => exact ⟨h.store, h.problem⟩

theorem goesOn_any (hhad : ∀ path, cfg.disk path ≠ .pending) (s : Session) (line : String) :
    GoesOn (fun _ => True) (Uncaught cfg.toHost) ((answer cfg line).outcome s) := by
  refine ⟨fun fault hf => ?_, fun _ _ => trivial⟩
  rcases answers_or_escapes hhad s line with ⟨reply, hreply, -⟩ | ⟨fault', hfault, hescapes⟩
  · cases hreply.symm.trans hf
  · cases hfault.symm.trans hf
    exact hescapes.uncaught

theorem goesOn_clean (hhad : ∀ path, cfg.disk path ≠ .pending) (hhost : cfg.toHost.Clean)
    (hline : Text.Clean (Text.trim line)) (hs : s.NulFree) :
    GoesOn NulFree (fun fault => fault = .tooDeep ∨ fault = .tooManyPasses)
      ((answer cfg line).outcome s) := by
  obtain ⟨hbehind, hanswer⟩ := answers_of_clean hhad hhost hs hline
  refine ⟨fun fault hf => ?_, fun reply _ => nulFree_told hbehind reply⟩
  rcases hanswer with ⟨reply, hreply, -⟩ | ⟨fault', hcause, hfault, -⟩
  · cases hreply.symm.trans hf
  · cases hfault.symm.trans hf
    exact hcause

/-- A source text is executed, or the execution breaks off with a fault that is left to the caller. -/
theorem execute_ok_or_uncaught (hhad : ∀ path, cfg.disk path ≠ .pending) (source : String)
    (all : Bool) (s : Session) : ((execute cfg source all).outcome s).1 = .ok () ∨
      ∃ fault, Uncaught cfg.toHost fault ∧ ((execute cfg source all).outcome s).1 = .error fault := by
  have hfails := fails_execute (fun _ => .unencodable) .tooManyPasses (goesOn_any hhad s source)
    (fun s _ => goesOn_any hhad s _) all
  cases hresult : ((execute cfg source all).outcome s).1 with
  | ok => exact .inl rfl
  | error fault => exact .inr ⟨fault, hfails fault hresult, rfl⟩

theorem execute_of_clean (hhad : ∀ path, cfg.disk path ≠ .pending) (hhost : cfg.toHost.Clean)
    (hs : s.NulFree) {source : String} (hsource : Text.Clean (Text.trim source)) (all : Bool) :
    Fails (fun fault => fault = .tooDeep ∨ fault = .tooManyPasses)
      ((execute cfg source all).outcome s).1 := by
  have hagain : Text.Clean (Text.trim tryAgainCommand) := by decide +kernel
  exact fails_execute (fun c hc => nomatch (hhost.encodes c).symm.trans hc) (.inr rfl)
    (goesOn_clean hhad hhost hsource hs) (fun _ => goesOn_clean hhad hhost hagain) all

/-- **Dialogues go on.** If all files can be had, a line of any session is answered, or it escapes for one
of these reasons: its value is nested too deeply to be printed, or a fault comes from outside, which is
a path with a NUL character, a numeral that is too long to be converted, a character that cannot be
written, or a search that goes on too long. More passes make no difference to searches that end. A
dialogue ends at the command to leave it or behind the last line, unless it breaks off for such a reason
or at an answer that cannot be written.

A new session has no NUL characters. If there are none in a session, all characters can be written, and
the files and what is entered are clean, then none comes in, and of these reasons only two are left: a
value that is nested too deeply, and a search that goes on too long. -/
theorem dialogue_survives (cfg : Setting) (hhad : ∀ path, cfg.disk path ≠ .pending) :
    (∀ s line,
      let out := (answer cfg line).outcome s
      (∃ reply, out.1 = .ok reply ∧ Answers cfg s line reply) ∨
        ∃ fault, out.1 = .error fault ∧
          Escapes (fun _ => True) cfg (Text.trim line) (request cfg (Text.trim line) s).1 fault) ∧
    (∀ s line passes, cfg.passes ≤ passes →
      ((answer cfg line).outcome s).1 ≠ .error .tooManyPasses →
      (answer { cfg with passes } line).outcome s = (answer cfg line).outcome s) ∧
    (∀ s lines, Finishes cfg (Uncaught cfg.toHost) s lines ((converse cfg lines).outcome s)) ∧
    (∀ prelude, (initial prelude).NulFree) ∧
    (cfg.toHost.Clean → ∀ s : Session, s.NulFree →
      (∀ line, Text.Clean (Text.trim line) →
        let out := (answer cfg line).outcome s
        out.2.NulFree ∧ ((∃ reply, out.1 = .ok reply ∧ Answers cfg s line reply) ∨
          ∃ fault, (fault = .tooDeep ∨ fault = .tooManyPasses) ∧ out.1 = .error fault ∧
            Escapes (Value.Spells NotNul) cfg (Text.trim line) (request cfg (Text.trim line) s).1
              fault)) ∧
      ∀ lines, (∀ line ∈ lines, Text.Clean (Text.trim line)) →
        Finishes cfg (fun fault => fault = .tooDeep ∨ fault = .tooManyPasses) s lines
          ((converse cfg lines).outcome s)) := by
  refine ⟨answers_or_escapes hhad, fun _ _ _ => answer_more, fun s lines => ?_, nulFree_initial,
    fun hhost s hs => ⟨fun line => answers_of_clean hhad hhost hs, fun lines hlines => ?_⟩⟩
  · exact finishes_converse (I := fun _ => True) (fun _ => .unencodable) (fun _ _ => trivial)
      (fun line _ s _ => goesOn_any hhad s line) trivial
  · exact finishes_converse (I := NulFree) (fun c hc => nomatch (hhost.encodes c).symm.trans hc)
      (fun _ => nulFree_prompted) (fun line hline _ => goesOn_clean hhad hhost (hlines line hline)) hs

/-- A file that cannot be loaded, a text that cannot be read, and the command to leave. -/
theorem dialogue_survives_refusal :
    let cfg : Setting := { depth := 8, passes := 8 }
    let s := initial false
    let lines := ["(load [missing])", ")", "exit", "1"]
    (∃ reply, ((answer cfg "(load [missing])").outcome s).1 = .ok reply ∧
      Answers cfg s "(load [missing])" reply) ∧
      Finishes cfg (fun fault => fault = .tooDeep ∨ fault = .tooManyPasses) s lines
        ((converse cfg lines).outcome s) ∧
      ((converse cfg lines).outcome s).1 = .ok () := by
  intro cfg s lines
  have hhad : ∀ path, cfg.disk path ≠ .pending := fun _ => nofun
  have hhost : cfg.toHost.Clean := by
    refine ⟨fun path text htext => ?_, fun _ => rfl⟩
    obtain ⟨fault, hfault⟩ := Loader.sourceText_empty path
    cases hfault.symm.trans htext
  have hlines : ∀ line ∈ lines, Text.Clean (Text.trim line) := by decide +kernel
  obtain ⟨-, -, -, hnew, hgoes⟩ := dialogue_survives cfg hhad
  obtain ⟨hanswers, hfinishes⟩ := hgoes hhost s (hnew false)
  refine ⟨?_, hfinishes lines hlines, ?_⟩
  · have hok : ((answer cfg "(load [missing])").outcome s).1.isOk := by decide +kernel
    rcases (hanswers _ (hlines _ List.mem_cons_self)).2 with hreply | ⟨fault, -, hfault, -⟩
    · exact hreply
    · rw [hfault] at hok
      cases hok
  · have hok : ((converse cfg lines).outcome s).1.isOk := by decide +kernel
    cases hresult : ((converse cfg lines).outcome s).1 with
    | ok => rfl
    | error fault =>
      rw [hresult] at hok
      cases hok

/-- Not every line is answered, even in a new session with all files at hand and an output that takes
every character: a NUL character in a path is left to the caller. -/
theorem nul_in_path_unanswered :
    let cfg : Setting := { depth := 8, passes := 8 }
    (∀ path, cfg.disk path ≠ .pending) ∧ (∀ c, cfg.encodes c = true) ∧
      ((answer cfg "(load \"a\x00b\")").outcome (initial false)).1 = .error .nulInPath := by
  refine ⟨fun _ => nofun, fun _ => rfl, ?_⟩
  decide +kernel

end Dialogue

end AmbLisp
