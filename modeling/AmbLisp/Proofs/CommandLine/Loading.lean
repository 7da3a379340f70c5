import AmbLisp.CommandLine.Shell
import AmbLisp.Proofs.Dialogue.Execute
import AmbLisp.Proofs.Dialogue.Survival
import AmbLisp.Proofs.Session.Printing

/-!
# Files in turn

The files of a command line are problems of one session. Either all of them are loaded, each in the
session that the one before it leaves behind (`Loads`), or one is the first that fails (`Stops`), and
then none behind it is run (`loads_or_stops`). What is printed are the texts of the problems, and one
line behind each file that is loaded (`Loads.printed`, `Stops.printed`). A file that fails is complained
about, unless it fails for a reason from outside (`Stops.intrudes`).
-/

namespace AmbLisp.CommandLine

open Session Dialogue

/-- Runs a file as a problem. -/
def runFile (cfg : Setting) (file : String) : Request Value := do
  Session.run cfg (← fileProgram cfg file)

/-- The line that is printed behind a file. -/
def loadedLine (file : String) : String :=
  "; Loaded " ++ file

/-- Runs a file and prints the line behind it. -/
def loadFile (cfg : Setting) (file : String) : Request Unit := do
  let _ ← runFile cfg file
  say cfg.toHost (loadedLine file)

/-- The complaint about a file. -/
def complaint (file : String) (fault : Fault) : String :=
  "Error loading " ++ file ++ ": " ++ fault.message ++ "\n"

/-- What is printed in all when files are loaded that print these pages. -/
def loadedTexts (files : List String) (pages : List (List String)) : List String :=
  interleave pages (files.map loadedLine)

/-- Files are loaded in turn. They print these pages and leave this session behind. -/
inductive Loads (cfg : Setting) :
    Session → List String → List (List String) → Session → Prop
  | nil (s : Session) : Loads cfg s [] [] s
  | cons {s s₁ s' : Session} {file : String} {files : List String} {pages : List (List String)}
    (hfile : (loadFile cfg file).outcome s = (.ok (), s₁))
    (hfiles : Loads cfg s₁ files pages s') :
    Loads cfg s (file :: files) (texts (runFile cfg file) s :: pages) s'

/-- One of the files is the first that fails, with this fault. By then these texts have been printed, and
this is the session that it leaves behind. -/
inductive Stops (cfg : Setting) :
    Session → List String → List String → String → Fault → Session → Prop
  | behind {s s₁ s' : Session} {before later : List String} {pages : List (List String)}
    {file : String} {fault : Fault} (hbefore : Loads cfg s before pages s₁)
    (hfile : (loadFile cfg file).outcome s₁ = (.error fault, s')) :
    Stops cfg s (before ++ file :: later)
      (loadedTexts before pages ++ texts (runFile cfg file) s₁) file fault s'

variable {cfg : Setting} {s s₁ s' : Session} {file : String} {files shown : List String}
  {pages : List (List String)} {v : Value} {fault : Fault}

theorem ignoresPrinted_runFile (cfg : Setting) (file : String) : IgnoresPrinted (runFile cfg file) :=
  (ignoresPrinted_fileProgram file).bind (ignoresPrinted_run cfg)

/-- Either all files are loaded, or there is a first one that fails. -/
theorem loads_or_stops (cfg : Setting) (s : Session) (files : List String) :
    (∃ pages s', Loads cfg s files pages s') ∨
      ∃ shown file fault s', Stops cfg s files shown file fault s' := by
  induction files generalizing s with
  | nil => exact .inl ⟨_, _, .nil s⟩
  | cons file files ih =>
    rcases hfile : (loadFile cfg file).outcome s with ⟨fault | _, s₁⟩
    · exact .inr ⟨_, _, _, _, .behind (.nil s) hfile⟩
    · rcases ih s₁ with ⟨pages, s', h⟩ | ⟨_, _, _, _, h⟩
      · exact .inl ⟨_, _, .cons hfile h⟩
      · cases h with
        | behind hbefore hfails => exact .inr ⟨_, _, _, _, .behind (.cons hfile hbefore) hfails⟩

/-! ## One file -/

/-- A file is loaded if it has a value and the line behind it can be written. -/
theorem outcome_loadFile (cfg : Setting) (file : String) (s : Session) :
    (loadFile cfg file).outcome s =
      match (runFile cfg file).outcome s with
      | (.ok _, s₁) =>
        match cfg.encode (loadedLine file) with
        | .ok _ => (.ok (), said (loadedLine file) s₁)
        | .error fault => (.error fault, s₁)
      | (.error fault, s₁) => (.error fault, s₁) := by
  rw [loadFile, ExceptT.outcome_bind]
  rcases (runFile cfg file).outcome s with ⟨fault | v, s₁⟩
  · rfl
  · exact outcome_say cfg.toHost (loadedLine file) s₁

/-- What a file that is loaded has printed. -/
theorem printed_loadFile (h : (loadFile cfg file).outcome s = (.ok (), s')) :
    s'.printed.reverse =
      s.printed.reverse ++ (texts (runFile cfg file) s ++ [loadedLine file ++ "\n"]) := by
  rw [outcome_loadFile] at h
  rcases hrun : (runFile cfg file).outcome s with ⟨fault | v, s₁⟩ <;> rw [hrun] at h
  · cases h
  · have hprinted := printed_behind (ignoresPrinted_runFile cfg file) hrun
    dsimp only at h
    cases hencode : cfg.encode (loadedLine file) with
    | error fault => rw [hencode] at h; cases h
    | ok text =>
      rw [hencode] at h
      cases h
      rw [printed_said, hprinted, List.append_assoc]

/-- A file that fails has printed the texts of its problem. -/
theorem printed_loadFile_error (h : (loadFile cfg file).outcome s = (.error fault, s')) :
    s'.printed.reverse = s.printed.reverse ++ texts (runFile cfg file) s := by
  rw [outcome_loadFile] at h
  rcases hrun : (runFile cfg file).outcome s with ⟨fault | v, s₁⟩ <;> rw [hrun] at h
  · cases h
    exact printed_behind (ignoresPrinted_runFile cfg file) hrun
  · dsimp only at h
    cases hencode : cfg.encode (loadedLine file) with
    | error fault =>
      rw [hencode] at h
      cases h
      exact printed_behind (ignoresPrinted_runFile cfg file) hrun
    | ok text => rw [hencode] at h; cases h

/-! ## What becomes of files -/

/-- One step of loading. -/
theorem outcome_loadFiles_cons (cfg : Setting) (file : String) (files : List String) (s : Session) :
    (loadFiles cfg (file :: files)).outcome s =
      match (loadFile cfg file).outcome s with
      | (.ok (), s₁) => (loadFiles cfg files).outcome s₁
      | (.error fault, s₁) =>
        (if fault.kind = .outside then .error fault else .ok (some (complaint file fault)), s₁) := by
  have hattempt : (attempt (do Session.run cfg (← fileProgram cfg file))).outcome s =
      (.ok ((runFile cfg file).outcome s).1, ((runFile cfg file).outcome s).2) := rfl
  rw [loadFiles, ExceptT.outcome_bind, hattempt, outcome_loadFile]
  rcases (runFile cfg file).outcome s with ⟨fault | v, s₁⟩
  · dsimp only
    split <;> rfl
  · have hsay := outcome_say cfg.toHost ("; Loaded " ++ file) s₁
    dsimp only
    rw [ExceptT.outcome_bind, hsay, loadedLine]
    rcases cfg.encode_cases ("; Loaded " ++ file) with hencode | ⟨c, -, hencode⟩
    · rw [hencode]
    · rw [hencode]
      rfl

/-- Behind files that are loaded, others follow. -/
theorem Loads.outcome (h : Loads cfg s files pages s') (rest : List String) :
    (loadFiles cfg (files ++ rest)).outcome s = (loadFiles cfg rest).outcome s' := by
  induction h with
  | nil s => rfl
  | cons hfile _ ih =>
    rw [List.cons_append, outcome_loadFiles_cons, hfile]
    exact ih

theorem Loads.outcome_all (h : Loads cfg s files pages s') :
    (loadFiles cfg files).outcome s = (.ok none, s') := by
  have hall := h.outcome []
  rw [List.append_nil] at hall
  exact hall

/-- A file that fails is the last one that is run. -/
theorem Stops.outcome (h : Stops cfg s files shown file fault s') :
    (loadFiles cfg files).outcome s =
      (if fault.kind = .outside then .error fault else .ok (some (complaint file fault)), s') := by
  cases h with
  | behind hbefore hfile => rw [hbefore.outcome, outcome_loadFiles_cons, hfile]

/-! ## What is printed -/

theorem loadedTexts_cons (file : String) (files page : List String) (pages : List (List String)) :
    loadedTexts (file :: files) (page :: pages) =
      page ++ [loadedLine file ++ "\n"] ++ loadedTexts files pages := rfl

theorem Loads.printed (h : Loads cfg s files pages s') :
    s'.printed.reverse = s.printed.reverse ++ loadedTexts files pages := by
  induction h with
  | nil s => exact (List.append_nil _).symm
  | cons hfile _ ih => rw [ih, printed_loadFile hfile, loadedTexts_cons, List.append_assoc]

theorem Stops.printed (h : Stops cfg s files shown file fault s') :
    s'.printed.reverse = s.printed.reverse ++ shown := by
  cases h with
  | behind hbefore hfile =>
    rw [printed_loadFile_error hfile, hbefore.printed, List.append_assoc]

/-! ## How files fail -/

section

variable {A : Value → Prop} (hA : Value.HasConstants A) (hhost : cfg.toHost.MadeOf A)
  (hhad : ∀ path, cfg.disk path ≠ .pending)

include hA hhost hhad

/-- To run a file makes no atoms, and it fails for a plain reason or for one from outside, if its path is
of a kind. -/
theorem runFile_madeOf (hs : s.MadeOf A) (hpath : A (.str file)) :
    let out := (runFile cfg file).outcome s
    out.2.MadeOf A ∧
      Fails (fun fault => fault.kind ≠ .outside ∨ Intrudes A cfg.toHost fault) out.1 := by
  rw [runFile, ExceptT.outcome_bind, outcome_fileProgram]
  cases hforms : Loader.fileForms cfg.toHost file with
  | error fault =>
    refine ⟨hs, fails_error ?_⟩
    exact ((Loader.reports_fileForms _ _ _ hforms).plain_or_intrudes hhad hpath).imp
      Fault.IsPlain.not_outside id
  | ok forms =>
    have hexpr := Value.madeOf_sequence hA.sequence (hhost file forms hforms)
    refine ⟨(madeOf_run hA hhost hs hexpr).1, fun fault hf => ?_⟩
    rcases error_run hA hhost hs hexpr hf with rfl | rfl | h
    · exact .inr .tooManyPasses
    · exact .inl nofun
    · exact (h.plain_or_intrudes hhad).imp Fault.IsPlain.not_outside id

theorem loadFile_madeOf (hs : s.MadeOf A) (hpath : A (.str file)) :
    let out := (loadFile cfg file).outcome s
    out.2.MadeOf A ∧
      Fails (fun fault => fault.kind ≠ .outside ∨ Intrudes A cfg.toHost fault) out.1 := by
  obtain ⟨hbehind, hfails⟩ := runFile_madeOf hA hhost hhad hs hpath
  rw [outcome_loadFile]
  rcases hrun : (runFile cfg file).outcome s with ⟨fault | v, s₁⟩ <;> rw [hrun] at hbehind hfails
  · exact ⟨hbehind, fails_error (hfails fault rfl)⟩
  · rcases cfg.encode_cases (loadedLine file) with hencode | ⟨c, hc, hencode⟩
    · rw [hencode]
      exact ⟨⟨hbehind.store, hbehind.problem⟩, fails_ok ()⟩
    · rw [hencode]
      exact ⟨hbehind, fails_error (.inr (.unencodable hc))⟩

theorem Loads.madeOf (h : Loads cfg s files pages s') (hfiles : ∀ file ∈ files, A (.str file))
    (hs : s.MadeOf A) : s'.MadeOf A := by
  induction h with
  | nil s => exact hs
  | cons hfile _ ih =>
    rw [List.forall_mem_cons] at hfiles
    obtain ⟨hbehind, -⟩ := loadFile_madeOf hA hhost hhad hs hfiles.1
    rw [hfile] at hbehind
    exact ih hfiles.2 hbehind

/-- The first file that fails is complained about, or it fails for a reason from outside. -/
theorem Stops.intrudes (h : Stops cfg s files shown file fault s')
    (hfiles : ∀ file ∈ files, A (.str file)) (hs : s.MadeOf A) (hkind : fault.kind = .outside) :
    Intrudes A cfg.toHost fault := by
  cases h with
  | behind hbefore hfile =>
    rw [List.forall_mem_append, List.forall_mem_cons] at hfiles
    obtain ⟨-, hfails⟩ :=
      loadFile_madeOf hA hhost hhad (hbefore.madeOf hA hhost hhad hfiles.1 hs) hfiles.2.1
    rw [hfile] at hfails
    exact (hfails fault rfl).resolve_left (not_not.2 hkind)

end

/-- What the first file that fails is not complained about is left to the caller. -/
theorem Stops.uncaught (hhad : ∀ path, cfg.disk path ≠ .pending)
    (h : Stops cfg s files shown file fault s') (hkind : fault.kind = .outside) :
    Uncaught cfg.toHost fault :=
  (h.intrudes Value.hasConstants_any cfg.toHost.madeOf_any hhad (fun _ _ => trivial) (madeOf_any s)
    hkind).uncaught

end AmbLisp.CommandLine
