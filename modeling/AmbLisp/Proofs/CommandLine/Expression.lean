import Mathlib.Data.Prod.Basic
import AmbLisp.Proofs.CommandLine.Loading
import AmbLisp.Proofs.Dialogue.Printing

/-!
# Command lines with an expression

A command line with an expression loads its files in turn and, if none fails, executes the expression
in the session that they leave behind; nothing is read from the input (`expression_run`). There are two
exceptions. An empty expression counts as none, so a dialogue follows where it would follow without one;
and what is not answered ends the program with a fault.
-/

namespace AmbLisp.CommandLine

open Session Dialogue

/-- How the program ends behind an execution or a dialogue. -/
def Ending.ofResult : Except Fault Unit → Ending
  | .ok () => .exit 0
  | .error why => .fault why

/-- Whatever is entered, the program ends like this at a session that has printed these texts. -/
structure Leaves (cfg : Setting) (argv : List String) (least : Nat) (s : Session)
    (shown : List String) (ending : Ending) (complaint : String) : Prop where
  report : ∀ time input, run cfg time argv input = report time least s ending complaint
  output : s.output = String.join shown

variable {cfg : Setting} {argv : List String} {o : Options} {source : String} {least : Nat}
  {s s' : Session} {shown : List String} {pages : List (List String)} {file : String} {fault : Fault}

theorem Leaves.stdout {ending : Ending} {complaint : String}
    (h : Leaves cfg argv least s shown ending complaint) (time input : String) :
    (run cfg time argv input).stdout = String.join shown := by
  rw [h.report]
  exact h.output

theorem Leaves.ending {ending : Ending} {complaint : String}
    (h : Leaves cfg argv least s shown ending complaint) (time input : String) :
    (run cfg time argv input).ending = ending := by
  rw [h.report]
  rfl

/-! ## What is carried out -/

theorem outcome_perform_stops (h : Stops cfg s o.files shown file fault s') :
    (perform cfg o).outcome s =
      (if fault.kind = .outside then .error fault else .ok (.stop 1 (complaint file fault)), s') := by
  rw [perform, ExceptT.outcome_bind, h.outcome]
  by_cases hkind : fault.kind = .outside
  · rw [if_pos hkind, if_pos hkind]
  · rw [if_neg hkind, if_neg hkind]
    rfl

/-- An empty expression is not executed. -/
theorem outcome_perform_loads (hsource : o.execute = some source)
    (h : Loads cfg s o.files pages s') :
    (perform cfg o).outcome s =
      if source ≠ "" then
        let out := (execute cfg source o.all).outcome s'
        (out.1.map fun _ => .stop 0 "", out.2)
      else (.ok (if o.files ≠ [] ∧ o.interactive = false then .stop 0 "" else .converse), s') := by
  rw [perform, ExceptT.outcome_bind, h.outcome_all, hsource]
  dsimp only [Option.getD_some]
  split
  · rw [ExceptT.outcome_bind]
    rcases (execute cfg source o.all).outcome s' with ⟨_ | _, _⟩ <;> rfl
  · by_cases hends : o.files ≠ [] ∧ o.interactive = false
    · have htest : (!o.files.isEmpty && !o.interactive) = true := by simpa using hends
      rw [if_pos hends, if_pos htest]
      rfl
    · have htest : ¬ (!o.files.isEmpty && !o.interactive) = true := by simpa using hends
      rw [if_neg hends, if_neg htest]
      rfl

theorem run_eq (hargv : Command.parse argv = .run o) (hlevel : threshold o.logLevel = .ok least)
    (cfg : Setting) (time input : String) :
    run cfg time argv input =
      match (perform cfg o).outcome (openSession o) with
      | (.ok (.stop code complaint), s) => report time least s (.exit code) complaint
      | (.ok .converse, s) =>
        let out := (converse cfg (inputLines input)).outcome s
        report time least out.2 (.ofResult out.1) ""
      | (.error fault, s) => report time least s (.fault fault) "" := by
  rw [run, hargv]
  dsimp only
  rw [hlevel]
  unfold ExceptT.outcome
  dsimp only
  rcases (perform cfg o).run.run (openSession o) with ⟨fault | _ | ⟨code, complaint⟩, s⟩
  · rfl
  · dsimp only
    rcases (converse cfg (inputLines input)).run.run s with ⟨_ | _, _⟩ <;> rfl
  · rfl

theorem outcome_execute_empty (cfg : Setting) (all : Bool) (s : Session) :
    (execute cfg "" all).outcome s = (.ok (), s) := by
  rw [execute, ExceptT.outcome_bind, outcome_answer_blank (by decide)]
  rfl

/-- What is printed in all behind texts that have been printed. -/
theorem output_behind {act : Request Unit} (hact : IgnoresPrinted act)
    (hs : s.printed.reverse = shown) :
    (act.outcome s).2.output = String.join (shown ++ texts act s) := by
  rw [output, hact.printed, List.reverse_append, List.reverse_reverse, hs]

/-! ## How the program ends -/

section

variable (hargv : Command.parse argv = .run o) (hlevel : threshold o.logLevel = .ok least)

include hargv hlevel

/-- Behind a file that fails nothing else is carried out. -/
theorem leaves_of_stops (h : Stops cfg (openSession o) o.files shown file fault s') :
    (fault.kind ≠ .outside → Leaves cfg argv least s' shown (.exit 1) (complaint file fault)) ∧
      (fault.kind = .outside → Leaves cfg argv least s' shown (.fault fault) "") := by
  have hperform := outcome_perform_stops h
  have houtput : s'.output = String.join shown := congrArg String.join h.printed
  refine ⟨fun hkind => ⟨fun time input => ?_, houtput⟩, fun hkind => ⟨fun time input => ?_, houtput⟩⟩
  · rw [run_eq hargv hlevel, hperform, if_neg hkind]
  · rw [run_eq hargv hlevel, hperform, if_pos hkind]

/-- Behind files that are loaded an expression is executed. An empty one is not, which makes no
difference as long as nothing follows. -/
theorem leaves_of_loads (hsource : o.execute = some source)
    (h : Loads cfg (openSession o) o.files pages s')
    (hends : source ≠ "" ∨ o.files ≠ [] ∧ o.interactive = false) :
    let out := (execute cfg source o.all).outcome s'
    Leaves cfg argv least out.2 (loadedTexts o.files pages ++ texts (execute cfg source o.all) s')
      (.ofResult out.1) "" := by
  intro out
  have hperform : (perform cfg o).outcome (openSession o) = (out.1.map fun _ => .stop 0 "", out.2) := by
    rw [outcome_perform_loads hsource h]
    by_cases hempty : source = ""
    · have hout : out = (.ok (), s') := by
        change (execute cfg source o.all).outcome s' = _
        rw [hempty, outcome_execute_empty]
      rw [if_neg (not_not.2 hempty), if_pos (hends.resolve_left (not_not.2 hempty)), hout]
      rfl
    · rw [if_pos hempty]
  refine ⟨fun time input => ?_, output_behind (ignoresPrinted_execute _ _ _) h.printed⟩
  rw [run_eq hargv hlevel, hperform]
  rcases out with ⟨_ | _, _⟩ <;> rfl

/-- Behind files that are loaded the user is prompted if there is no expression but an empty one. -/
theorem prompts_of_loads (hsource : o.execute = some "")
    (h : Loads cfg (openSession o) o.files pages s')
    (hopen : o.files = [] ∨ o.interactive = true) (time input : String) :
    let out := (converse cfg (inputLines input)).outcome s'
    run cfg time argv input = report time least out.2 (.ofResult out.1) "" ∧
      ∃ rest, out.2.output = String.join (loadedTexts o.files pages ++ prompt :: rest) := by
  intro out
  have hopen' : ¬ (o.files ≠ [] ∧ o.interactive = false) := by
    rintro ⟨hfiles, hinteractive⟩
    rcases hopen with hnil | htrue
    · exact hfiles hnil
    · cases hinteractive.symm.trans htrue
  obtain ⟨rest, hrest⟩ := texts_converse cfg (inputLines input) s'
  refine ⟨?_, rest, hrest ▸ output_behind (ignoresPrinted_converse _ _) h.printed⟩
  rw [run_eq hargv hlevel, outcome_perform_loads hsource h, if_neg (not_not.2 rfl), if_neg hopen']

end

theorem nulFree_openSession (o : Options) : (openSession o).NulFree :=
  ⟨(nulFree_initial !o.noPrelude).store, (nulFree_initial !o.noPrelude).problem⟩

/-- **Command lines with an expression.** If the level of the journal has no meaning, nothing is carried
out. Otherwise the files are loaded in turn, and there are three ways to go on.

* A file is the first that fails. The program ends there, and its output is what the files have printed,
  with a line behind each that was loaded. The file is complained about and the exit code is 1, unless
  the fault comes from outside and is not answered.
* All files are loaded, and what the execution of the expression prints in the session behind them
  follows; then the program ends. So it does if the expression is empty and there would be no dialogue.
* All files are loaded, the expression is empty and there would be a dialogue: then there is one.

The faults that are not answered are known if all files can be had. If the host is clean and no NUL
character and no numeral that is too long comes in with the command line, two of them are left: a value
of the expression is nested too deeply to be printed, or a search or a listing goes on too long. -/
theorem expression_run (hhad : ∀ path, cfg.disk path ≠ .pending)
    (hargv : Command.parse argv = .run o) (hsource : o.execute = some source) :
    (∀ why, threshold o.logLevel = .error why →
      ∀ time input, run cfg time argv input = { ending := .level why }) ∧
    ∀ least, threshold o.logLevel = .ok least →
      let s := openSession o
      ((∃ shown file fault s', Stops cfg s o.files shown file fault s') ∨
        ∃ pages s', Loads cfg s o.files pages s') ∧
      (∀ shown file fault s', Stops cfg s o.files shown file fault s' →
        (fault.kind ≠ .outside → Leaves cfg argv least s' shown (.exit 1) (complaint file fault)) ∧
        (fault.kind = .outside → Uncaught cfg.toHost fault ∧
          Leaves cfg argv least s' shown (.fault fault) "")) ∧
      (∀ pages s', Loads cfg s o.files pages s' →
        let out := (execute cfg source o.all).outcome s'
        let shown := loadedTexts o.files pages
        (out.1 = .ok () ∨ ∃ fault, Uncaught cfg.toHost fault ∧ out.1 = .error fault) ∧
        (source ≠ "" ∨ o.files ≠ [] ∧ o.interactive = false →
          Leaves cfg argv least out.2 (shown ++ texts (execute cfg source o.all) s')
            (.ofResult out.1) "") ∧
        (source = "" → o.files = [] ∨ o.interactive = true → ∀ time input,
          let out := (converse cfg (inputLines input)).outcome s'
          run cfg time argv input = report time least out.2 (.ofResult out.1) "" ∧
            ∃ rest, out.2.output = String.join (shown ++ prompt :: rest))) ∧
      (cfg.toHost.Clean → (∀ file ∈ o.files, Text.MadeOf NotNul file) →
        Text.Clean (Text.trim source) →
        (∀ shown file fault s', Stops cfg s o.files shown file fault s' →
          fault.kind ≠ .outside ∨ fault = .tooManyPasses) ∧
        ∀ pages s', Loads cfg s o.files pages s' →
          let out := (execute cfg source o.all).outcome s'
          out.1 = .ok () ∨ out.1 = .error .tooDeep ∨ out.1 = .error .tooManyPasses) := by
  refine ⟨fun why hlevel time input => ?_, fun least hlevel => ?_⟩
  · rw [run, hargv]
    dsimp only
    rw [hlevel]
  intro s
  have hs : s.NulFree := nulFree_openSession o
  refine ⟨(loads_or_stops cfg s o.files).symm, fun shown file fault s' h => ?_,
    fun pages s' h => ?_, fun hhost hfiles hclean => ⟨fun shown file fault s' h => ?_,
    fun pages s' h => ?_⟩⟩
  · obtain ⟨hcomplaint, houtside⟩ := leaves_of_stops hargv hlevel h
    exact ⟨hcomplaint, fun hkind => ⟨h.uncaught hhad hkind, houtside hkind⟩⟩
  · refine ⟨execute_ok_or_uncaught hhad source o.all s', leaves_of_loads hargv hlevel hsource h, ?_⟩
    rintro rfl hopen
    exact prompts_of_loads hargv hlevel hsource h hopen
  · by_cases hkind : fault.kind = .outside
    · have hintrudes := h.intrudes (Value.hasConstants_spells NotNul) hhost.madeOf hhad hfiles hs hkind
      exact .inr (hintrudes.of_clean hhost)
    · exact .inl hkind
  · have hs' := h.madeOf (Value.hasConstants_spells NotNul) hhost.madeOf hhad hfiles hs
    have hfails := execute_of_clean hhad hhost hs' hclean o.all
    intro out
    cases hresult : out.1 with
    | ok => exact .inl rfl
    | error fault => exact .inr ((hfails fault hresult).imp (congrArg _) (congrArg _))

/-- Two files with an expression behind them; the second file fails, and the third is not run. And the
first file alone. -/
theorem expression_run_fault :
    let bytes (text : String) : List UInt8 := text.toList.map fun c => .ofNat c.toNat
    let cfg : Setting := {
      disk := fun path =>
        if path = "a" then .content (bytes "(define x (println 1))")
        else if path = "b" then .content (bytes "(println x) (car x)")
        else .refused .noSuchFile
      depth := 8
      passes := 8 }
    let failed := run cfg "12:00" ["a", "b", "c", "-e", "x", "--no-prelude"] "2\n"
    let executed := run cfg "12:00" ["a", "-ie", "x", "--no-prelude"] "2\n"
    failed.stdout = "1\n; Loaded a\n1\n" ∧ failed.ending = .exit 1 ∧
      executed.stdout = "1\n; Loaded a\n1\n" ∧ executed.ending = .exit 0 := by
  intro bytes cfg failed executed
  have hhad : ∀ path, cfg.disk path ≠ .pending := by
    intro path
    dsimp only [cfg]
    split
    · exact nofun
    · split <;> exact nofun
  let o : Options := { files := ["a", "b", "c"], execute := some "x", noPrelude := true }
  let o' : Options := { o with files := ["a"], interactive := true }
  let s := openSession o
  let s₁ := ((loadFile cfg "a").outcome s).2
  obtain ⟨u, hu, -⟩ : ∃ u : Unit, ((loadFile cfg "a").outcome s).1 = .ok u ∧ u = () :=
    Except.exists_ok_of_map (f := id) (by decide +kernel)
  have hloads : Loads cfg s ["a"] [texts (runFile cfg "a") s] s₁ :=
    .cons (Prod.fst_eq_iff.1 hu) (.nil _)
  obtain ⟨fault, hfault, hkind⟩ : ∃ fault, ((loadFile cfg "b").outcome s₁).1 = .error fault ∧
      fault.kind = .wrongType := exists_error_of_kind (by decide +kernel)
  have hstops : Stops cfg s o.files _ "b" fault _ := .behind hloads (Prod.fst_eq_iff.1 hfault)
  have hanswered : fault.kind ≠ .outside := fun h => nomatch hkind.symm.trans h
  have hargv : Command.parse ["a", "b", "c", "-e", "x", "--no-prelude"] = .run o := by decide +kernel
  have hargv' : Command.parse ["a", "-ie", "x", "--no-prelude"] = .run o' := by decide +kernel
  have hlevel : threshold (some "WARNING") = .ok Level.warning.weight := by decide +kernel
  obtain ⟨-, hfails, -⟩ := (expression_run hhad hargv rfl).2 _ hlevel
  obtain ⟨-, -, hexecutes, -⟩ := (expression_run hhad hargv' rfl).2 _ hlevel
  have hfailed := (hfails _ _ _ _ hstops).1 hanswered
  have hexecuted := (hexecutes _ _ hloads).2.1 (.inl (by decide))
  exact ⟨(hfailed.stdout _ _).trans (by decide +kernel), hfailed.ending _ _,
    (hexecuted.stdout _ _).trans (by decide +kernel),
    (hexecuted.ending _ _).trans (by decide +kernel)⟩

/-- Not every expression is executed: at an empty one the user is prompted. -/
theorem empty_expression_prompts :
    ¬ ∀ (cfg : Setting) (time input : String) (argv : List String) (o : Options) (source : String),
      (∀ path, cfg.disk path ≠ .pending) → (∀ c, cfg.encodes c = true) →
      Command.parse argv = .run o → o.execute = some source → o.files = [] →
      (run cfg time argv input).stdout =
        String.join (texts (execute cfg source o.all) (openSession o)) := by
  intro h
  let cfg : Setting := { depth := 8, passes := 8 }
  let o : Options := { execute := some "" }
  have hargv : Command.parse ["-e", ""] = .run o := by decide +kernel
  have hlevel : threshold o.logLevel = .ok Level.warning.weight := by decide +kernel
  have hstdout := h cfg "" "7\n" ["-e", ""] o "" (fun _ => nofun) (fun _ => rfl) hargv rfl rfl
  have hloads : Loads cfg (openSession o) o.files [] (openSession o) := .nil _
  obtain ⟨hrun, rest, hrest⟩ := prompts_of_loads hargv hlevel rfl hloads (.inl rfl) "" "7\n"
  have htexts : texts (execute cfg "" o.all) (openSession o) = [] := by
    rw [texts, outcome_execute_empty]
    rfl
  rw [hrun, htexts] at hstdout
  have hjoin : String.join (prompt :: rest) = "" := hrest.symm.trans hstdout
  rw [String.join_cons, String.append_eq_empty_iff] at hjoin
  exact absurd hjoin.1 (by decide)

end AmbLisp.CommandLine
