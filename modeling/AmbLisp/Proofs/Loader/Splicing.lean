import AmbLisp.Disk.Folder
import AmbLisp.Proofs.Eval.InStep
import AmbLisp.Proofs.Loader.Forms

/-!
# A file in the middle of an evaluation

To load a file is to evaluate its forms where the evaluation stands (`load_splices`): in the same
scope, along the same trail, with the same output. All that tells the two apart is one event in the
journal, and the nesting that loading takes. A file that cannot be read has no effect.
-/

namespace AmbLisp

/-! ## One event more -/

/-- The second world is the first one without an event, which was noted right behind this journal. -/
def World.Lacks (event : Event) (journal : List Event) (w w' : World) : Prop :=
  ∃ events, w'.journal = events ++ journal ∧
    w = { w' with journal := events ++ event :: journal }

variable {event : Event} {journal : List Event}

theorem World.lacks_note (event : Event) (w : World) :
    World.Lacks event w.journal { w with journal := event :: w.journal } w :=
  ⟨[], rfl, rfl⟩

theorem World.congruence_lacks (event : Event) (journal : List Event) :
    World.Congruence (World.Lacks event journal) where
  store := by
    rintro w w' ⟨events, -, rfl⟩
    rfl
  setStore := by
    rintro w w' τ ⟨events, hjournal, rfl⟩
    exact ⟨events, hjournal, rfl⟩
  note := by
    rintro w w' event ⟨events, hjournal, rfl⟩
    exact ⟨event :: events, congrArg (event :: ·) hjournal, rfl⟩
  print := by
    rintro w w' lines ⟨events, hjournal, rfl⟩
    exact ⟨events, hjournal, rfl⟩

theorem Run.inStep_choose_lacks (cs : List Value) :
    (Run.chooseBy Trail.choose cs).InStep (World.Lacks event journal)
      (Run.chooseBy Trail.choose cs) := by
  rintro w w' ⟨events, hjournal, rfl⟩
  rw [outcome_chooseBy, outcome_chooseBy]
  refine ⟨rfl, (w'.trail.choiceEvent? cs).toList ++ events, ?_, ?_⟩
  · rw [hjournal, List.append_assoc]
  · rw [List.append_assoc]

/-- An evaluation does not see what has been noted. -/
theorem evaluate_lacks (event : Event) (journal : List Event) (host : Host) (n : Nat) :
    (evaluate host n).InStep (World.Lacks event journal) (evaluate host n) := by
  have hstep := inStep_evaluateBy (World.congruence_lacks event journal)
    Run.inStep_choose_lacks host n
  rwa [evaluateBy_choose] at hstep

/-- Nested more deeply it comes to the same. -/
theorem evaluate_lacks_deeper (event : Event) (journal : List Event) (host : Host) {n m : Nat}
    (h : n ≤ m) :
    (evaluate host n).InStepUnless (· = .tooDeep) (World.Lacks event journal) (evaluate host m) := by
  have hstep := evaluateBy_inStep_deeper (World.congruence_lacks event journal)
    Run.inStep_choose_lacks host h
  rwa [evaluateBy_choose, evaluateBy_choose] at hstep

/-! ## Loading -/

/-- From this world on, the first run came to what the second one did, but noted an event first. -/
structure Splices (event : Event) (w : World) (out out' : Except Fault Value × World) : Prop where
  result : out.1 = out'.1
  behind : World.Lacks event w.journal out.2 out'.2

/-- The form that loads the file at a path. -/
def Value.loading (path : String) : Value :=
  .list [.sym "load", .str path]

theorem Evaluator.sequence_append (ev : Evaluator) (e : ScopeId) (v : Value) (xs ys : List Value) :
    ev.sequence e v (xs ++ ys) = ev.sequence e v xs >>= fun v => ev.sequence e v ys := by
  induction xs generalizing v with
  | nil => exact (pure_bind (m := Run) v (ev.sequence e · ys)).symm
  | cons x xs ih =>
    rw [List.cons_append, Evaluator.sequence, Evaluator.sequence, bind_assoc]
    exact congrArg (ev x e >>= ·) (funext ih)

variable {host : Host} {path : String} {e : ScopeId} {forms : List Value} {n : Nat}

theorem evaluate_sequence (host : Host) (n : Nat) (exprs : List Value) (e : ScopeId) :
    evaluate host (n + 1) (.sequence exprs) e = (evaluate host n).sequence e .nil exprs := rfl

/-- To load a file takes two levels of nesting. -/
theorem evaluate_loading_shallow (host : Host) (n : Nat) (path : String) (e : ScopeId) :
    evaluate host n (.loading path) e = throw .tooDeep ∨ ∃ k, n = k + 2 := by
  match n with
  | 0 | 1 => exact .inl rfl
  | k + 2 => exact .inr ⟨k, rfl⟩

theorem evaluate_loading_load (host : Host) (n : Nat) (path : String) (e : ScopeId) :
    evaluate host (n + 2) (.loading path) e =
      (evaluate host (n + 1)).load host e path >>= fun _ => pure .nil := rfl

theorem evaluate_loading_error {fault : Fault} (h : Loader.fileForms host path = .error fault)
    (n : Nat) : evaluate host (n + 2) (.loading path) e = throw fault := by
  rw [evaluate_loading_load, Evaluator.load, h]
  rfl

theorem evaluate_loading (h : Loader.fileForms host path = .ok forms) (n : Nat) :
    evaluate host (n + 2) (.loading path) e = do
      Run.note (.loading path forms.length)
      let _ ← (evaluate host n).sequence e .nil forms
      return .nil := by
  rw [evaluate_loading_load, Evaluator.load, h]
  simp only [bind_assoc, evaluate_sequence]

/-- The forms of a file and `#nil`, and what comes behind them. -/
theorem evaluate_spliced (host : Host) (n : Nat) (e : ScopeId) (forms rest : List Value) :
    evaluate host (n + 2) (.sequence (forms ++ .nil :: rest)) e =
      (evaluate host (n + 1)).sequence e .nil forms >>= fun _ =>
        (evaluate host (n + 1)).sequence e .nil rest := by
  rw [evaluate_sequence, Evaluator.sequence_append]
  rfl

/-- The event of loading is all that sets the two runs apart, whatever comes behind the forms. -/
theorem splices_of_inStep {excuse : Fault → Prop} {w : World} {ev ev' : Evaluator}
    {rest rest' : Run Value}
    (hev : ev.InStepUnless excuse (World.Lacks event w.journal) ev')
    (hrest : rest.InStepUnless excuse (World.Lacks event w.journal) rest')
    (hfault : ∀ fault, ((do
      Run.note event
      let _ ← ev.sequence e .nil forms
      rest : Run Value).outcome w).1 = .error fault → ¬ excuse fault) :
    Splices event w
      ((do
        Run.note event
        let _ ← ev.sequence e .nil forms
        rest : Run Value).outcome w)
      ((ev'.sequence e .nil forms >>= fun _ => rest').outcome w) := by
  have hstep := (Evaluator.inStep_sequence hev (e := e) forms .nil).bind fun _ => hrest
  obtain ⟨hresult, hbehind⟩ := hstep _ _ (World.lacks_note event w) hfault
  exact ⟨hresult.symm, hbehind⟩

section

variable (hforms : Loader.fileForms host path = .ok forms) (w : World)

include hforms

/-- Below the bound on nesting, the form that loads a file comes to what its forms come to. -/
theorem loading_splices (hdeep : ((evaluate host n (.loading path) e).outcome w).1 ≠ .error .tooDeep) :
    Splices (.loading path forms.length) w ((evaluate host n (.loading path) e).outcome w)
      ((evaluate host n (.sequence (forms ++ [.nil])) e).outcome w) := by
  rcases evaluate_loading_shallow host n path e with hshallow | ⟨n, rfl⟩
  · rw [hshallow] at hdeep
    exact absurd rfl hdeep
  · rw [evaluate_loading hforms] at hdeep ⊢
    rw [evaluate_spliced]
    refine splices_of_inStep (evaluate_lacks_deeper _ _ host (Nat.le_succ n)) (Run.inStep_pure _) ?_
    rintro fault hfault rfl
    exact hdeep hfault

/-- Nested one level more than its forms, the form comes to what they come to, whatever that is. -/
theorem loading_splices_nested (hn : 2 ≤ n) :
    Splices (.loading path forms.length) w ((evaluate host (n + 1) (.loading path) e).outcome w)
      ((evaluate host n (.sequence (forms ++ [.nil])) e).outcome w) := by
  obtain ⟨n, rfl⟩ : ∃ k, n = k + 2 := ⟨n - 2, by omega⟩
  rw [evaluate_loading hforms, evaluate_spliced]
  have hstep : (evaluate host (n + 1)).InStepUnless (fun _ => False)
      (World.Lacks (.loading path forms.length) w.journal) (evaluate host (n + 1)) :=
    fun v e => (evaluate_lacks _ _ host _ v e).unless
  exact splices_of_inStep hstep (Run.inStep_pure _) fun _ _ => not_false

/-- What comes behind in a sequence goes on from the forms of the file as from its own. -/
theorem loading_splices_before (rest : List Value)
    (hdeep : ((evaluate host n (.sequence (.loading path :: rest)) e).outcome w).1 ≠
      .error .tooDeep) :
    Splices (.loading path forms.length) w
      ((evaluate host n (.sequence (.loading path :: rest)) e).outcome w)
      ((evaluate host n (.sequence (forms ++ .nil :: rest)) e).outcome w) := by
  cases n with
  | zero => exact absurd rfl hdeep
  | succ n =>
    rw [evaluate_sequence, Evaluator.sequence] at hdeep ⊢
    rcases evaluate_loading_shallow host n path e with hshallow | ⟨n, rfl⟩
    · rw [hshallow] at hdeep
      exact absurd rfl hdeep
    · rw [evaluate_loading hforms] at hdeep ⊢
      simp only [bind_assoc, pure_bind] at hdeep ⊢
      rw [evaluate_spliced]
      have hrest := Evaluator.inStep_sequence (evaluate_lacks_deeper (.loading path forms.length)
        w.journal host (Nat.le_refl (n + 2))) (e := e) rest .nil
      refine splices_of_inStep (evaluate_lacks_deeper _ _ host (by omega)) hrest ?_
      rintro fault hfault rfl
      exact hdeep hfault

end

theorem loading_nil_or_error (host : Host) (n : Nat) (path : String) (e : ScopeId) (w : World) :
    ((evaluate host n (.loading path) e).outcome w).1 = .ok .nil ∨
      ∃ fault, ((evaluate host n (.loading path) e).outcome w).1 = .error fault := by
  rcases evaluate_loading_shallow host n path e with hshallow | ⟨n, rfl⟩
  · exact .inr ⟨.tooDeep, by rw [hshallow]; rfl⟩
  · rw [evaluate_loading_load, ExceptT.outcome_bind]
    rcases ((evaluate host (n + 1)).load host e path).outcome w with ⟨fault | v, w'⟩
    · exact .inr ⟨fault, rfl⟩
    · exact .inl rfl

/-- Loading that fails to read has no effect. -/
theorem loading_unread (host : Host) {path : String}
    (hunread : ∀ text forms, Loader.Holds host.disk path text →
      Reader.parseProgram text = .ok forms → host.readable < Value.nestingAll forms)
    (n : Nat) (e : ScopeId) (w : World) :
    ∃ fault, (evaluate host n (.loading path) e).outcome w = (.error fault, w) := by
  rcases evaluate_loading_shallow host n path e with hshallow | ⟨n, rfl⟩
  · exact ⟨.tooDeep, by rw [hshallow]; rfl⟩
  · cases hforms : Loader.fileForms host path with
    | error fault => exact ⟨fault, by rw [evaluate_loading_error hforms]; rfl⟩
    | ok forms =>
      obtain ⟨text, htext, hparse⟩ := Loader.fileForms_eq_ok.1 hforms
      obtain ⟨hparse, hnesting⟩ := Loader.programForms_eq_ok.1 hparse
      have hdeep := hunread text forms (Loader.sourceText_eq_ok.1 htext) hparse
      exact absurd hnesting (Nat.not_le.2 hdeep)

/-- **To load a file is to splice it into the evaluation.** If no forms can be read from it, or they are
nested too deeply to be read, the evaluation fails and leaves the world as it was. Otherwise, below the
bound on nesting, it comes to what the forms of the file come to with `#nil` behind them: to the same
fault or to `#nil`, with the same scopes, the same output and the same trail. One event in the journal
tells of the file. Loading takes one level of nesting more, and that is all that the bound has to do with
it. What comes behind in the enclosing sequence goes on from the forms of the file as from its own. A
source text is loaded as the sequence of its forms, or fails without an effect as well. -/
theorem load_splices (host : Host) (path : String) (e : ScopeId) (w : World) :
    ((∀ text forms, Loader.Holds host.disk path text → Reader.parseProgram text = .ok forms →
        host.readable < Value.nestingAll forms) →
      ∀ n, ∃ fault, (evaluate host n (.loading path) e).outcome w = (.error fault, w)) ∧
    (∀ text forms, Loader.Holds host.disk path text → Reader.parseProgram text = .ok forms →
      Value.nestingAll forms ≤ host.readable →
      (∀ n, let load := (evaluate host n (.loading path) e).outcome w
        load.1 ≠ .error .tooDeep →
          (load.1 = .ok .nil ∨ ∃ fault, load.1 = .error fault) ∧
          Splices (.loading path forms.length) w load
            ((evaluate host n (.sequence (forms ++ [.nil])) e).outcome w)) ∧
      (∀ n, 2 ≤ n →
        Splices (.loading path forms.length) w ((evaluate host (n + 1) (.loading path) e).outcome w)
          ((evaluate host n (.sequence (forms ++ [.nil])) e).outcome w)) ∧
      ∀ n rest, let outer := (evaluate host n (.sequence (.loading path :: rest)) e).outcome w
        outer.1 ≠ .error .tooDeep →
          Splices (.loading path forms.length) w outer
            ((evaluate host n (.sequence (forms ++ .nil :: rest)) e).outcome w)) ∧
    ∀ text n, let load := ((evaluate host n).loadSource host e text).outcome w
      (∀ forms, Reader.parseProgram text = .ok forms →
        (Value.nestingAll forms ≤ host.readable →
          load = (evaluate host n (.sequence forms) e).outcome w) ∧
        (host.readable < Value.nestingAll forms → load = (.error .tooDeep, w))) ∧
      ∀ err, Reader.parseProgram text = .error err →
        load = (.error (if Reader.programNesting text ≤ host.readable then .ofRead err else .tooDeep), w)
        := by
  refine ⟨fun hunread n => loading_unread host hunread n e w,
    fun text forms hholds hparse hnesting => ?_, fun text n => ⟨fun forms hparse => ⟨?_, ?_⟩, ?_⟩⟩
  · have hforms : Loader.fileForms host path = .ok forms := Loader.fileForms_eq_ok.2
      ⟨text, Loader.sourceText_eq_ok.2 hholds, Loader.programForms_eq_ok.2 ⟨hparse, hnesting⟩⟩
    refine ⟨fun n => ?_, fun n hn => loading_splices_nested hforms w hn, fun n rest => ?_⟩
    · exact fun hdeep => ⟨loading_nil_or_error host n path e w, loading_splices hforms w hdeep⟩
    · exact loading_splices_before hforms w rest
  · intro hnesting
    rw [Evaluator.loadSource, Loader.programForms_eq_ok.2 ⟨hparse, hnesting⟩]
  · intro hdeep
    rw [Evaluator.loadSource, Loader.programForms_tooDeep hparse hdeep]
    rfl
  · intro err hparse
    rw [Evaluator.loadSource, Loader.programForms_unread hparse]
    rfl

/-- A folder with one file, which chooses what to define. -/
def Disk.choosing : Disk :=
  (({} : Disk.Folder).insert "f" (.file "(define x (amb 1 2))".toUTF8.toList)).toDisk

/-- A world in which the first pass of a search has chosen the first of two alternatives. -/
def World.retried : World :=
  { store := { scopes := #[{}] }, trail := { ahead := [⟨[.int 1, .int 2], 0⟩] } }

/-- The `amb` of the file takes its second alternative in the second pass. -/
theorem load_splices_amb :
    let load := (evaluate Disk.choosing 8 (.loading "f") 0).outcome World.retried
    ∃ forms, Reader.parseProgram "(define x (amb 1 2))" = .ok forms ∧
      forms.map Value.print = ["(define x (amb 1 2))"] ∧ load.1 = .ok .nil ∧
      (load.2.store.lookup 0 "x").map Value.print = some "2" ∧
      Splices (.loading "f" forms.length) World.retried load
        ((evaluate Disk.choosing 8 (.sequence (forms ++ [.nil])) 0).outcome World.retried) := by
  intro load
  have hholds : Loader.Holds Disk.choosing "f" "(define x (amb 1 2))" :=
    ⟨by decide, "(define x (amb 1 2))".toUTF8.toList, "(define x (amb 1 2))".toList, rfl,
      by decide +kernel, by decide +kernel⟩
  obtain ⟨forms, hparse, hforms⟩ : ∃ forms, Reader.parseProgram "(define x (amb 1 2))" = .ok forms ∧
      (forms.map Value.print, Value.nestingAll forms) = (["(define x (amb 1 2))"], 2) :=
    Except.exists_ok_of_map (by decide +kernel)
  obtain ⟨hprint, hlevels⟩ := Prod.mk.inj hforms
  have hnesting : Value.nestingAll forms ≤ (Disk.choosing : Host).readable := hlevels ▸ by decide
  have hok : load.1.isOk = true := by decide +kernel
  have hdeep : load.1 ≠ .error .tooDeep := by
    intro hfault
    rw [hfault] at hok
    cases hok
  obtain ⟨hend, hsplices⟩ :=
    ((load_splices Disk.choosing "f" 0 World.retried).2.1 _ forms hholds hparse
      hnesting).1 8 hdeep
  have hnil : load.1 = .ok .nil := by
    rcases hend with hnil | ⟨fault, hfault⟩
    · exact hnil
    · rw [hfault] at hok
      cases hok
  exact ⟨forms, hparse, hprint, hnil, by decide +kernel, hsplices⟩

end AmbLisp
