import AmbLisp.Proofs.Reader.RoundTrip
import AmbLisp.Proofs.Session.Atoms

/-!
# Sessions stay with readable data

All code of a session is read: from lines, from source texts and from files. What it binds, what its
choice points offer and what its requests come to is then made of atoms that the reader could have
produced, wherever they come from: arithmetic, code that is built for `eval`, or a retry
(`data_stays_readable`). So a result without functions is read back from its text.
-/

namespace AmbLisp

theorem Value.hasConstants_readable : Value.HasConstants Readable where
  int n h := by
    rw [Integer.inRange, Bool.and_eq_true, decide_eq_true_eq, decide_eq_true_eq] at h
    exact .int h
  bool := .bool
  nil := .nil
  sequence := .sym (isSymbolName_keyword .sequence)

theorem Host.madeOf_readable (host : Host) : host.MadeOf Readable :=
  fun _ _ h v hv => (Loader.readable_fileForms h v hv).madeOf

namespace Session

/-- What a session is asked for. Its code comes from a source text or a file. -/
inductive Query where
  /-- The first value of the only form of a text. -/
  | form (source : String)
  /-- The first value of all forms of a text. -/
  | program (source : String)
  /-- The first value of a file. -/
  | file (path : String)
  /-- The next value of the current problem. -/
  | again
  /-- The value of the only form of a text, without a search. -/
  | evaluate (source : String)
  /-- The value of a file, without a search. -/
  | load (path : String)
  /-- The value of all forms of a text, without a search. -/
  | loadText (source : String)

def Query.request (cfg : Setting) : Query → Request Value
  | form source => do run cfg (← readForm source cfg.toHost)
  | program source => runSource cfg source
  | file path => do run cfg (← fileProgram cfg path)
  | again => tryAgain cfg
  | evaluate source => do evaluateOnce cfg (← readForm source cfg.toHost)
  | load path => loadFile cfg path
  | loadText source => loadSource cfg source

/-- The sessions that queries lead to from a new one, each query in a setting of its own. Between
queries anything may be printed and noted. -/
inductive Reached (prelude : Bool) : Session → Prop
  | start : Reached prelude (initial prelude)
  | next {s : Session} (h : Reached prelude s) (cfg : Setting) (q : Query) :
    Reached prelude (q.request cfg s).2
  | between {s s' : Session} (h : Reached prelude s) (hstore : s'.store = s.store)
    (hproblem : s'.problem = s.problem) : Reached prelude s'

/-- The session behind a request is made of readable atoms, and so is its value. -/
def StaysReadable (out : Except Fault Value × Session) : Prop :=
  out.2.MadeOf Readable ∧ ∀ v, out.1 = .ok v → v.MadeOf Readable

variable {cfg : Setting} {s : Session}

/-! ## What is read -/

theorem staysReadable_error (h : s.MadeOf Readable) (fault : Fault) :
    StaysReadable (.error fault, s) :=
  ⟨h, fun _ hv => by cases hv⟩

theorem staysReadable_ok (h : s.MadeOf Readable) {v : Value} (hv : Readable v) :
    StaysReadable (.ok v, s) :=
  ⟨h, fun _ hv' => Except.ok.inj hv' ▸ hv.madeOf⟩

theorem staysReadable_readForm (h : s.MadeOf Readable) (host : Host) (source : String) :
    StaysReadable ((readForm source host).outcome s) := by
  rw [outcome_readForm]
  cases hform : Loader.form host source with
  | ok v => exact staysReadable_ok h (Loader.readable_form hform)
  | error fault => exact staysReadable_error h fault

/-- The sequence of readable forms can be read. -/
theorem readable_sequence {forms : List Value} (h : ∀ v ∈ forms, Readable v) :
    Readable (.sequence forms) :=
  .list (List.forall_mem_cons.2 ⟨.sym (isSymbolName_keyword .sequence), h⟩)

theorem staysReadable_readProgram (h : s.MadeOf Readable) (host : Host) (source : String) :
    StaysReadable ((readProgram host source).outcome s) := by
  rw [outcome_readProgram]
  split
  · next expr hforms =>
    exact staysReadable_ok h (Loader.readable_programForms hforms expr List.mem_cons_self)
  · next hforms =>
    exact staysReadable_ok h (readable_sequence (Loader.readable_programForms hforms))
  · exact staysReadable_error h _

theorem staysReadable_fileProgram (h : s.MadeOf Readable) (path : String) :
    StaysReadable ((fileProgram cfg path).outcome s) := by
  rw [outcome_fileProgram]
  split
  · next hforms => exact staysReadable_ok h (readable_sequence (Loader.readable_fileForms hforms))
  · exact staysReadable_error h _

/-- What goes on with an expression that is read stays readable. -/
theorem staysReadable_bind {read : Request Value} {k : Value → Request Value}
    (hread : StaysReadable (read.outcome s))
    (hk : ∀ v s', v.MadeOf Readable → s'.MadeOf Readable → StaysReadable (k v s')) :
    StaysReadable ((read >>= k).outcome s) := by
  rw [ExceptT.outcome_bind]
  rcases hr : read.outcome s with ⟨fault | v, s'⟩ <;> rw [hr] at hread
  · exact staysReadable_error hread.1 fault
  · exact hk v s' (hread.2 v rfl) hread.1

/-! ## What is evaluated -/

theorem staysReadable_run {expr : Value} (h : s.MadeOf Readable) (hexpr : expr.MadeOf Readable) :
    StaysReadable (run cfg expr s) :=
  madeOf_run Value.hasConstants_readable cfg.toHost.madeOf_readable h hexpr

theorem staysReadable_tryAgain (h : s.MadeOf Readable) : StaysReadable (tryAgain cfg s) :=
  madeOf_tryAgain Value.hasConstants_readable cfg.toHost.madeOf_readable h

theorem staysReadable_evaluateOnce {expr : Value} (h : s.MadeOf Readable)
    (hexpr : expr.MadeOf Readable) : StaysReadable (evaluateOnce cfg expr s) := by
  have hlawful := Contract.lawful_atoms Value.hasConstants_readable cfg.toHost.madeOf_readable
  exact madeOf_once cfg.toHost h fun w hw => hlawful.evaluate cfg.depth hw trivial hexpr

theorem staysReadable_loadFile (h : s.MadeOf Readable) (path : String) :
    StaysReadable (loadFile cfg path s) := by
  have hlawful := Contract.lawful_atoms Value.hasConstants_readable cfg.toHost.madeOf_readable
  exact madeOf_once cfg.toHost h fun w hw =>
    hlawful.met_load (hlawful.evaluate cfg.depth) hw trivial (.str path)

theorem staysReadable_loadSource (h : s.MadeOf Readable) (source : String) :
    StaysReadable (loadSource cfg source s) := by
  rw [loadSource, Evaluator.loadSource]
  cases hforms : Loader.programForms cfg.toHost source with
  | ok forms =>
    have hsequence := readable_sequence (Loader.readable_programForms hforms)
    exact staysReadable_evaluateOnce h hsequence.madeOf
  | error fault => exact staysReadable_error h fault

/-- **One query** keeps a session with readable data. -/
theorem Query.staysReadable (q : Query) (h : s.MadeOf Readable) :
    StaysReadable (q.request cfg s) := by
  cases q with
  | form source =>
    exact staysReadable_bind (staysReadable_readForm h cfg.toHost source)
      fun _ _ hv hs => staysReadable_run hs hv
  | program source =>
    exact staysReadable_bind (staysReadable_readProgram h cfg.toHost source)
      fun _ _ hv hs => staysReadable_run hs hv
  | file path =>
    exact staysReadable_bind (staysReadable_fileProgram h path)
      fun _ _ hv hs => staysReadable_run hs hv
  | again => exact staysReadable_tryAgain h
  | evaluate source =>
    exact staysReadable_bind (staysReadable_readForm h cfg.toHost source)
      fun _ _ hv hs => staysReadable_evaluateOnce hs hv
  | load path => exact staysReadable_loadFile h path
  | loadText source => exact staysReadable_loadSource h source

/-! ## Runs of queries -/

theorem Reached.madeOf_readable {prelude : Bool} (h : Reached prelude s) : s.MadeOf Readable := by
  induction h with
  | start =>
    exact madeOf_initial Value.hasConstants_readable
      (fun v hv => (Prelude.readable_forms v hv).madeOf) prelude
  | next _ cfg q ih => exact (q.staysReadable ih).1
  | between _ hstore hproblem ih => exact ⟨hstore ▸ ih.store, hproblem ▸ ih.problem⟩

/-- The trails and sessions with which the passes of a query begin: of the first one for an expression
that is read, or of one that goes on with the current problem. -/
inductive PassBegins (cfg : Setting) (s : Session) : Value → Trail → Session → Prop
  | run {expr : Value} {t : Trail} {s' : Session} (hexpr : Readable expr)
    (h : (searchFor cfg expr).Reaches {} { s with passes := 0 } t s') : PassBegins cfg s expr t s'
  | again {p : Problem} {t₁ t : Trail} {s₁ s' : Session} (hp : s.problem = some p)
    (hretry : (searchFor cfg p.expression).retry p.trail s = (true, t₁, s₁))
    (h : (searchFor cfg p.expression).Reaches t₁ s₁ t s') : PassBegins cfg s p.expression t s'

theorem PassBegins.madeOf_readable {expr : Value} {t : Trail} {s' : Session}
    (h : PassBegins cfg s expr t s') (hs : s.MadeOf Readable) :
    expr.MadeOf Readable ∧ World.MadeOf Readable { store := s'.store, trail := t } := by
  cases h with
  | run hexpr h =>
    have hsearch := searching_madeOf Value.hasConstants_readable cfg.toHost.madeOf_readable hexpr.madeOf
    exact ⟨hexpr.madeOf, hsearch.reaches h ⟨hs.store, Trail.offers_new _⟩⟩
  | again hp hretry h =>
    obtain ⟨hexpr, htrail⟩ := hs.problem _ hp
    have hsearch := searching_madeOf Value.hasConstants_readable cfg.toHost.madeOf_readable hexpr
    have hback := hsearch.retry (hs.world htrail)
    rw [hretry] at hback
    exact ⟨hexpr, hsearch.reaches h hback⟩

/-- **Evaluation stays inside readable data.** Whatever a session has been asked for, all that it
binds, its current problem and the candidates of its choice points are made of atoms that the reader
could have produced. So are they where a pass of a query begins and behind it, and so is the value of
a query; if there is no function in this value, it is read back from its text. -/
theorem data_stays_readable {prelude : Bool} {s : Session} (h : Reached prelude s) :
    s.MadeOf Readable ∧
      (∀ cfg expr t s', PassBegins cfg s expr t s' →
        World.MadeOf Readable { store := s'.store, trail := t } ∧
          let out := (searchFor cfg expr).pass t s'
          World.MadeOf Readable { store := out.2.2.store, trail := out.2.1 }) ∧
      ∀ cfg (q : Query) v, (q.request cfg s).1 = .ok v →
        v.MadeOf Readable ∧ (v.functionFree = true → Reader.parse v.print = .ok v) := by
  have hs := h.madeOf_readable
  refine ⟨hs, fun cfg expr t s' hbegins => ?_, fun cfg q v hv => ?_⟩
  · obtain ⟨hexpr, hworld⟩ := hbegins.madeOf_readable hs
    have hsearch := searching_madeOf Value.hasConstants_readable cfg.toHost.madeOf_readable hexpr
    exact ⟨hworld, (hsearch.pass hworld).1⟩
  · have hmade := (q.staysReadable hs).2 v hv
    exact ⟨hmade, fun hf => Reader.parse_print_of_readable (readable_of_madeOf hmade hf)⟩

/-- Two queries, the second one for code that is built at run time. -/
theorem data_stays_readable_eval :
    let cfg : Setting := { depth := 8, passes := 8 }
    let code : Query := .form "(define code (list 'quote (list 1 'a)))"
    let s := (code.request cfg (initial false)).2
    Reached false s ∧ ∃ v, ((Query.form "(eval code)").request cfg s).1 = .ok v ∧
      v.print = "(1 a)" ∧ v.functionFree = true ∧ Reader.parse "(1 a)" = .ok v := by
  intro cfg code s
  have hs : Reached false s := .next .start cfg code
  obtain ⟨v, hv, hprint⟩ : ∃ v, ((Query.form "(eval code)").request cfg s).1 = .ok v ∧
      v.print = "(1 a)" := exists_ok_of_print (by decide +kernel)
  have hfree : v.functionFree = true := by
    have hfree : ((Query.form "(eval code)").request cfg s).1.map Value.functionFree = .ok true := by
      decide +kernel
    rw [hv] at hfree
    exact Except.ok.inj hfree
  obtain ⟨-, hparse⟩ := (data_stays_readable hs).2.2 cfg (.form "(eval code)") v hv
  exact ⟨hs, v, hv, hprint, hfree, hprint ▸ hparse hfree⟩

end Session

end AmbLisp
