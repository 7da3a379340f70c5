import AmbLisp.Proofs.Eval.Atoms
import AmbLisp.Proofs.Eval.Growing
import AmbLisp.Proofs.Eval.Malformed
import AmbLisp.Proofs.Primitive.Results
import AmbLisp.Proofs.Store.Alike
import AmbLisp.Proofs.Trail.Rename

/-!
# Evaluation looks up the words that it is given

An evaluation looks up no name but those that are spelled in its code, in what is bound, in what is
offered and in the files that are read. So let two worlds differ in what they bind to other names, and
in how many closures have been made before: an evaluation comes to the same in both, up to the numbers
of closures, and leaves worlds behind that differ in nothing else (`evaluate_alike`). As the files may
be spelled in other words, that is so as long as none is read.
-/

namespace AmbLisp

variable {α β : Type} {words : String → Prop} {m : Nat}

/-! ## Words -/

/-- If it is a symbol, then it is a word of a vocabulary. -/
def Value.WordIn (words : String → Prop) (a : Value) : Prop :=
  ∀ name ∈ a.symbol?, words name

instance [DecidablePred words] : DecidablePred (Value.WordIn words) :=
  fun a => inferInstanceAs (Decidable (∀ name ∈ a.symbol?, words name))

/-- All symbols in a value are words of a vocabulary. -/
abbrev Value.SpelledIn (words : String → Prop) (v : Value) : Prop :=
  v.MadeOf (Value.WordIn words)

theorem Value.spelledIn_sym {name : String} : (sym name).SpelledIn words ↔ words name :=
  ⟨fun h => h name rfl, fun h _ hname => Option.some.inj hname ▸ h⟩

theorem Value.SpelledIn.and {words' : String → Prop} {v : Value} (h : v.SpelledIn words)
    (h' : v.SpelledIn words') : v.SpelledIn fun name => words name ∧ words' name :=
  (MadeOf.and h h').imp fun _ ha name hname => ⟨ha.1 name hname, ha.2 name hname⟩

theorem Value.spelledIn_list {vs : List Value} :
    (list vs).SpelledIn words ↔ ∀ v ∈ vs, v.SpelledIn words :=
  madeOf_list

/-- A value, the same with higher numbers of closures, and that it is spelled in words of a
vocabulary. -/
def Value.Later (words : String → Prop) (m : Nat) (v v' : Value) : Prop :=
  v' = v.rename (.later m) ∧ v.SpelledIn words

/-- If files can be read at all, none has been. -/
def Unread (words : String → Prop) (journal : List Event) : Prop :=
  words Keyword.load.name → ∀ path forms, .loading path forms ∉ journal

theorem Unread.of_suffix {J J' : List Event} (h : Unread words J') (hs : J <:+ J') :
    Unread words J :=
  fun hload path forms hmem => h hload path forms (hs.subset hmem)

theorem Value.hasConstants_wordIn (hdo : words Keyword.sequence.name) :
    Value.HasConstants (Value.WordIn words) where
  int _ _ _ h := by cases h
  bool _ _ h := by cases h
  nil _ h := by cases h
  sequence := Value.spelledIn_sym.2 hdo

/-! ## Runs in two worlds -/

/-- Two worlds that bind the words of a vocabulary alike, in the second of which `m` more closures have
been made. All that can be evaluated in the first one is spelled in these words. -/
structure World.Alike (words : String → Prop) (m : Nat) (w w' : World) : Prop where
  store : w.store.Alike words m w'.store
  trail : w'.trail = w.trail.rename (.later m)
  printed : w'.printed = w.printed
  journal : w'.journal = w.journal
  spelled : w.MadeOf (Value.WordIn words)

theorem World.Alike.note {w w' : World} (h : w.Alike words m w') (event : Event) :
    ({ w with journal := event :: w.journal } : World).Alike words m
      { w' with journal := event :: w'.journal } :=
  ⟨h.store, h.trail, h.printed, congrArg (event :: ·) h.journal, h.spelled.store, h.spelled.trail⟩

theorem World.Alike.along {w w' : World} (h : w.Alike words m w') {t : Trail}
    (ht : t.Offers (·.SpelledIn words)) :
    ({ w with trail := t } : World).Alike words m { w' with trail := t.rename (.later m) } :=
  ⟨h.store, rfl, h.printed, h.journal, h.spelled.store, ht⟩

/-- From worlds that are alike, two runs come to results that are related or to the same fault, and to
worlds that are alike, unless the first one reads a file. -/
def Run.Alike (words : String → Prop) (m : Nat) (Q : α → β → Prop) (act : Run α) (act' : Run β) :
    Prop :=
  ∀ w w' : World, w.Alike words m w' → Unread words (act.outcome w).2.journal →
    Except.Related Q (act.outcome w).1 (act'.outcome w').1 ∧
      (act.outcome w).2.Alike words m (act'.outcome w').2

namespace Run

variable {γ δ : Type} {P : α → β → Prop} {Q : γ → δ → Prop}

theorem alike_pure {a : α} {b : β} (h : P a b) : Alike words m P (pure a) (pure b) :=
  fun _ _ hw _ => ⟨.ok h, hw⟩

theorem alike_throw (fault : Fault) : Alike words m P (throw fault) (throw fault) :=
  fun _ _ hw _ => ⟨.error fault, hw⟩

theorem alike_bind {act : Run α} {act' : Run β} {k : α → Run γ} {k' : β → Run δ}
    (h : Alike words m P act act') (hnoted : ∀ a, (k a).Grows World.Noted)
    (hk : ∀ a b, P a b → Alike words m Q (k a) (k' b)) :
    Alike words m Q (act >>= k) (act' >>= k') := by
  intro w w' hw hunread
  have hact := h w w' hw
  rw [ExceptT.outcome_bind] at hunread ⊢
  rw [ExceptT.outcome_bind]
  rcases hr : act.outcome w with ⟨result, w₁⟩
  rcases hr' : act'.outcome w' with ⟨result', w₁'⟩
  rw [hr] at hunread
  rw [hr, hr'] at hact
  cases result with
  | error fault =>
    obtain ⟨hresult, hbehind⟩ := hact hunread
    cases hresult
    exact ⟨.error fault, hbehind⟩
  | ok a =>
    -- what the first run has noted is still there in the end
    obtain ⟨hresult, hbehind⟩ := hact (hunread.of_suffix (hnoted a w₁))
    cases hresult with
    | ok hP => exact hk a _ hP w₁ w₁' hbehind hunread

theorem alike_lookup {name : String} (hword : words name) (e : ScopeId) :
    Alike words m (Value.Later words m) (lookup e name) (lookup e name) := by
  intro w w' hw _
  rw [outcome_lookup, outcome_lookup, hw.store.lookup hword]
  cases hl : w.store.lookup e name with
  | none => exact ⟨.error _, hw⟩
  | some v => exact ⟨.ok ⟨rfl, hw.spelled.store.lookup hl⟩, hw⟩

theorem alike_printLines (lines : List String) :
    Alike words m Eq (printLines lines) (printLines lines) := by
  intro w w' hw _
  rw [outcome_printLines, outcome_printLines, hw.printed]
  exact ⟨.ok rfl, hw.store, hw.trail, rfl, hw.journal, hw.spelled.store, hw.spelled.trail⟩

theorem alike_define (e : ScopeId) (name : String) {v v' : Value} (hv : v.Later words m v') :
    Alike words m Eq (define e name v) (define e name v') := by
  obtain ⟨rfl, hv⟩ := hv
  intro w w' hw _
  exact ⟨.ok rfl, hw.store.define e name v, hw.trail, hw.printed, hw.journal,
    hw.spelled.store.define hv, hw.spelled.trail⟩

theorem alike_openScope {s t : Scope} (hst : s.Alike words m t)
    (hs : ∀ b ∈ s.bindings, b.2.SpelledIn words) :
    Alike words m Eq (openScope s) (openScope t) := by
  intro w w' hw _
  rw [outcome_openScope, outcome_openScope, hw.store.size]
  exact ⟨.ok rfl, hw.store.openScope hst, hw.trail, hw.printed, hw.journal,
    hw.spelled.store.openScope hs, hw.spelled.trail⟩

theorem alike_close (e : ScopeId) {params : List Value} {body : Value}
    (hparams : ∀ v ∈ params, v.SpelledIn words) (hbody : body.SpelledIn words) :
    Alike words m (Value.Later words m) (close e params body)
      (close e (params.map (Value.rename (.later m))) (body.rename (.later m))) := by
  intro w w' hw _
  obtain ⟨hclosure, hstore⟩ := hw.store.close e params body
  refine ⟨.ok ⟨hclosure, (Value.madeOf_closure _ e).2 ⟨hparams, hbody⟩⟩, hstore, hw.trail, hw.printed,
    hw.journal, hw.spelled.store.close e params body, hw.spelled.trail⟩

theorem alike_choose {cs : List Value} (hcs : ∀ c ∈ cs, c.SpelledIn words) :
    Alike words m (Value.Later words m) (choose cs) (choose (cs.map (Value.rename (.later m)))) := by
  intro w w' hw _
  obtain ⟨htrail, hchoice⟩ := hw.spelled.trail.choose hcs
  rw [outcome_choose, outcome_choose, hw.trail, Trail.choose_rename, Trail.choiceEvent?_rename,
    hw.journal]
  refine ⟨?_, hw.store, rfl, hw.printed, rfl, hw.spelled.store, htrail⟩
  cases hc : (w.trail.choose cs).1 with
  | none => exact .error _
  | some v => exact .ok ⟨rfl, hchoice v hc⟩

end Run

/-! ## The evaluator -/

/-- From worlds that are alike, all evaluations come to values that are related. -/
def Evaluator.Alike (words : String → Prop) (m : Nat) (ev : Evaluator) : Prop :=
  ∀ (v : Value) (e : ScopeId), v.SpelledIn words →
    (ev v e).Alike words m (Value.Later words m) (ev (v.rename (.later m)) e)

/-- Values, the same with higher numbers of closures, and that they are spelled in words of a
vocabulary. -/
def Value.AllLater (words : String → Prop) (m : Nat) (vs vs' : List Value) : Prop :=
  vs' = vs.map (Value.rename (.later m)) ∧ ∀ v ∈ vs, v.SpelledIn words

theorem Value.isBinding_rename {r : Renaming} {v : Value} :
    (v.rename r).IsBinding ↔ v.IsBinding := by
  constructor
  · rintro ⟨name, expr, h⟩
    obtain ⟨x, y, rfl, hx, -⟩ := Value.rename_eq_pair h
    exact ⟨name, y, by rw [Value.rename_eq_sym_iff.1 hx]⟩
  · rintro ⟨name, expr, rfl⟩
    exact ⟨name, expr.rename r, by simp⟩

theorem Value.isClause_rename {r : Renaming} {v : Value} :
    (v.rename r).IsClause ↔ v.IsClause := by
  constructor
  · rintro ⟨test, expr, h⟩
    obtain ⟨x, y, rfl, -, -⟩ := Value.rename_eq_pair h
    exact ⟨x, y, rfl⟩
  · rintro ⟨test, expr, rfl⟩
    exact ⟨test.rename r, expr.rename r, by simp⟩

theorem Malformed.ofBinding_rename {r : Renaming} (v : Value) :
    ofBinding (v.rename r) = ofBinding v := by
  rcases v with _ | _ | _ | _ | _ | (_ | ⟨x, _ | ⟨y, _ | ⟨z, vs⟩⟩⟩) | _ | _ <;> simp [ofBinding]

namespace Evaluator

open Run

variable {ev : Evaluator} (h : ev.Alike words m) (hev : (Contract.growing World.Noted).Complies ev)
  {host : Host} {e : ScopeId}

include h hev

theorem alike_all {exprs : List Value} (hv : ∀ v ∈ exprs, v.SpelledIn words) :
    (ev.all e exprs).Alike words m (Value.AllLater words m)
      (ev.all e (exprs.map (Value.rename (.later m)))) := by
  induction exprs with
  | nil => exact alike_pure ⟨rfl, List.forall_mem_nil _⟩
  | cons expr exprs ih =>
    rw [List.forall_mem_cons] at hv
    refine alike_bind (h expr e hv.1)
      (fun _ => grows_bind (grows_all hev _ _) fun _ => grows_pure _) ?_
    rintro v _ ⟨rfl, hv₁⟩
    refine alike_bind (ih hv.2) (fun _ => grows_pure _) ?_
    rintro vs _ ⟨rfl, hvs⟩
    exact alike_pure ⟨rfl, List.forall_mem_cons.2 ⟨hv₁, hvs⟩⟩

theorem alike_sequence {exprs : List Value} {v : Value} (hv : ∀ v ∈ exprs, v.SpelledIn words)
    (hlast : v.SpelledIn words) :
    (ev.sequence e v exprs).Alike words m (Value.Later words m)
      (ev.sequence e (v.rename (.later m)) (exprs.map (Value.rename (.later m)))) := by
  induction exprs generalizing v with
  | nil => exact alike_pure ⟨rfl, hlast⟩
  | cons expr exprs ih =>
    rw [List.forall_mem_cons] at hv
    refine alike_bind (h expr e hv.1) (fun _ => grows_sequence hev _ _ _) ?_
    rintro v _ ⟨rfl, hv₁⟩
    exact ih hv.2 hv₁

theorem alike_clauses {cls : List Value} (hv : ∀ v ∈ cls, v.SpelledIn words) :
    (ev.clauses e cls).Alike words m (Value.Later words m)
      (ev.clauses e (cls.map (Value.rename (.later m)))) := by
  induction cls with
  | nil => exact alike_pure ⟨Value.rename_nil.symm, fun _ h => by cases h⟩
  | cons c rest ih =>
    rw [List.forall_mem_cons] at hv
    rw [List.map_cons]
    by_cases hc : c.IsClause
    · obtain ⟨test, expr, rfl⟩ := hc
      rw [Value.spelledIn_list, List.forall_mem_cons, List.forall_mem_singleton] at hv
      obtain ⟨⟨htest, hexpr⟩, hrest⟩ := hv
      rw [Value.rename_list, List.map_cons, List.map_cons, List.map_nil, clauses, clauses]
      refine alike_bind (h test e htest) (fun v => ?_) ?_
      · split
        · exact grows_ev hev _ _
        · exact grows_clauses hev _ _
      · rintro v _ ⟨rfl, -⟩
        rw [Value.isTrue_rename]
        split
        · exact h expr e hexpr
        · exact ih hrest
    · rw [clauses_malformed ev e hc, clauses_malformed ev e (mt Value.isClause_rename.1 hc)]
      exact alike_throw _

theorem alike_letBindings {bs : List Value} (hv : ∀ v ∈ bs, v.SpelledIn words) :
    (ev.letBindings e bs).Alike words m Eq
      (ev.letBindings e (bs.map (Value.rename (.later m)))) := by
  induction bs with
  | nil => exact alike_pure rfl
  | cons b rest ih =>
    rw [List.forall_mem_cons] at hv
    rw [List.map_cons]
    by_cases hb : b.IsBinding
    · obtain ⟨name, expr, rfl⟩ := hb
      rw [Value.spelledIn_list, List.forall_mem_cons, List.forall_mem_singleton] at hv
      rw [Value.rename_list, List.map_cons, List.map_cons, List.map_nil, Value.rename_sym,
        letBindings, letBindings]
      refine alike_bind (h expr e hv.1.2)
        (fun _ => grows_bind (grows_define _ _ _) fun _ => grows_letBindings hev _ _) ?_
      intro v v' hv'
      refine alike_bind (alike_define e name hv') (fun _ => grows_letBindings hev _ _) ?_
      exact fun _ _ _ => ih hv.2
    · rw [letBindings_malformed ev e hb, letBindings_malformed ev e (mt Value.isBinding_rename.1 hb),
        Malformed.ofBinding_rename]
      exact alike_throw _

omit h hev in
/-- The application of a primitive, and what it prints. -/
theorem alike_prim (hdo : words Keyword.sequence.name) {p : Primitive} {args : List Value}
    (hv : ∀ v ∈ args, v.SpelledIn words) :
    (ev.apply host (.prim p :: args)).Alike words m (Value.Later words m)
      (ev.apply host (.prim p :: args.map (Value.rename (.later m)))) := by
  rw [apply, apply, Primitive.call_rename, Primitive.printed_rename]
  cases hp : p.call host args with
  | error fault => exact alike_throw fault
  | ok v =>
    refine alike_bind (alike_printLines _) (fun _ => grows_pure _) fun _ _ _ => ?_
    exact alike_pure ⟨rfl, (Value.hasConstants_wordIn hdo).primitive hv (Primitive.apply_of_call hp)⟩

/-- The application of a closure: its body in a new scope. -/
theorem alike_closure {n o : Nat} {params args : List Value} {body : Value}
    (hbody : body.SpelledIn words) (hv : ∀ v ∈ args, v.SpelledIn words) :
    (ev.apply host (.closure n o params body :: args)).Alike words m (Value.Later words m)
      (ev.apply host (.closure (n + m) o (params.map (Value.rename (.later m)))
        (body.rename (.later m)) :: args.map (Value.rename (.later m)))) := by
  have hparams : Scope.ofParams (some o) (params.map (Value.rename (.later m)))
      (args.map (Value.rename (.later m))) =
        (Scope.ofParams (some o) params args).map (Scope.rename (.later m)) :=
    Scope.ofParams_rename o params args
  rw [apply, apply, hparams]
  cases hcall : Scope.ofParams (some o) params args with
  | error fault => exact alike_throw fault
  | ok call =>
    have hbindings : ∀ b ∈ call.bindings, b.2.SpelledIn words :=
      fun b hb => hv _ (Scope.mem_ofParams hcall b hb)
    refine alike_bind (alike_openScope (Scope.Alike.rename call) hbindings)
      (fun _ => grows_ev hev _ _) ?_
    rintro inner _ rfl
    exact h body inner hbody

theorem alike_apply (hdo : words Keyword.sequence.name) {vs : List Value}
    (hv : ∀ v ∈ vs, v.SpelledIn words) :
    (ev.apply host vs).Alike words m (Value.Later words m)
      (ev.apply host (vs.map (Value.rename (.later m)))) := by
  rcases vs with _ | ⟨f, args⟩
  · exact alike_throw _
  · rw [List.forall_mem_cons] at hv
    rw [List.map_cons]
    cases f with
    | prim p =>
      rw [Value.rename_prim]
      exact alike_prim hdo hv.2
    | closure n o params body =>
      rw [Value.rename_closure]
      exact alike_closure h hev ((Value.madeOf_closure n o).1 hv.1).2 hv.2
    | int | bool | sym | str | nil | list =>
      simp only [Value.rename_int, Value.rename_bool, Value.rename_sym, Value.rename_str,
        Value.rename_nil, Value.rename_list]
      exact alike_throw _

omit h in
/-- A file that is read excuses all that follows. -/
theorem alike_load (hword : words Keyword.load.name) (path : String) :
    (ev.load host e path).Alike words m (Value.Later words m) (ev.load host e path) := by
  unfold load
  cases hf : Loader.fileForms host path with
  | error fault => exact alike_throw fault
  | ok forms =>
    intro w w' _ hunread
    have hnoted : (Event.loading path forms.length :: w.journal) <:+
        ((Run.note (.loading path forms.length) >>= fun _ => ev (.sequence forms) e).outcome
          w).2.journal := by
      rw [ExceptT.outcome_bind, outcome_note]
      exact grows_ev hev (.sequence forms) e
        { w with journal := .loading path forms.length :: w.journal }
    exact absurd (hnoted.subset List.mem_cons_self) (hunread hword path forms.length)

theorem alike_load_form (hword : words Keyword.load.name) {expr : Value}
    (hexpr : expr.SpelledIn words) :
    (ev.special host e .load [expr]).Alike words m (Value.Later words m)
      (ev.special host e .load [expr.rename (.later m)]) := by
  refine alike_bind (h expr e hexpr) (fun v => ?_) ?_
  · split
    · exact grows_bind (grows_load hev _ _) fun _ => grows_pure _
    · exact grows_throw _
  · rintro v _ ⟨rfl, -⟩
    cases v with
    | str path =>
      rw [Value.rename_str]
      refine alike_bind (alike_load hev hword path) (fun _ => grows_pure _) fun _ _ _ => ?_
      exact alike_pure ⟨Value.rename_nil.symm, fun _ h => by cases h⟩
    | int | bool | sym | nil | prim | list | closure =>
      simp only [Value.rename_int, Value.rename_bool, Value.rename_sym, Value.rename_nil,
        Value.rename_prim, Value.rename_list, Value.rename_closure]
      exact alike_throw _

omit hev in
theorem alike_define_form {target expr : Value} (hexpr : expr.SpelledIn words) :
    (ev.special host e .define [target, expr]).Alike words m (Value.Later words m)
      (ev.special host e .define [target.rename (.later m), expr.rename (.later m)]) := by
  cases target with
  | sym name =>
    rw [Value.rename_sym]
    refine alike_bind (h expr e hexpr)
      (fun _ => grows_bind (grows_define _ _ _) fun _ => grows_pure _) ?_
    intro v v' hv
    exact alike_bind (alike_define e name hv) (fun _ => grows_pure _) fun _ _ _ => alike_pure hv
  | int | bool | str | nil | prim | list | closure =>
    simp only [Value.rename_int, Value.rename_bool, Value.rename_str, Value.rename_nil,
      Value.rename_prim, Value.rename_list, Value.rename_closure]
    exact alike_throw _

theorem alike_let_form {bindings body : Value} (hbindings : bindings.SpelledIn words)
    (hbody : body.SpelledIn words) :
    (ev.special host e .letIn [bindings, body]).Alike words m (Value.Later words m)
      (ev.special host e .letIn [bindings.rename (.later m), body.rename (.later m)]) := by
  cases bindings with
  | list bs =>
    rw [Value.rename_list]
    have hinner : ({ outer := some e } : Scope).Alike words m { outer := some e } :=
      ⟨rfl, fun _ => rfl⟩
    refine alike_bind (alike_openScope hinner (List.forall_mem_nil _))
      (fun _ => grows_bind (grows_letBindings hev _ _) fun _ => grows_ev hev _ _) ?_
    rintro inner _ rfl
    refine alike_bind (alike_letBindings h hev (Value.spelledIn_list.1 hbindings))
      (fun _ => grows_ev hev _ _) fun _ _ _ => ?_
    exact h body inner hbody
  | int | bool | sym | str | nil | prim | closure =>
    simp only [Value.rename_int, Value.rename_bool, Value.rename_sym, Value.rename_str,
      Value.rename_nil, Value.rename_prim, Value.rename_closure]
    exact alike_throw _

omit h hev in
theorem alike_lambda_form {params body : Value} (hparams : params.SpelledIn words)
    (hbody : body.SpelledIn words) :
    (ev.special host e .lambda [params, body]).Alike words m (Value.Later words m)
      (ev.special host e .lambda [params.rename (.later m), body.rename (.later m)]) := by
  cases params with
  | list ps =>
    rw [Value.rename_list]
    exact alike_close e (Value.spelledIn_list.1 hparams) hbody
  | int | bool | sym | str | nil | prim | closure =>
    simp only [Value.rename_int, Value.rename_bool, Value.rename_sym, Value.rename_str,
      Value.rename_nil, Value.rename_prim, Value.rename_closure]
    exact alike_throw _

theorem alike_special {k : Keyword} (hk : words k.name)
    {operands : List Value} (hv : ∀ v ∈ operands, v.SpelledIn words) :
    (ev.special host e k operands).Alike words m (Value.Later words m)
      (ev.special host e k (operands.map (Value.rename (.later m)))) := by
  by_cases hcount : ∃ n, k.operands? = some n ∧ operands.length ≠ n
  · obtain ⟨n, hn, hne⟩ := hcount
    rw [special_operandCount hn hne, special_operandCount hn (by rwa [List.length_map]),
      List.length_map]
    exact alike_throw _
  have hlength : ∀ n, k.operands? = some n → operands.length = n := by simpa using hcount
  have hpair : operands.length = 2 → ∃ a b, operands = [a, b] :=
    fun hlen => ⟨_, _, List.eq_getElem_of_length_eq_two operands hlen⟩
  cases k with
  | quote =>
    obtain ⟨v, rfl⟩ := List.length_eq_one_iff.1 (hlength 1 rfl)
    exact alike_pure ⟨rfl, hv v List.mem_cons_self⟩
  | eval =>
    obtain ⟨expr, rfl⟩ := List.length_eq_one_iff.1 (hlength 1 rfl)
    refine alike_bind (h expr e (hv expr List.mem_cons_self)) (fun _ => grows_ev hev _ _) ?_
    rintro code _ ⟨rfl, hcode⟩
    exact h code e hcode
  | load =>
    obtain ⟨expr, rfl⟩ := List.length_eq_one_iff.1 (hlength 1 rfl)
    exact alike_load_form h hev hk (hv expr List.mem_cons_self)
  | define =>
    obtain ⟨target, expr, rfl⟩ := hpair (hlength 2 rfl)
    exact alike_define_form h (hv expr (by simp))
  | letIn =>
    obtain ⟨bindings, body, rfl⟩ := hpair (hlength 2 rfl)
    exact alike_let_form h hev (hv bindings (by simp)) (hv body (by simp))
  | lambda =>
    obtain ⟨params, body, rfl⟩ := hpair (hlength 2 rfl)
    exact alike_lambda_form (hv params (by simp)) (hv body (by simp))
  | cond => exact alike_clauses h hev hv
  | sequence =>
    have hseq := alike_sequence h hev (e := e) (v := .nil) hv fun _ h => by cases h
    rwa [Value.rename_nil] at hseq
  | amb =>
    refine alike_bind (alike_choose hv) (fun _ => grows_ev hev _ _) ?_
    rintro choice _ ⟨rfl, hchoice⟩
    exact h choice e hchoice

theorem alike_step (hdo : words Keyword.sequence.name) : (ev.step host).Alike words m := by
  intro v e hv
  cases v with
  | sym name =>
    rw [Value.rename_sym]
    exact alike_lookup (Value.spelledIn_sym.1 hv) e
  | list vs =>
    rw [Value.spelledIn_list] at hv
    rw [Value.rename_list]
    rcases vs with _ | ⟨head, operands⟩
    · exact alike_pure ⟨(Value.rename_list []).symm, Value.spelledIn_list.2 hv⟩
    · obtain ⟨hhead, hoperands⟩ := List.forall_mem_cons.1 hv
      rw [List.map_cons, step, step, Value.symbol?_rename]
      cases hkey : head.symbol?.bind Keyword.ofName? with
      | some k =>
        obtain ⟨name, hname, hk⟩ := Option.bind_eq_some_iff.1 hkey
        have hword : words k.name := by
          cases head with
          | sym name' =>
            cases hname
            rw [Keyword.name_of_ofName? hk]
            exact Value.spelledIn_sym.1 hhead
          | _ => cases hname
        exact alike_special h hev hword hoperands
      | none =>
        refine alike_bind (alike_all h hev hv) (fun _ => grows_apply hev _) ?_
        rintro vs _ ⟨rfl, hvs⟩
        exact alike_apply h hev hdo hvs
  | closure n o params body => exact alike_pure ⟨rfl, hv⟩
  | prim p => exact alike_pure ⟨Value.rename_prim p, hv⟩
  | int n => exact alike_pure ⟨Value.rename_int n, hv⟩
  | bool b => exact alike_pure ⟨Value.rename_bool b, hv⟩
  | str text => exact alike_pure ⟨Value.rename_str text, hv⟩
  | nil => exact alike_pure ⟨Value.rename_nil, hv⟩

end Evaluator

/-- **An evaluation looks up no words but those of its world and its code**, as long as it reads no
file. -/
theorem evaluate_alike (hdo : words Keyword.sequence.name) (host : Host) (n : Nat) :
    (evaluate host n).Alike words m := by
  induction n with
  | zero => exact fun _ _ _ => Run.alike_throw _
  | succ n ih =>
    exact Evaluator.alike_step ih ((Contract.lawful_growing host).evaluate n) hdo

end AmbLisp
