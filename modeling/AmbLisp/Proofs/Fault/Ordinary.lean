import AmbLisp.Loader
import AmbLisp.Primitive.Apply

/-!
# Ordinary faults

A fault is ordinary if it is neither a lack of choices nor the end of a search. Outside `amb`
nothing but ordinary faults arises: not in primitives, in binding parameters or in reading a file.
They are plain, too, as far as they do not come from outside: from the path of a file, from a
numeral that is too long to be converted, or from a character that cannot be written. A plain fault is
one that the dialogue answers with its message.
-/

namespace AmbLisp

namespace Fault

/-- Neither a lack of choices nor the end of a search. Such a fault ends a problem. -/
def IsOrdinary (f : Fault) : Prop :=
  f.kind ≠ .choiceExhausted ∧ f.kind ≠ .noMoreValues

instance (f : Fault) : Decidable f.IsOrdinary :=
  inferInstanceAs (Decidable (_ ∧ _))

theorem IsOrdinary.ne_noChoice {f : Fault} (h : f.IsOrdinary) : f ≠ .noChoice := by
  rintro rfl
  exact h.1 rfl

/-- Tells neither of choices, searches and problems nor of the world outside. -/
def Kind.isPlain : Kind → Bool
  | choiceExhausted | noMoreValues | noProblem | outside => false
  | _ => true

/-- Something is wrong with the program, or it goes too far. -/
def IsPlain (f : Fault) : Prop :=
  f.kind.isPlain = true

/-- How a search fails: for want of values, for a plain reason, or for one from outside. -/
def EndsSearch (f : Fault) : Prop :=
  f = .noMoreValues ∨ f.IsPlain ∨ f.kind = .outside

theorem IsPlain.ordinary {f : Fault} (h : f.IsPlain) : f.IsOrdinary := by
  unfold IsPlain at h
  constructor <;> intro hk <;> rw [hk] at h <;> cases h

theorem IsPlain.ne_noMoreValues {f : Fault} (h : f.IsPlain) : f ≠ .noMoreValues := by
  rintro rfl
  cases h

theorem IsPlain.not_outside {f : Fault} (h : f.IsPlain) : f.kind ≠ .outside := by
  intro hk
  rw [IsPlain, hk] at h
  cases h

theorem ordinary_unbound (name : String) : (unbound name).IsOrdinary := ⟨nofun, nofun⟩

theorem ordinary_malformed (m : Malformed) : (malformed m).IsOrdinary := ⟨nofun, nofun⟩

theorem ordinary_operandCount (k : Keyword) (got : Nat) : (operandCount k got).IsOrdinary :=
  ⟨nofun, nofun⟩

theorem ordinary_notFunction : notFunction.IsOrdinary := ⟨nofun, nofun⟩

theorem ordinary_loadName : loadName.IsOrdinary := ⟨nofun, nofun⟩

theorem ordinary_tooDeep : tooDeep.IsOrdinary := ⟨nofun, nofun⟩

end Fault

variable {α β : Type} {Q : Fault → Prop}

/-- If there is no result, the fault has a property. -/
def Fails (Q : Fault → Prop) (r : Except Fault α) : Prop :=
  ∀ fault, r = .error fault → Q fault

/-- A result that is a value or an ordinary fault. -/
def Ordinary {α : Type} (r : Except Fault α) : Prop :=
  ∀ fault, r = .error fault → fault.IsOrdinary

theorem fails_ok (a : α) : Fails Q (.ok a : Except Fault α) := nofun

theorem fails_error {fault : Fault} (h : Q fault) : Fails Q (.error fault : Except Fault α) := by
  rintro _ ⟨⟩
  exact h

theorem fails_ite {p : Prop} [Decidable p] {a b : Except Fault α} (ha : Fails Q a)
    (hb : Fails Q b) : Fails Q (if p then a else b) := by
  split
  · exact ha
  · exact hb

theorem fails_bind {r : Except Fault α} {k : α → Except Fault β} (hr : Fails Q r)
    (hk : ∀ a, Fails Q (k a)) : Fails Q (r >>= k) := by
  cases r with
  | error fault => exact fails_error (hr fault rfl)
  | ok a => exact hk a

/-- What fails with plain faults only, fails with ordinary ones only. -/
theorem Fails.ordinary {r : Except Fault α} (h : Fails Fault.IsPlain r) : Ordinary r :=
  fun fault hr => (h fault hr).ordinary

namespace Primitive

variable {p : Primitive} {args : List Value}

theorem plain_checked {go : Except Fault Value} (h : Fails Fault.IsPlain go) :
    Fails Fault.IsPlain (p.checked args go) :=
  fails_ite h (fails_error rfl)

theorem plain_onInts {go : List Int → Except Fault Value}
    (h : ∀ xs, Fails Fault.IsPlain (go xs)) : Fails Fault.IsPlain (p.onInts args go) := by
  unfold onInts
  split
  · exact fails_error rfl
  · exact plain_checked (h _)

theorem plain_bounded (n : Int) : Fails Fault.IsPlain (bounded n) :=
  fails_ite (fails_ok _) (fails_error rfl)

theorem plain_onCons (go : Value → List Value → Value) :
    Fails Fault.IsPlain (p.onCons args go) := by
  refine plain_checked ?_
  split
  · exact fails_ok _
  · exact fails_error rfl
  · exact fails_error rfl

/-- A primitive fails with a plain fault if it fails. -/
theorem plain_apply (p : Primitive) (args : List Value) : Fails Fault.IsPlain (p.apply args) := by
  cases p with
  | add | mul => exact plain_onInts fun _ => plain_bounded _
  | sub => exact plain_onInts fun xs => by split <;> exact plain_bounded _
  | div => exact plain_onInts fun _ => fails_ite (fails_error rfl) (plain_bounded _)
  | mod =>
    exact plain_checked <| plain_onInts fun _ => fails_ite (fails_error rfl) (plain_bounded _)
  | less | greater | equal => exact plain_onInts fun _ => fails_ok _
  | eq | cons =>
    refine plain_checked ?_
    split
    · exact fails_ok _
    · exact fails_error rfl
  | car | cdr => exact plain_onCons _
  | list => exact fails_ok _
  | isNil | isNumber | isList | isAtom | println => exact plain_checked (fails_ok _)

end Primitive

namespace Host

variable (host : Host)

/-- Printing fails for a plain reason, or for want of a character. -/
def Refuses (fault : Fault) : Prop :=
  fault.IsPlain ∨ ∃ c, fault = .unencodable c ∧ host.encodes c = false

variable {host}

theorem Refuses.ordinary {fault : Fault} (h : host.Refuses fault) : fault.IsOrdinary := by
  rcases h with h | ⟨c, rfl, -⟩
  · exact h.ordinary
  · exact ⟨nofun, nofun⟩

/-- Where every character can be written, printing fails for a plain reason if it fails. -/
theorem Refuses.plain (hhost : ∀ c, host.encodes c = true) {fault : Fault}
    (h : host.Refuses fault) : fault.IsPlain := by
  rcases h with h | ⟨c, -, hc⟩
  · exact h
  · rw [hhost c] at hc
    cases hc

variable (host)

theorem plain_print (st : Style) (v : Value) : Fails Fault.IsPlain (host.print st v) :=
  fails_ite (fails_ok _) (fails_error rfl)

/-- A text is written as it is, unless the output does not take one of its characters. -/
theorem encode_cases (text : String) :
    host.encode text = .ok text ∨
      ∃ c, host.encodes c = false ∧ host.encode text = .error (.unencodable c) := by
  unfold encode
  split
  · exact .inl rfl
  · next c hfind =>
    refine .inr ⟨c, ?_, rfl⟩
    simpa using List.find?_some hfind

theorem refuses_encode (text : String) : Fails host.Refuses (host.encode text) := by
  rcases encode_cases host text with hencode | ⟨c, hc, hencode⟩ <;> rw [hencode]
  · exact fails_ok _
  · exact fails_error (.inr ⟨c, rfl, hc⟩)

theorem refuses_display (v : Value) : Fails host.Refuses (host.display v) :=
  fails_bind (fun fault h => .inl (plain_print host .display v fault h)) (refuses_encode host)

end Host

/-- If no element of a list fails otherwise, the list does not. -/
theorem fails_mapM {f : α → Except Fault β} (h : ∀ a, Fails Q (f a)) (as : List α) :
    Fails Q (as.mapM f) := by
  induction as with
  | nil => exact fails_ok _
  | cons a as ih =>
    rw [List.mapM_cons]
    exact fails_bind (h a) fun _ => fails_bind ih fun _ => fails_ok _

namespace Primitive

/-- A call fails for a plain reason, or for want of a character. -/
theorem refuses_call (host : Host) (p : Primitive) (args : List Value) :
    Fails host.Refuses (p.call host args) :=
  fails_bind (fun fault h => .inl (plain_apply p args fault h)) fun _ =>
    fails_bind (fails_mapM (Host.refuses_display host) _) fun _ => fails_ok _

theorem ordinary_call (host : Host) (p : Primitive) (args : List Value) :
    Ordinary (p.call host args) :=
  fun fault h => (refuses_call host p args fault h).ordinary

end Primitive

theorem Scope.plain_ofParams (outer : Option ScopeId) (params args : List Value) :
    Fails Fault.IsPlain (Scope.ofParams outer params args) := by
  refine fails_ite (fails_error rfl) ?_
  split
  · exact fails_error rfl
  · exact fails_ok _

theorem Scope.ordinary_ofParams (outer : Option ScopeId) (params args : List Value) :
    Ordinary (Scope.ofParams outer params args) :=
  (plain_ofParams outer params args).ordinary

namespace Loader

variable {host : Host} {path : String} {fault : Fault}

/-- What is read has a numeral that is too long to be converted. -/
def Unconverted (read : Except ReadError α) (fault : Fault) : Prop :=
  ∃ e digits, read = .error e ∧ e.reason = .unconverted digits ∧ fault = .longNumeral digits

theorem ofRead_cases (e : ReadError) :
    (Fault.ofRead e).IsPlain ∨ ∃ digits, e.reason = .unconverted digits ∧
      Fault.ofRead e = .longNumeral digits := by
  unfold Fault.ofRead
  split
  · next digits h => exact .inr ⟨digits, h, rfl⟩
  · exact .inl rfl

theorem reports_read (read : Except ReadError α) :
    Fails (fun fault => fault.IsPlain ∨ Unconverted read fault) (read.mapError .ofRead) := by
  cases read with
  | ok a => exact fails_ok a
  | error e =>
    refine fails_error ?_
    rcases ofRead_cases e with he | ⟨digits, hreason, he⟩
    · exact .inl he
    · exact .inr ⟨e, digits, rfl, hreason, he⟩

/-- A source text has no form for a plain reason, or because a numeral is too long. -/
theorem reports_form (host : Host) (source : String) :
    Fails (fun fault => fault.IsPlain ∨ Unconverted (Reader.parse source) fault)
      (form host source) :=
  fails_ite (reports_read _) (fails_error (.inl rfl))

/-- It is a plain reason if it does not come from outside. -/
theorem plain_form {source : String} (h : form host source = .error fault)
    (hkind : fault.kind ≠ .outside) : fault.IsPlain := by
  rcases reports_form host source fault h with hplain | ⟨e, digits, -, -, rfl⟩
  · exact hplain
  · exact absurd rfl hkind

theorem reports_programForms (host : Host) (source : String) :
    Fails (fun fault => fault.IsPlain ∨ Unconverted (Reader.parseProgram source) fault)
      (programForms host source) :=
  fails_ite (reports_read _) (fails_error (.inl rfl))

/-- A file has no forms for a plain reason, or its path cannot be a path, or it has not been fetched
yet, or a numeral in it is too long. -/
inductive Reports (host : Host) (path : String) (fault : Fault) : Prop where
  | plain (h : fault.IsPlain)
  | nul (h : fault = .nulInPath) (hpath : Char.ofNat 0 ∈ path.toList)
  | pending (path' : String) (h : fault = .pendingFile path') (hpath : host.disk path' = .pending)
  | numeral (source : String) (hsource : sourceText host.disk path = .ok source)
    (h : Unconverted (Reader.parseProgram source) fault)

theorem Unconverted.ordinary {read : Except ReadError α} (h : Unconverted read fault) :
    fault.IsOrdinary := by
  obtain ⟨e, digits, -, -, rfl⟩ := h
  exact ⟨nofun, nofun⟩

theorem Reports.ordinary (h : Reports host path fault) : fault.IsOrdinary := by
  cases h with
  | plain h => exact h.ordinary
  | nul h _ =>
    subst h
    exact ⟨nofun, nofun⟩
  | pending path' h _ =>
    subst h
    exact ⟨nofun, nofun⟩
  | numeral source _ h => exact h.ordinary

theorem reports_sourceText (host : Host) (path : String) :
    Fails (Reports host path) (sourceText host.disk path) := by
  intro fault h
  simp only [sourceText] at h
  split at h
  · next hnul =>
    cases h
    exact .nul rfl (by simpa using hnul)
  · split at h
    · split at h <;> cases h
      exact .plain rfl
    · cases h
      exact .plain rfl
    · next hpending =>
      cases h
      exact .pending _ rfl hpending

theorem reports_fileForms (host : Host) (path : String) :
    Fails (Reports host path) (fileForms host path) := by
  intro fault h
  unfold fileForms at h
  cases hsource : sourceText host.disk path with
  | error f =>
    rw [hsource] at h
    cases h
    exact reports_sourceText host path _ hsource
  | ok source =>
    rw [hsource] at h
    rcases reports_programForms host source fault h with h | h
    · exact .plain h
    · exact .numeral source hsource h

/-- A file that has no forms has an ordinary fault. -/
theorem ordinary_fileForms (host : Host) (path : String) : Ordinary (fileForms host path) :=
  fun fault h => (reports_fileForms host path fault h).ordinary

end Loader

end AmbLisp
