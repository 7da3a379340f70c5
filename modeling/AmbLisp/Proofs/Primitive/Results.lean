import AmbLisp.Proofs.Value.Rename

/-!
# What primitives compute with

A primitive builds its result from its arguments and looks into no closure. `apply_rename`: under
other names for the closures in its arguments, it has the same result under these names.
`apply_built`: whatever holds of the integers in range, of booleans and of `#nil`, and of lists just if
it holds of their elements, holds of a result if it holds of the arguments.
-/

namespace AmbLisp.Primitive

variable {p : Primitive} {args : List Value}

/-! ## Renaming -/

section

variable {r : Renaming}

theorem checked_rename {go go' : Except Fault Value} (h : go' = go.map (Value.rename r)) :
    p.checked (args.map (Value.rename r)) go' = (p.checked args go).map (Value.rename r) := by
  unfold checked
  rw [List.length_map]
  split
  · exact h
  · rfl

theorem mapM_int?_rename (vs : List Value) :
    (vs.map (Value.rename r)).mapM Value.int? = vs.mapM Value.int? := by
  induction vs with
  | nil => rfl
  | cons v vs ih => simp only [List.map_cons, List.mapM_cons, Value.int?_rename, ih]

theorem onInts_rename {go : List Int → Except Fault Value}
    (h : ∀ xs, (go xs).map (Value.rename r) = go xs) :
    p.onInts (args.map (Value.rename r)) go = (p.onInts args go).map (Value.rename r) := by
  unfold onInts
  rw [mapM_int?_rename]
  split
  · rfl
  · exact checked_rename (h _).symm

theorem bounded_rename (n : Int) : (bounded n).map (Value.rename r) = bounded n := by
  unfold bounded
  split
  · exact congrArg Except.ok (Value.rename_int n)
  · rfl

theorem test_rename {holds : Value → Bool} (h : ∀ v, holds (v.rename r) = holds v) :
    p.test (args.map (Value.rename r)) holds = (p.test args holds).map (Value.rename r) := by
  refine checked_rename ?_
  rw [List.any_map, show holds ∘ Value.rename r = holds from funext h]
  exact congrArg Except.ok (Value.rename_bool _).symm

theorem onCons_rename {go : Value → List Value → Value}
    (h : ∀ x xs, go (x.rename r) (xs.map (Value.rename r)) = (go x xs).rename r) :
    p.onCons (args.map (Value.rename r)) go = (p.onCons args go).map (Value.rename r) := by
  refine checked_rename ?_
  rcases args with _ | ⟨v, args⟩
  · rfl
  · cases v with
    | list vs =>
      rw [List.map_cons, Value.rename_list]
      rcases vs with _ | ⟨x, xs⟩
      · rfl
      · exact congrArg Except.ok (h x xs)
    | _ => simp [Except.map]

theorem isNothing_rename (v : Value) : isNothing (v.rename r) = isNothing v := by
  cases v with
  | list vs => cases vs <;> simp [isNothing]
  | _ => simp [isNothing]

theorem headD_rename (vs : List Value) :
    (vs.map (Value.rename r)).headD .nil = (vs.headD .nil).rename r := by
  cases vs <;> simp

/-- **A primitive sees no names of closures.** -/
theorem apply_rename (p : Primitive) (args : List Value) :
    p.apply (args.map (Value.rename r)) = (p.apply args).map (Value.rename r) := by
  cases p with
  | add | mul => exact onInts_rename fun xs => bounded_rename _
  | sub =>
    refine onInts_rename fun xs => ?_
    split <;> exact bounded_rename _
  | div =>
    refine onInts_rename fun xs => ?_
    dsimp only
    split
    · rfl
    · exact bounded_rename _
  | mod =>
    refine checked_rename (onInts_rename fun xs => ?_)
    dsimp only
    split
    · rfl
    · exact bounded_rename _
  | less | greater | equal => exact onInts_rename fun xs => congrArg Except.ok (Value.rename_bool _)
  | eq =>
    refine checked_rename ?_
    rcases args with _ | ⟨a, _ | ⟨b, _ | ⟨c, args⟩⟩⟩
    · rfl
    · rfl
    · simp [Value.equal_rename, Except.map]
    · simp [Except.map]
  | car => exact onCons_rename fun _ _ => rfl
  | cdr => exact onCons_rename fun _ _ => (Value.rename_list _).symm
  | cons =>
    refine checked_rename ?_
    rcases args with _ | ⟨x, _ | ⟨xs, _ | ⟨y, args⟩⟩⟩
    · rfl
    · rfl
    · cases xs <;> simp [Except.map]
    · simp [Except.map]
  | list => exact congrArg Except.ok (Value.rename_list _).symm
  | isNil => exact test_rename isNothing_rename
  | isNumber => exact test_rename fun v => by rw [Value.int?_rename]
  | isList => exact test_rename fun v => by rw [Value.list?_rename, Option.isSome_map]
  | isAtom => exact test_rename Value.isAtom_rename
  | println => exact checked_rename (congrArg Except.ok (headD_rename args))

theorem shown_rename (p : Primitive) (args : List Value) :
    p.shown (args.map (Value.rename r)) = (p.shown args).map (Value.rename r) := by
  cases p <;> rfl

/-- Nor does anybody who reads what it prints. -/
theorem printed_rename (p : Primitive) (args : List Value) :
    p.printed (args.map (Value.rename r)) = p.printed args := by
  rw [printed, printed, shown_rename, List.map_map]
  exact List.map_congr_left fun v _ => Value.write_rename .display v

theorem display_rename (host : Host) (v : Value) : host.display (v.rename r) = host.display v := by
  rw [Host.display, Host.display, Host.print, Host.print, Value.nesting_rename, Value.write_rename]

/-- Nor does the host. -/
theorem call_rename (host : Host) (p : Primitive) (args : List Value) :
    p.call host (args.map (Value.rename r)) = (p.call host args).map (Value.rename r) := by
  have hshown : (p.shown (args.map (Value.rename r))).mapM host.display =
      (p.shown args).mapM host.display := by
    rw [shown_rename, List.mapM_map]
    exact congrArg (List.mapM · _) (funext (display_rename host))
  rw [call, call, apply_rename, hshown]
  cases p.apply args with
  | error fault => rfl
  | ok v => cases (p.shown args).mapM host.display <;> rfl

end

/-! ## Calls -/

section

variable {host : Host} {v : Value}

/-- The value of a call is what the primitive computes. -/
theorem apply_of_call (h : p.call host args = .ok v) : p.apply args = .ok v := by
  rw [call] at h
  cases hv : p.apply args with
  | error fault =>
    rw [hv] at h
    cases h
  | ok u =>
    rw [hv] at h
    cases hlines : (p.shown args).mapM host.display <;> rw [hlines] at h <;> cases h
    rfl

theorem call_of_error {fault : Fault} (h : p.apply args = .error fault) :
    p.call host args = .error fault := by
  rw [call, h]
  rfl

/-- A call that prints nothing comes to what the primitive computes. -/
theorem call_of_printed_nil (h : p.printed args = []) : p.call host args = p.apply args := by
  rw [printed, List.map_eq_nil_iff] at h
  rw [call, h]
  cases p.apply args <;> rfl

end

/-! ## Results -/

section

variable {P : Value → Prop} {v : Value}

/-- If there is a result, it has a property. -/
def Yields (P : Value → Prop) (result : Except Fault Value) : Prop :=
  ∀ v, result = .ok v → P v

theorem yields_ok (h : P v) : Yields P (.ok v) := by
  rintro _ ⟨⟩
  exact h

theorem yields_error (fault : Fault) : Yields P (.error fault) := by
  rintro _ ⟨⟩

theorem yields_checked {go : Except Fault Value} (h : Yields P go) :
    Yields P (p.checked args go) := by
  unfold checked
  split
  · exact h
  · exact yields_error _

theorem yields_onInts {go : List Int → Except Fault Value} (h : ∀ xs, Yields P (go xs)) :
    Yields P (p.onInts args go) := by
  unfold onInts
  split
  · exact yields_error _
  · exact yields_checked (h _)

theorem yields_bounded (h : ∀ n, Integer.inRange n = true → P (.int n)) (n : Int) :
    Yields P (bounded n) := by
  unfold bounded
  split
  · next hn => exact yields_ok (h n hn)
  · exact yields_error _

/-- A result is built of arguments, integers in range and constants. -/
theorem apply_built (hint : ∀ n, Integer.inRange n = true → P (.int n)) (hbool : ∀ b, P (.bool b))
    (hnil : P .nil) (hlist : ∀ vs, P (.list vs) ↔ ∀ v ∈ vs, P v) {p : Primitive}
    {args : List Value} (hargs : ∀ a ∈ args, P a) : Yields P (p.apply args) := by
  -- the parts of a list among the arguments
  have hparts : ∀ {x : Value} {xs rest : List Value}, args = .list (x :: xs) :: rest →
      P x ∧ ∀ y ∈ xs, P y := by
    intro x xs rest h
    rw [h, List.forall_mem_cons, hlist, List.forall_mem_cons] at hargs
    exact hargs.1
  cases p with
  | add | mul => exact yields_onInts fun _ => yields_bounded hint _
  | sub =>
    refine yields_onInts fun xs => ?_
    split <;> exact yields_bounded hint _
  | div =>
    refine yields_onInts fun xs => ?_
    dsimp only
    split
    · exact yields_error _
    · exact yields_bounded hint _
  | mod =>
    refine yields_checked (yields_onInts fun xs => ?_)
    dsimp only
    split
    · exact yields_error _
    · exact yields_bounded hint _
  | less | greater | equal => exact yields_onInts fun xs => yields_ok (hbool _)
  | eq =>
    refine yields_checked ?_
    split
    · exact yields_ok (hbool _)
    · exact yields_error _
  | car =>
    refine yields_checked ?_
    split
    · exact yields_ok (hparts rfl).1
    · exact yields_error _
    · exact yields_error _
  | cdr =>
    refine yields_checked ?_
    split
    · exact yields_ok ((hlist _).2 (hparts rfl).2)
    · exact yields_error _
    · exact yields_error _
  | cons =>
    refine yields_checked ?_
    split
    · next x xs =>
      rw [List.forall_mem_cons, List.forall_mem_cons, hlist] at hargs
      exact yields_ok ((hlist _).2 (List.forall_mem_cons.2 ⟨hargs.1, hargs.2.1⟩))
    · exact yields_error _
  | list => exact yields_ok ((hlist _).2 hargs)
  | isNil | isNumber | isList | isAtom => exact yields_checked (yields_ok (hbool _))
  | println =>
    refine yields_checked (yields_ok ?_)
    cases args with
    | nil => exact hnil
    | cons a args => exact hargs a List.mem_cons_self

end

end AmbLisp.Primitive
