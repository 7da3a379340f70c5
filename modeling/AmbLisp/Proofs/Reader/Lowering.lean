import AmbLisp.Proofs.Reader.Derivation
import AmbLisp.Proofs.Token.Continued

/-!
# Reading further down

The reader looks at positions only to report them. On the same tokens so many lines further down it
reads the same forms, and comes upon the same errors so many lines further down
(`programOn_lowered`).
-/

namespace AmbLisp

/-- The state of reading, so many lines further down. -/
def Lookahead.below (k : Nat) (s : Lookahead) : Lookahead :=
  ⟨s.current.below k, s.pending.map (lowered k (Token.below k))⟩

namespace Reader

open ExceptT

variable {α β : Type} {k : Nat}

/-- One step of the reader does so many lines further down what another does here; `f` says what it
returns there. -/
def Lowers (k : Nat) (f : α → α) (act act' : ReadM α) : Prop :=
  ∀ s, act'.outcome (s.below k) = (lowered k f (act.outcome s).1, (act.outcome s).2.below k)

theorem lowers_pure (a : α) : Lowers k id (pure a) (pure a) := fun _ => rfl

theorem lowers_throw {f : α → α} (reason : ReadError.Reason) (p : Position) :
    Lowers k f (throw ⟨reason, p⟩) (throw ⟨reason, p.below k⟩) := fun _ => rfl

theorem Lowers.bind {f : α → α} {g : β → β} {act act' : ReadM α} {c c' : α → ReadM β}
    (h : Lowers k f act act') (hc : ∀ a, Lowers k g (c a) (c' (f a))) :
    Lowers k g (act >>= c) (act' >>= c') := by
  intro s
  rw [outcome_bind, outcome_bind, h s]
  rcases act.outcome s with ⟨e | a, s'⟩
  · rfl
  · exact hc a s'

theorem lowers_current : Lowers k (Token.below k) current current := fun _ => rfl

theorem lowers_atEnd : Lowers k id atEnd atEnd := fun _ => rfl

theorem lowers_advance : Lowers k (Token.below k) advance advance := by
  rintro ⟨t, pending⟩
  rw [outcome_advance, outcome_advance]
  match pending with
  | [] | .ok u :: pending | .error e :: pending => rfl

theorem lowers_integer (t : Token) :
    Lowers k id (liftM (integer t)) (liftM (integer (t.below k))) := by
  obtain ⟨kind, text, p⟩ := t
  have hresult : integer ⟨kind, text, p.below k⟩ = lowered k id (integer ⟨kind, text, p⟩) := by
    unfold integer
    dsimp only
    split
    · rfl
    · split
      · rfl
      · split <;> rfl
  intro s
  rw [outcome_lift, outcome_lift, ← hresult]
  rfl

theorem lowers_words (p : Position) (n : Nat) :
    Lowers k id (words p n) (words (p.below k) n) := by
  induction n with
  | zero => exact lowers_throw .unclosedString p
  | succ n ih =>
    refine lowers_current.bind fun t => ?_
    simp only [Token.kind_below]
    split
    · exact lowers_advance.bind fun _ => lowers_pure []
    · refine lowers_atEnd.bind fun b => ?_
      simp only [id]
      split
      · exact lowers_throw .unclosedString p
      · exact lowers_advance.bind fun _ => ih.bind fun _ => lowers_pure _

theorem lowers_form_forms (n : Nat) :
    Lowers k id (form n) (form n) ∧ ∀ p, Lowers k id (forms p n) (forms (p.below k) n) := by
  induction n with
  | zero =>
    refine ⟨lowers_current.bind fun t => ?_, fun p => lowers_throw .unclosedList p⟩
    exact lowers_throw .unexpectedEnd t.pos
  | succ n ih =>
    obtain ⟨hform, hforms⟩ := ih
    constructor
    · rw [form]
      refine lowers_current.bind fun t => ?_
      simp only [Token.kind_below]
      cases t.kind with
      | openParen =>
        exact lowers_advance.bind fun o => (hforms o.pos).bind fun _ => lowers_pure _
      | openBracket =>
        exact lowers_advance.bind fun o => (lowers_words o.pos n).bind fun _ => lowers_pure _
      | quote =>
        refine lowers_advance.bind fun _ => lowers_atEnd.bind fun b => ?_
        simp only [id]
        split
        · exact lowers_throw .nothingAfterQuote t.pos
        · exact hform.bind fun _ => lowers_pure _
      | integer => exact lowers_advance.bind fun _ => lowers_integer t
      | boolean | nil | string | symbol => exact lowers_advance.bind fun _ => lowers_pure _
      | endOfText => exact lowers_throw .unexpectedEnd t.pos
      | closeParen | closeBracket => exact lowers_throw (.unexpected t.text) t.pos
    · intro p
      rw [forms, forms]
      refine lowers_current.bind fun t => ?_
      simp only [Token.kind_below]
      split
      · exact lowers_advance.bind fun _ => lowers_pure []
      · refine lowers_atEnd.bind fun b => ?_
        simp only [id]
        split
        · exact lowers_throw .unclosedList p
        · exact hform.bind fun _ => (hforms p).bind fun _ => lowers_pure _

theorem lowers_program (n : Nat) : Lowers k id (program n) (program n) := by
  induction n with
  | zero => exact lowers_pure []
  | succ n ih =>
    refine lowers_atEnd.bind fun b => ?_
    simp only [id]
    split
    · exact lowers_pure []
    · exact (lowers_form_forms n).1.bind fun _ => ih.bind fun _ => lowers_pure _

/-- **The same tokens further down** are read as the same forms. -/
theorem programOn_lowered {stream : List (Except ReadError Token)} (hstream : stream ≠ []) (n : Nat) :
    programOn n (stream.map (lowered k (Token.below k))) = lowered k id (programOn n stream) := by
  match stream, hstream with
  | .ok t :: pending, _ => exact congrArg Prod.fst (lowers_program n ⟨t, pending⟩)
  | .error e :: pending, _ => rfl

end Reader

end AmbLisp
