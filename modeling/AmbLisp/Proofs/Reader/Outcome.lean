import AmbLisp.Proofs.Outcome
import AmbLisp.Reader

/-!
# What the steps of the reader come to
-/

namespace AmbLisp.Reader

open ExceptT

@[simp] theorem outcome_current (s : Lookahead) : current.outcome s = (.ok s.current, s) := rfl

@[simp] theorem outcome_atEnd (s : Lookahead) :
    atEnd.outcome s = (.ok (decide (s.current.kind = .endOfText)), s) := rfl

/-- To look at the token in view changes nothing. -/
theorem outcome_current_bind {α : Type} (k : Token → ReadM α) (s : Lookahead) :
    (current >>= k).outcome s = (k s.current).outcome s := by
  rw [outcome_bind, outcome_current]

theorem outcome_atEnd_bind {α : Type} (k : Bool → ReadM α) (s : Lookahead) :
    (atEnd >>= k).outcome s = (k (decide (s.current.kind = .endOfText))).outcome s := by
  rw [outcome_bind, outcome_atEnd]

theorem outcome_advance (s : Lookahead) :
    advance.outcome s =
      match s.pending with
      | [] => (.ok s.current, s)
      | .ok token :: pending => (.ok s.current, ⟨token, pending⟩)
      | .error e :: pending => (.error e, ⟨s.current, pending⟩) := by
  rcases s with ⟨t, _ | ⟨_ | t', pending⟩⟩ <;> rfl

@[simp] theorem outcome_lift {α : Type} (r : Except ReadError α) (s : Lookahead) :
    (liftM r : ReadM α).outcome s = (r, s) := rfl

theorem onSource_eq {α : Type} {source : String} (read : ReadM α) :
    onSource source read =
      match start source with
      | .ok s => (read.outcome s).1
      | .error e => .error e := by
  unfold onSource
  cases start source <;> rfl

end AmbLisp.Reader
