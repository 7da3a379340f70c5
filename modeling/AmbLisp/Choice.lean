import AmbLisp.Journal
import AmbLisp.SignedIndex
import AmbLisp.Value.Basic

/-!
# Choice points

Search works without continuations: to look for another value, a whole problem is evaluated again.
The trail tells such a pass what to choose. It lists the choice points of the pass before in the
order in which that pass met them, and a pass goes along it:

* at a point that is not the last of the trail, it chooses as before;
* at the last point, it moves on to the next candidate;
* behind the trail, it makes a new point and takes its first candidate.

Between two passes the last point is dropped if it is spent. So the passes of a problem visit the
combinations of choices depth first, the point met last changing fastest.

A trail is kept as two lists, the points that the present pass has met and those ahead of it, so that
the pass finds its next point at the front.
-/

namespace AmbLisp

/-! ## One point -/

/-- An `amb`, met during a pass: its alternatives, and the number of the one that is chosen. A search
starts at zero and counts upwards; a number below zero counts from the end. -/
structure ChoicePoint where
  candidates : List Value := []
  cursor : Int := 0

namespace ChoicePoint

/-- No candidate is chosen any more. -/
def exhausted (p : ChoicePoint) : Bool :=
  p.candidates.length ≤ p.cursor

/-- There is a candidate after the one that is chosen. -/
def hasNext (p : ChoicePoint) : Bool :=
  p.cursor + 1 < p.candidates.length

/-- The candidate that is chosen. -/
def current? (p : ChoicePoint) : Option Value :=
  SignedIndex.get? p.candidates p.cursor

/-- The point, moved on to its next candidate or past its last one. -/
def advance (p : ChoicePoint) : ChoicePoint :=
  { p with cursor := p.cursor + 1 }

theorem current?_ofNat (candidates : List Value) (n : Nat) :
    (⟨candidates, n⟩ : ChoicePoint).current? = candidates[n]? :=
  SignedIndex.get?_ofNat candidates n

theorem current?_eq_none_of_exhausted {p : ChoicePoint} (h : p.exhausted = true) :
    p.current? = none :=
  SignedIndex.get?_eq_none_of_length_le (of_decide_eq_true h)

end ChoicePoint

/-! ## The trail -/

/-- How far a search has come. -/
inductive SearchState where
  /-- No choice point yet. -/
  | idle
  /-- There are choice points. -/
  | inProgress
  /-- The outermost choice point has been used up. -/
  | exhausted
deriving DecidableEq, Repr

/-- The name of a state. -/
def SearchState.name : SearchState → String
  | idle => "IDLE" | inProgress => "IN_PROGRESS" | exhausted => "EXHAUSTED"

/-- The choice points of a problem, cut at the place that the present pass has reached. -/
structure Trail where
  /-- The points that this pass has met, the last one first. -/
  passed : List ChoicePoint := []
  /-- The points of the pass before that this pass has not met yet. -/
  ahead : List ChoicePoint := []
  /-- Has the outermost point been used up? -/
  spent : Bool := false

namespace Trail

/-- All points, from the outermost on. -/
def points (t : Trail) : List ChoicePoint :=
  t.passed.reverse ++ t.ahead

/-- How many points this pass has met. -/
def currentDepth (t : Trail) : Nat :=
  t.passed.length

/-- How many points there are. -/
def totalDepth (t : Trail) : Nat :=
  t.passed.length + t.ahead.length

/-- How far the search has come. -/
def state (t : Trail) : SearchState :=
  if !t.points.isEmpty then .inProgress else if t.spent then .exhausted else .idle

/-- Chooses at the next `amb` of this pass, whose alternatives are `candidates`; there is no choice
if the point has no candidate left. -/
def choose (t : Trail) (candidates : List Value) : Option Value × Trail :=
  match t.ahead with
  | [] =>
    let p : ChoicePoint := { candidates }
    (p.current?, { t with passed := p :: t.passed })
  | [p] => (p.advance.current?, { t with passed := p.advance :: t.passed, ahead := [] })
  | p :: rest => (p.current?, { t with passed := p :: t.passed, ahead := rest })

/-- What is worth noting about a choice. -/
def choiceEvent? (t : Trail) (candidates : List Value) : Option Event :=
  match t.ahead with
  | [] => some (.newPoint (t.currentDepth + 1) candidates.length)
  | [p] => some (.nextCandidate (t.currentDepth + 1) (p.cursor + 2) p.candidates.length)
  | _ => none

/-- Goes back to the beginning for another pass; `false` if there is nothing left to try. -/
def retry (t : Trail) : Bool × Trail :=
  match t.points.reverse with
  | [] => (false, t)
  | last :: outer =>
    if !last.exhausted then (true, { t with passed := [], ahead := t.points })
    else if outer.isEmpty then (false, { passed := [], ahead := [], spent := true })
    else (true, { t with passed := [], ahead := outer.reverse })

/-- What is worth noting about going back. -/
def retryEvent? (t : Trail) : Option Event :=
  match t.points.reverse with
  | [] => none
  | last :: outer =>
    if !last.exhausted then none
    else if outer.isEmpty then some .allSpent
    else some (.backtrack t.totalDepth)

theorem currentDepth_choose (t : Trail) (candidates : List Value) :
    (t.choose candidates).2.currentDepth = t.currentDepth + 1 := by
  unfold choose
  split <;> rfl

end Trail

end AmbLisp
