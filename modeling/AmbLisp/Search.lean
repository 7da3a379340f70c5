import AmbLisp.Choice
import AmbLisp.Fault

/-!
# Search by passes

A search runs passes along a trail until one of them decides it: with a result, or with a fault that
is not a lack of choices. A pass that lacks a choice is followed by another one, as long as the trail
has something left to try. A search knows nothing of what its passes do but the trail that they leave
behind.

The number of passes is bounded to make the search a function. To run out of them is not an end of the
search but the lack of one: on a machine it would go on.
-/

namespace AmbLisp

/-- What a search needs to know of the state `σ` that its passes work on. -/
structure Search (σ α : Type) where
  /-- One pass along a trail: its result, and the trail and the state that it leaves behind. -/
  pass : Trail → σ → Except Fault α × Trail × σ
  count : σ → Nat
  note : Event → σ → σ

namespace Search

variable {σ α : Type} (search : Search σ α)

/-- Goes back to the beginning of a trail; `false` if there is nothing left to try. -/
def retry (t : Trail) (s : σ) : Bool × Trail × σ :=
  let (more, t') := t.retry
  (more, t', t.retryEvent?.elim s (search.note · s))

/-- Runs at most `n` passes, until one decides the search. The trail is kept as long as there may be
more results. -/
def run : Nat → Trail → σ → Except Fault α × Option Trail × σ
  | 0, _, s => (.error .tooManyPasses, none, s)
  | n + 1, t, s =>
    match search.pass t s with
    | (.ok a, t, s) => (.ok a, some t, s)
    | (.error .noChoice, t, s) =>
      match search.retry t s with
      | (true, t, s) => run n t s
      | (false, _, s) => (.error .noMoreValues, none, search.note (.searchEnded (search.count s)) s)
    | (.error fault, _, s) => (.error fault, none, s)

/-- Looks for the result behind the one that a trail has led to. -/
def again (n : Nat) (t : Trail) (s : σ) : Except Fault α × Option Trail × σ :=
  match search.retry t s with
  | (true, t, s) => search.run n t s
  | (false, _, s) => (.error .noMoreValues, none, s)

end Search

end AmbLisp
