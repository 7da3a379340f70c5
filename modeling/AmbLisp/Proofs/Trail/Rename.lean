import AmbLisp.Choice
import AmbLisp.Proofs.Value.Rename

/-!
# A trail under other names

The candidates of a trail may hold closures, and closures have other names in another store. What is
done along a trail goes by the numbers of its points alone, so it commutes with a renaming of the
candidates.
-/

namespace AmbLisp

theorem SignedIndex.get?_map {α β : Type} (f : α → β) (xs : List α) (i : Int) :
    get? (xs.map f) i = (get? xs i).map f := by
  by_cases h : 0 ≤ i
  · simp [get?, h]
  · by_cases hr : 0 ≤ xs.length + i <;> simp [get?, reaches, h, hr]

namespace ChoicePoint

/-- A point with its candidates renamed. -/
def rename (r : Renaming) (p : ChoicePoint) : ChoicePoint :=
  { p with candidates := p.candidates.map (Value.rename r) }

variable {r : Renaming}

theorem current?_rename (p : ChoicePoint) :
    (p.rename r).current? = p.current?.map (Value.rename r) :=
  SignedIndex.get?_map _ _ _

theorem exhausted_rename (p : ChoicePoint) : (p.rename r).exhausted = p.exhausted := by
  simp only [exhausted, rename, List.length_map]

end ChoicePoint

namespace Trail

/-- A trail with all candidates renamed. -/
def rename (r : Renaming) (t : Trail) : Trail :=
  { t with passed := t.passed.map (ChoicePoint.rename r), ahead := t.ahead.map (ChoicePoint.rename r) }

variable {r : Renaming}

theorem points_rename (t : Trail) : (t.rename r).points = t.points.map (ChoicePoint.rename r) := by
  simp only [points, rename, List.map_append, List.map_reverse]

theorem totalDepth_rename (t : Trail) : (t.rename r).totalDepth = t.totalDepth := by
  simp only [totalDepth, rename, List.length_map]

theorem choose_rename (t : Trail) (cs : List Value) :
    (t.rename r).choose (cs.map (Value.rename r)) =
      ((t.choose cs).1.map (Value.rename r), (t.choose cs).2.rename r) := by
  rcases t with ⟨passed, _ | ⟨p, _ | ⟨q, rest⟩⟩, spent⟩
  · exact Prod.ext (ChoicePoint.current?_rename ⟨cs, 0⟩) rfl
  · exact Prod.ext (ChoicePoint.current?_rename p.advance) rfl
  · exact Prod.ext (ChoicePoint.current?_rename p) rfl

theorem choiceEvent?_rename (t : Trail) (cs : List Value) :
    (t.rename r).choiceEvent? (cs.map (Value.rename r)) = t.choiceEvent? cs := by
  rcases t with ⟨passed, _ | ⟨p, _ | ⟨q, rest⟩⟩, spent⟩ <;>
    simp [choiceEvent?, rename, currentDepth, ChoicePoint.rename]

theorem retry_rename (t : Trail) : (t.rename r).retry = (t.retry.1, t.retry.2.rename r) := by
  unfold retry
  rw [points_rename, ← List.map_reverse]
  rcases hp : t.points.reverse with _ | ⟨last, outer⟩
  · rfl
  · rw [List.map_cons]
    dsimp only
    rw [ChoicePoint.exhausted_rename, List.isEmpty_map, ← List.map_reverse]
    cases last.exhausted <;> cases outer.isEmpty <;> rfl

theorem retryEvent?_rename (t : Trail) : (t.rename r).retryEvent? = t.retryEvent? := by
  unfold retryEvent?
  rw [points_rename, ← List.map_reverse, totalDepth_rename]
  rcases hp : t.points.reverse with _ | ⟨last, outer⟩
  · rfl
  · rw [List.map_cons]
    dsimp only
    rw [ChoicePoint.exhausted_rename, List.isEmpty_map]

end Trail

end AmbLisp
