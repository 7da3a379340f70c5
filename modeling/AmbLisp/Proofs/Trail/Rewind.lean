import AmbLisp.Choice

/-!
# Going back along a trail

`rewind` is the list of points that the next pass finds ahead of it: all points, less the last one
if it is spent. `retry_of_rewind_ne_nil` and `retry_of_rewind_eq_nil` say of `Trail.retry` that it
puts exactly these points ahead, and that it gives up when there are none.
-/

namespace AmbLisp

/-- The points that are left when the last one is dropped if it is spent. -/
def rewind (ps : List ChoicePoint) : List ChoicePoint :=
  match ps.getLast? with
  | some p => if p.exhausted then ps.dropLast else ps
  | none => []

@[simp] theorem rewind_nil : rewind [] = [] := rfl

theorem rewind_concat (ps : List ChoicePoint) (p : ChoicePoint) :
    rewind (ps ++ [p]) = if p.exhausted then ps else ps ++ [p] := by
  simp [rewind]

theorem rewind_cons {p : ChoicePoint} (h : p.exhausted = false) (ps : List ChoicePoint) :
    rewind (p :: ps) = p :: rewind ps := by
  rcases List.eq_nil_or_concat ps with rfl | ⟨qs, q, rfl⟩
  · simpa [h] using rewind_concat [] p
  · rw [List.concat_eq_append, ← List.cons_append, rewind_concat, rewind_concat]
    split <;> rfl

theorem rewind_singleton_of_exhausted {p : ChoicePoint} (h : p.exhausted = true) :
    rewind [p] = [] := by
  simpa [h] using rewind_concat [] p

namespace Trail

variable {t : Trail}

theorem retry_nil (h : t.points = []) : t.retry = (false, t) := by
  simp [retry, h]

theorem retry_concat {qs : List ChoicePoint} {q : ChoicePoint} (h : t.points = qs ++ [q]) :
    t.retry =
      if q.exhausted = false then (true, { t with passed := [], ahead := t.points })
      else if qs = [] then (false, { spent := true })
      else (true, { t with passed := [], ahead := qs }) := by
  simp [retry, h]

theorem retry_of_rewind_ne_nil (h : rewind t.points ≠ []) :
    t.retry = (true, ⟨[], rewind t.points, t.spent⟩) := by
  rcases List.eq_nil_or_concat t.points with hp | ⟨qs, q, hp⟩
  · exact absurd (by rw [hp]; rfl) h
  · rw [List.concat_eq_append] at hp
    rw [retry_concat hp]
    rw [hp, rewind_concat] at h ⊢
    cases hq : q.exhausted
    · simp
    · have hqs : qs ≠ [] := by simpa [hq] using h
      simp [hqs]

theorem retry_of_rewind_eq_nil (h : rewind t.points = []) :
    t.retry.1 = false ∧ t.retry.2.points = [] := by
  rcases List.eq_nil_or_concat t.points with hp | ⟨qs, q, hp⟩
  · rw [retry_nil hp]
    exact ⟨rfl, hp⟩
  · rw [List.concat_eq_append] at hp
    rw [hp, rewind_concat] at h
    cases hq : q.exhausted
    · simp [hq] at h
    · have hqs : qs = [] := by simpa [hq] using h
      rw [retry_concat hp, hq, if_neg nofun, if_pos hqs]
      exact ⟨rfl, rfl⟩

end Trail

end AmbLisp
