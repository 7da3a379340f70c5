import AmbLisp.Proofs.Trail.Rewind

/-!
# The trail as a stack with two depths

A trail is cut at the place that a pass has reached, so that choosing takes one step. The plain way
to keep choice points is a stack in which points are found by their index, with two depths beside
it: how many points there are, and how many the present pass has met. `ChoiceStack` does it the
plain way; there an index may fail to exist, and the depths may disagree with the stack.
`after_eq_stack`: after any calls whatever, the stack is the one that the trail stands for, and the
answers were the same; so no index ever fails.
-/

namespace AmbLisp

/-- What may be asked of the choice points of a problem. -/
inductive ChoiceCall where
  /-- A choice at the next `amb` of the pass. -/
  | choose (candidates : List Value)
  /-- A choice at an `amb` without alternatives. -/
  | fail
  /-- Back to the beginning, for another pass. -/
  | retry
  /-- Back to the beginning, for another problem. -/
  | reset

/-- The alternatives of the `amb` at which a call chooses, if it does. -/
def ChoiceCall.candidates? : ChoiceCall → Option (List Value)
  | choose candidates => some candidates
  | fail => some []
  | retry | reset => none

/-- What is answered. -/
inductive ChoiceAnswer where
  | chosen (v : Value)
  /-- No candidate is left at this point. -/
  | exhausted
  /-- Is there another pass? -/
  | more (b : Bool)
  | done
  /-- An index outside the stack, or outside the candidates of a point. -/
  | outOfRange

/-- The answer to a choice. -/
def ChoiceAnswer.ofChoice : Option Value → ChoiceAnswer
  | some v => chosen v
  | none => exhausted

namespace Trail

/-- A call answered along a trail. -/
def call (t : Trail) : ChoiceCall → ChoiceAnswer × Trail
  | .choose candidates => let (v, t) := t.choose candidates; (.ofChoice v, t)
  | .fail => let (v, t) := t.choose []; (.ofChoice v, t)
  | .retry => let (b, t) := t.retry; (.more b, t)
  | .reset => (.done, {})

/-- The trail after some calls. -/
def after (t : Trail) (calls : List ChoiceCall) : Trail :=
  calls.foldl (fun t c => (t.call c).2) t

end Trail

/-! ## Choosing by index -/

/-- The choice points of a problem in a stack, the outermost first. -/
structure ChoiceStack where
  points : List ChoicePoint := []
  /-- How many points there are. -/
  totalDepth : Nat := 0
  /-- How many points this pass has met. -/
  currentDepth : Nat := 0

/-- The candidate that a point has chosen, if its number is that of a candidate. -/
def ChoicePoint.answer (p : ChoicePoint) : ChoiceAnswer :=
  if p.exhausted then .exhausted
  else
    match SignedIndex.get? p.candidates p.cursor with
    | some v => .chosen v
    | none => .outOfRange

namespace ChoiceStack

/-- Chooses at the next `amb` of this pass. -/
def choose (s : ChoiceStack) (candidates : List Value) : ChoiceAnswer × ChoiceStack :=
  let position := s.currentDepth
  let s := { s with currentDepth := position + 1 }
  if position = s.totalDepth then
    let p : ChoicePoint := { candidates }
    (p.answer, { s with points := s.points ++ [p], totalDepth := s.totalDepth + 1 })
  else
    match s.points[position]? with
    | none => (.outOfRange, s)
    | some p =>
      if s.currentDepth < s.totalDepth then (p.answer, s)
      else (p.advance.answer, { s with points := s.points.set position p.advance })

/-- Goes back to the beginning for another pass. -/
def retry (s : ChoiceStack) : ChoiceAnswer × ChoiceStack :=
  if s.totalDepth = 0 then (.more false, s)
  else
    match s.points.getLast? with
    | none => (.outOfRange, s)
    | some p =>
      if p.exhausted then
        if s.points.length = 1 then (.more false, {})
        else
          (.more true, { points := s.points.dropLast, totalDepth := s.points.length - 1 })
      else (.more true, { s with totalDepth := s.points.length, currentDepth := 0 })

/-- A call answered on a stack. -/
def call (s : ChoiceStack) : ChoiceCall → ChoiceAnswer × ChoiceStack
  | .choose candidates => s.choose candidates
  | .fail => s.choose []
  | .retry => s.retry
  | .reset => (.done, {})

/-- The stack after some calls. -/
def after (s : ChoiceStack) (calls : List ChoiceCall) : ChoiceStack :=
  calls.foldl (fun s c => (s.call c).2) s

end ChoiceStack

/-! ## The stack of a trail -/

/-- No point counts from the end of its candidates. -/
def Trail.Counting (t : Trail) : Prop :=
  ∀ p ∈ t.points, 0 ≤ p.cursor

/-- The stack that a trail stands for. -/
def Trail.stack (t : Trail) : ChoiceStack :=
  ⟨t.points, t.totalDepth, t.currentDepth⟩

theorem ChoicePoint.answer_eq {p : ChoicePoint} (h : 0 ≤ p.cursor) :
    p.answer = .ofChoice p.current? := by
  unfold answer
  split
  · next he => rw [current?_eq_none_of_exhausted he]; rfl
  · next he =>
    have hlt : p.cursor < p.candidates.length := by simpa [exhausted] using he
    have hr : SignedIndex.reaches p.candidates p.cursor := by simp [SignedIndex.reaches]; omega
    obtain ⟨v, hv⟩ := Option.isSome_iff_exists.1 (SignedIndex.get?_isSome_of_reaches hr hlt)
    simp only [current?, hv]
    rfl

namespace Trail

theorem points_length (t : Trail) : t.points.length = t.passed.length + t.ahead.length := by
  simp [points]

theorem points_getElem? (t : Trail) : t.points[t.passed.length]? = t.ahead.head? := by
  rw [points, List.getElem?_append_right (by simp)]
  simp [List.head?_eq_getElem?]

theorem Counting.choose {t : Trail} (h : t.Counting) (candidates : List Value) :
    (t.choose candidates).2.Counting := by
  unfold Counting points at *
  unfold Trail.choose
  split
  · next ha =>
    intro p hp
    rcases List.mem_append.1 hp with hp | hp
    · rcases List.mem_cons.1 (List.mem_reverse.1 hp) with rfl | hp
      · exact Int.le_refl 0
      · exact h p (List.mem_append_left _ (List.mem_reverse.2 hp))
    · exact h p (List.mem_append_right _ hp)
  · next p ha =>
    simp only [ha, List.mem_append, List.mem_reverse, List.mem_singleton] at h
    intro q hq
    simp only [List.reverse_cons, List.append_nil, List.mem_append, List.mem_reverse,
      List.mem_singleton] at hq
    rcases hq with hq | rfl
    · exact h q (.inl hq)
    · have := h p (.inr rfl)
      simp only [ChoicePoint.advance]
      omega
  · next p rest _ ha => simpa [ha] using h

theorem Counting.retry {t : Trail} (h : t.Counting) : t.retry.2.Counting := by
  rcases List.eq_nil_or_concat t.points with hp | ⟨qs, q, hp⟩
  · rw [retry_nil hp]
    exact h
  · rw [List.concat_eq_append] at hp
    rw [retry_concat hp]
    split
    · exact h
    · split
      · exact nofun
      · exact fun p hq => h p (by rw [hp]; exact List.mem_append_left _ hq)

theorem Counting.call {t : Trail} (h : t.Counting) (c : ChoiceCall) : (t.call c).2.Counting := by
  cases c with
  | choose candidates => exact h.choose candidates
  | fail => exact h.choose []
  | retry => exact h.retry
  | reset => exact fun p hp => nomatch hp

/-- Choosing by index finds the point that the trail is cut at. -/
theorem choose_stack {t : Trail} (h : t.Counting) (candidates : List Value) :
    t.stack.choose candidates =
      (.ofChoice (t.choose candidates).1, (t.choose candidates).2.stack) := by
  have hlen := t.points_length
  have hget := t.points_getElem?
  unfold ChoiceStack.choose Trail.choose
  split
  · next ha =>
    simp only [stack, totalDepth, currentDepth, ha, List.length_nil, Nat.add_zero, if_pos]
    rw [ChoicePoint.answer_eq (Int.le_refl 0)]
    simp [points, ha]
  · next p ha =>
    rw [ha, List.head?_cons] at hget
    have hp : 0 ≤ p.cursor := h p (List.mem_of_getElem? hget)
    have ha' : t.points = t.passed.reverse ++ [p] := by rw [points, ha]
    simp only [stack, totalDepth, currentDepth, ha, List.length_singleton, hget, Nat.lt_irrefl,
      Nat.left_eq_add, Nat.one_ne_zero, if_false]
    rw [ChoicePoint.answer_eq (by simp only [ChoicePoint.advance]; omega), ha',
      List.set_append_right _ _ (by simp)]
    simp [points]
  · next p rest hne ha =>
    obtain ⟨q, rest, rfl⟩ : ∃ q qs, rest = q :: qs := by
      cases rest with
      | nil => exact absurd rfl hne
      | cons q qs => exact ⟨q, qs, rfl⟩
    rw [ha, List.head?_cons] at hget
    have hp : 0 ≤ p.cursor := h p (List.mem_of_getElem? hget)
    have hne : ¬ t.passed.length = t.passed.length + (p :: q :: rest).length := by simp
    have hlt : t.passed.length + 1 < t.passed.length + (p :: q :: rest).length := by simp
    simp only [stack, totalDepth, currentDepth, ha, hget, if_neg hne, if_pos hlt]
    rw [ChoicePoint.answer_eq hp]
    simp only [points, ha, List.length_cons, List.reverse_cons, List.append_assoc,
      List.singleton_append]
    congr 2
    omega

theorem retry_stack (t : Trail) : t.stack.retry = (.more t.retry.1, t.retry.2.stack) := by
  have hlen := t.points_length
  rcases List.eq_nil_or_concat t.points with hp | ⟨qs, q, hp⟩
  · have htot : t.totalDepth = 0 := by simpa [totalDepth, hp] using hlen.symm
    rw [retry_nil hp]
    simp [ChoiceStack.retry, stack, htot]
  · rw [List.concat_eq_append] at hp
    have htot : t.totalDepth = qs.length + 1 := by simpa [totalDepth, hp] using hlen.symm
    rw [retry_concat hp]
    simp only [ChoiceStack.retry, stack, htot, hp, List.getLast?_concat, List.length_append]
    cases q.exhausted
    · simp [points, totalDepth, currentDepth]
    · by_cases hqs : qs = []
      · simp [hqs, points, totalDepth, currentDepth]
      · simp [hqs, points, totalDepth, currentDepth]

/-- A call is answered on the stack as it is along the trail. -/
theorem call_stack {t : Trail} (h : t.Counting) (c : ChoiceCall) :
    t.stack.call c = ((t.call c).1, (t.call c).2.stack) := by
  cases c with
  | choose candidates => exact choose_stack h candidates
  | fail => exact choose_stack h []
  | retry => exact retry_stack t
  | reset => rfl

/-- **A stack kept by index is the trail.** -/
theorem after_eq_stack {t : Trail} (h : t.Counting) (calls : List ChoiceCall) :
    t.stack.after calls = (t.after calls).stack ∧ (t.after calls).Counting := by
  induction calls generalizing t with
  | nil => exact ⟨rfl, h⟩
  | cons c calls ih =>
    have := ih (h.call c)
    simp only [ChoiceStack.after, Trail.after, List.foldl_cons, call_stack h c] at this ⊢
    exact this

end Trail

end AmbLisp
