import AmbLisp.Proofs.Trail.Stack

/-!
# The discipline of choosing

A pass that lacks a choice is over: it asks for no other one before the trail is taken back or
replaced. `Disciplined` calls are those that comply. They keep a trail `Orderly`: every point has
chosen a candidate, but for the last one when a choice has just been refused. `Orderly.call` is the
step, `Disciplined.orderly` the run.
-/

namespace AmbLisp

/-- Is it a lack of choices? -/
def ChoiceAnswer.refused : ChoiceAnswer → Bool
  | exhausted => true
  | _ => false

theorem ChoiceAnswer.refused_ofChoice (v? : Option Value) :
    (ofChoice v?).refused = v?.isNone := by
  cases v? <;> rfl

theorem ChoiceAnswer.ofChoice_ne_outOfRange (v? : Option Value) : ofChoice v? ≠ .outOfRange := by
  cases v? <;> nofun

/-- The number of a point is that of one of its candidates. -/
def ChoicePoint.Open (p : ChoicePoint) : Prop :=
  0 ≤ p.cursor ∧ p.cursor < p.candidates.length

/-- The number of a point is the one behind its candidates. -/
def ChoicePoint.Spent (p : ChoicePoint) : Prop :=
  p.cursor = p.candidates.length

namespace ChoicePoint

variable {p : ChoicePoint}

theorem Open.exhausted (h : p.Open) : p.exhausted = false := by
  simpa [ChoicePoint.exhausted] using h.2

theorem Spent.exhausted (h : p.Spent) : p.exhausted = true := by
  have hc : p.cursor = p.candidates.length := h
  simp [ChoicePoint.exhausted, hc]

theorem Open.isSome_current? (h : p.Open) : p.current?.isSome := by
  have hr : SignedIndex.reaches p.candidates p.cursor := by
    have := h.1
    simp [SignedIndex.reaches]
    omega
  exact SignedIndex.get?_isSome_of_reaches hr h.2

theorem Spent.current?_eq_none (h : p.Spent) : p.current? = none :=
  current?_eq_none_of_exhausted h.exhausted

theorem Open.advance (h : p.Open) : p.advance.Open ∨ p.advance.Spent := by
  have h₁ := h.1
  have h₂ := h.2
  unfold Open Spent ChoicePoint.advance
  simp only
  omega

theorem new_open_or_spent (cs : List Value) :
    (⟨cs, 0⟩ : ChoicePoint).Open ∨ (⟨cs, 0⟩ : ChoicePoint).Spent ∧ cs = [] := by
  cases cs with
  | nil => exact .inr ⟨rfl, rfl⟩
  | cons c cs => exact .inl ⟨Int.le_refl _, by simp only [List.length_cons]; omega⟩

end ChoicePoint

namespace Trail

/-- The state of the points of a trail, after a choice was refused or not. -/
inductive Orderly : Bool → Trail → Prop
  | going {t : Trail} (h : ∀ p ∈ t.points, p.Open) : Orderly false t
  | stuck {t : Trail} {p : ChoicePoint} {outer : List ChoicePoint} (hp : t.passed = p :: outer)
      (ha : t.ahead = []) (hs : p.Spent) (h : ∀ q ∈ outer, q.Open) : Orderly true t

/-- Calls between two trails, in a row in which no choice follows a refused one. Before the first of
them a choice was refused or not, and so it is after the last. -/
inductive Disciplined : Bool → Trail → List ChoiceCall → Bool → Trail → Prop
  | done (lacked : Bool) (t : Trail) : Disciplined lacked t [] lacked t
  | call {lacked lacked' : Bool} {t t' : Trail} {c : ChoiceCall} {calls : List ChoiceCall}
      (hc : lacked = true → c.candidates? = none)
      (h : Disciplined (t.call c).1.refused (t.call c).2 calls lacked' t') :
      Disciplined lacked t (c :: calls) lacked' t'

variable {t t' : Trail} {lacked lacked' : Bool}

theorem orderly_new : Orderly false {} := .going nofun

/-! ## One call -/

/-- A choice behind the trail of a pass, or at its last point. -/
theorem orderly_push {p : ChoicePoint} {outer : List ChoicePoint} {spent : Bool}
    (hp : p.Open ∨ p.Spent) (h : ∀ q ∈ outer, q.Open) :
    Orderly p.current?.isNone ⟨p :: outer, [], spent⟩ := by
  rcases hp with hp | hp
  · rw [← Option.not_isSome, hp.isSome_current?]
    refine .going fun q hq => ?_
    rcases List.mem_cons.1 (List.mem_reverse.1 (by simpa [points] using hq)) with rfl | hq
    · exact hp
    · exact h q hq
  · rw [hp.current?_eq_none]
    exact .stuck rfl rfl hp h

/-- A choice keeps the order, and says so if it is refused. That happens at a new point without
candidates or at the last point of the trail. -/
theorem Orderly.choose (h : Orderly false t) (cs : List Value) :
    Orderly (t.choose cs).1.isNone (t.choose cs).2 ∧
      ((t.choose cs).1 = none →
        t.currentDepth = t.totalDepth ∧ cs = [] ∨ t.currentDepth + 1 = t.totalDepth) := by
  obtain ⟨hopen⟩ := h
  unfold Trail.choose
  split
  · next ha =>
    have hpassed : ∀ q ∈ t.passed, q.Open := fun q hq => hopen q (by simp [points, hq])
    have hnew := ChoicePoint.new_open_or_spent cs
    rw [ha]
    refine ⟨orderly_push (hnew.imp id And.left) hpassed, fun hnone => ?_⟩
    rcases hnew with hnew | ⟨-, hcs⟩
    · rw [← Option.not_isSome_iff_eq_none] at hnone
      exact absurd hnew.isSome_current? hnone
    · exact .inl ⟨by simp [currentDepth, totalDepth, ha], hcs⟩
  · next p ha =>
    have hpassed : ∀ q ∈ t.passed, q.Open := fun q hq => hopen q (by simp [points, hq])
    have hp : p.Open := hopen p (by simp [points, ha])
    exact ⟨orderly_push hp.advance hpassed, fun _ => .inr (by simp [currentDepth, totalDepth, ha])⟩
  · next p rest _ ha =>
    have hp : p.Open := hopen p (by simp [points, ha])
    rw [← Option.not_isSome, hp.isSome_current?]
    refine ⟨.going ?_, fun hnone => ?_⟩
    · simpa [points, ha] using hopen
    · have hsome := hp.isSome_current?
      rw [show p.current? = none from hnone] at hsome
      cases hsome

/-- Going back restores the order: the point at which a choice was refused is dropped. -/
theorem Orderly.retry (h : Orderly lacked t) : Orderly false t.retry.2 := by
  cases h with
  | going h =>
    rcases List.eq_nil_or_concat t.points with hp | ⟨qs, q, hp⟩
    · rw [retry_nil hp]
      exact .going h
    · rw [List.concat_eq_append] at hp
      rw [retry_concat hp, if_pos (h q (by simp [hp])).exhausted]
      exact .going h
  | @stuck _ p outer hp ha hs h =>
    have hpts : t.points = outer.reverse ++ [p] := by simp [points, hp, ha]
    rw [retry_concat hpts, hs.exhausted, if_neg (by decide)]
    split
    · refine .going fun q hq => ?_
      cases hq
    · exact .going fun q hq => h q (List.mem_reverse.1 hq)

/-- **The step**: a call that complies keeps the order. -/
theorem Orderly.call (h : Orderly lacked t) {c : ChoiceCall}
    (hc : lacked = true → c.candidates? = none) :
    Orderly (t.call c).1.refused (t.call c).2 := by
  cases c with
  | choose cs =>
    cases lacked with
    | true => cases hc rfl
    | false => simpa only [Trail.call, ChoiceAnswer.refused_ofChoice] using (h.choose cs).1
  | fail =>
    cases lacked with
    | true => cases hc rfl
    | false => simpa only [Trail.call, ChoiceAnswer.refused_ofChoice] using (h.choose []).1
  | retry => exact h.retry
  | reset => exact orderly_new

/-! ## Runs of calls -/

/-- **The run**: calls that comply keep the order. -/
theorem Disciplined.orderly {calls : List ChoiceCall} (h : Disciplined lacked t calls lacked' t')
    (ht : Orderly lacked t) : Orderly lacked' t' := by
  induction h with
  | done => exact ht
  | call hc _ ih => exact ih (ht.call hc)

theorem Disciplined.after {calls : List ChoiceCall} (h : Disciplined lacked t calls lacked' t') :
    t' = t.after calls := by
  induction h with
  | done => rfl
  | call _ _ ih => exact ih

theorem Disciplined.trans {t'' : Trail} {lacked'' : Bool} {calls calls' : List ChoiceCall}
    (h : Disciplined lacked t calls lacked' t') (h' : Disciplined lacked' t' calls' lacked'' t'') :
    Disciplined lacked t (calls ++ calls') lacked'' t'' := by
  induction h with
  | done => exact h'
  | call hc _ ih => exact .call hc (ih h')

/-- One more call. -/
theorem Disciplined.snoc {calls : List ChoiceCall} (h : Disciplined lacked t calls lacked' t')
    {c : ChoiceCall} (hc : lacked' = true → c.candidates? = none) :
    Disciplined lacked t (calls ++ [c]) (t'.call c).1.refused (t'.call c).2 :=
  h.trans (.call hc (.done _ _))

/-! ## What order means -/

/-- Only the last point can be spent. -/
theorem Orderly.dropLast (h : Orderly lacked t) : ∀ p ∈ t.points.dropLast, p.exhausted = false := by
  intro p hp
  cases h with
  | going h => exact (h p (List.dropLast_subset _ hp)).exhausted
  | stuck hpassed ha hs h =>
    refine (h p ?_).exhausted
    simpa [points, hpassed, ha] using hp

/-- No number is more than one behind the candidates. -/
theorem Orderly.bounds (h : Orderly lacked t) :
    ∀ p ∈ t.points, 0 ≤ p.cursor ∧ p.cursor ≤ p.candidates.length := by
  intro p hp
  cases h with
  | going h => exact ⟨(h p hp).1, Int.le_of_lt (h p hp).2⟩
  | @stuck _ q outer hpassed ha hs h =>
    rcases List.mem_cons.1 (by simpa [points, hpassed, ha, or_comm] using hp) with rfl | hp
    · have : p.cursor = p.candidates.length := hs
      omega
    · exact ⟨(h p hp).1, Int.le_of_lt (h p hp).2⟩

/-- A refused choice was the last one, at a spent point. -/
theorem Orderly.refused (h : Orderly true t) :
    t.currentDepth = t.totalDepth ∧ ∃ p, t.points.getLast? = some p ∧ p.exhausted = true := by
  cases h with
  | @stuck _ p outer hp ha hs h =>
    exact ⟨by simp [currentDepth, totalDepth, ha], p, by simp [points, hp, ha], hs.exhausted⟩

/-- No point is spent as long as no choice is refused. -/
theorem Orderly.none_exhausted (h : Orderly false t) : ∀ p ∈ t.points, p.exhausted = false := by
  cases h with
  | going h => exact fun p hp => (h p hp).exhausted

end Trail

end AmbLisp
