import AmbLisp.Proofs.Trail.Rewind

/-!
# The candidates of a trail

`Trail.Offers`: all candidates of a trail have a property. A choice among candidates that have it
keeps it so and comes to a value that has it, and so does going back.
-/

namespace AmbLisp

theorem ChoicePoint.mem_of_current? {p : ChoicePoint} {v : Value} (h : p.current? = some v) :
    v ∈ p.candidates := by
  unfold ChoicePoint.current? SignedIndex.get? at h
  split at h
  · exact List.mem_of_getElem? h
  · split at h
    · exact List.mem_of_getElem? h
    · cases h

namespace Trail

/-- All candidates of all points have a property. -/
def Offers (t : Trail) (P : Value → Prop) : Prop :=
  ∀ p ∈ t.points, ∀ c ∈ p.candidates, P c

variable {t : Trail} {P : Value → Prop}

theorem Offers.imp {Q : Value → Prop} (h : t.Offers P) (hPQ : ∀ v, P v → Q v) : t.Offers Q :=
  fun p hp c hc => hPQ c (h p hp c hc)

theorem offers_new (P : Value → Prop) : Offers {} P := by
  intro p hp
  cases hp

theorem offers_iff :
    t.Offers P ↔ (∀ p ∈ t.passed, ∀ c ∈ p.candidates, P c) ∧
      ∀ p ∈ t.ahead, ∀ c ∈ p.candidates, P c := by
  simp only [Offers, points, List.mem_append, List.mem_reverse, or_imp, forall_and]

theorem Offers.choose (h : t.Offers P) {cs : List Value} (hcs : ∀ c ∈ cs, P c) :
    (t.choose cs).2.Offers P ∧ ∀ v, (t.choose cs).1 = some v → P v := by
  rw [offers_iff] at h ⊢
  obtain ⟨hpassed, hahead⟩ := h
  unfold Trail.choose
  split
  · exact ⟨⟨List.forall_mem_cons.2 ⟨hcs, hpassed⟩, hahead⟩,
      fun v hv => hcs v (ChoicePoint.mem_of_current? (p := { candidates := cs }) hv)⟩
  · next p ha =>
    have hp : ∀ c ∈ p.candidates, P c := hahead p (by rw [ha]; exact List.mem_cons_self)
    exact ⟨⟨List.forall_mem_cons.2 ⟨hp, hpassed⟩, List.forall_mem_nil _⟩,
      fun v hv => hp v (ChoicePoint.mem_of_current? (p := p.advance) hv)⟩
  · next p rest _ ha =>
    rw [ha, List.forall_mem_cons] at hahead
    exact ⟨⟨List.forall_mem_cons.2 ⟨hahead.1, hpassed⟩, hahead.2⟩,
      fun v hv => hahead.1 v (ChoicePoint.mem_of_current? hv)⟩

theorem Offers.retry (h : t.Offers P) : t.retry.2.Offers P := by
  unfold Trail.retry
  split
  · exact h
  · next last outer hp =>
    have hpoints : t.points = outer.reverse ++ [last] := by
      rw [← List.reverse_reverse t.points, hp, List.reverse_cons]
    split
    · exact offers_iff.2 ⟨List.forall_mem_nil _, h⟩
    · split
      · exact offers_new P
      · refine offers_iff.2 ⟨List.forall_mem_nil _, fun p hp => h p ?_⟩
        rw [hpoints]
        exact List.mem_append_left _ hp

end Trail

end AmbLisp
