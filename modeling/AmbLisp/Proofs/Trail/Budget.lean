import Mathlib.Algebra.Ring.Nat
import AmbLisp.Proofs.Trail.Discipline

/-!
# How many passes a trail is good for

Passes need not agree on anything: each may meet other `amb`s with other candidates than the one
before. What they share is the trail. Where a pass meets at most `D` points of at most `B`
candidates, the numbers of the points are a position in the complete tree of depth `D` in which each
inner node has `B` children, and a pass only moves it forward.

`remaining` counts the nodes of that tree that come after a position, `Trail.budget` those that come
after the place that a pass has reached. A choice that is granted leaves the budget as it is, and
one that is refused leaves less than that for the passes to come (`Trail.fits_choose`, and
`Trail.fits_choices` for all choices of a pass).
-/

namespace AmbLisp

/-- The nodes of a tree of depth `d` in which each inner node has `B` children. -/
def nodes (B : Nat) : Nat → Nat
  | 0 => 1
  | d + 1 => B * nodes B d + 1

/-- The nodes behind a position, which is given by the points on the way to it. -/
def remaining (B : Nat) : Nat → List ChoicePoint → Nat
  | d + 1, p :: ps => remaining B d ps + ((B - (p.cursor.toNat + 1)) * nodes B d + 1)
  | _, _ => 0

/-- There are at most `D` points, of at most `B` candidates each, and all have chosen one. -/
structure Fits (D B : Nat) (ps : List ChoicePoint) : Prop where
  chosen : ∀ p ∈ ps, p.Open
  narrow : ∀ p ∈ ps, p.candidates.length ≤ B
  short : ps.length ≤ D

section

variable {B D d n : Nat} {p : ChoicePoint} {ps : List ChoicePoint}

theorem nodes_pos (B d : Nat) : 0 < nodes B d := by
  cases d <;> exact Nat.succ_pos _

theorem nodes_succ (B d : Nat) : nodes B (d + 1) = nodes B d + B ^ (d + 1) := by
  induction d with
  | zero => simp [nodes, Nat.add_comm]
  | succ d ih =>
    calc
      nodes B (d + 2) = B * (nodes B d + B ^ (d + 1)) + 1 := by rw [← ih, nodes]
      _ = B * nodes B d + B * B ^ (d + 1) + 1 := by rw [Nat.mul_add]
      _ = B * nodes B d + 1 + B ^ (d + 2) := by rw [← Nat.pow_succ', Nat.add_right_comm]

/-- Level by level. -/
theorem nodes_eq_sum (B D : Nat) : nodes B D = ((List.range (D + 1)).map (B ^ ·)).sum := by
  induction D with
  | zero => rfl
  | succ d ih =>
    rw [List.range_succ, List.map_append, List.sum_append_nat, ← ih, nodes_succ]
    simp

/-- The subtree of a child and those behind it. -/
theorem subtrees {c : Nat} (h : c < B) : (B - (c + 1)) * n + n = (B - c) * n := by
  obtain ⟨k, rfl⟩ : ∃ k, B = c + 1 + k := ⟨B - (c + 1), by omega⟩
  have hk : c + 1 + k - c = k + 1 := by omega
  rw [Nat.add_sub_cancel_left, hk, Nat.succ_mul]

@[simp] theorem remaining_nil (B d : Nat) : remaining B d [] = 0 := by
  cases d <;> rfl

theorem remaining_concat (h : ps.length < d) :
    remaining B d (ps ++ [p]) =
      remaining B d ps + ((B - (p.cursor.toNat + 1)) * nodes B (d - (ps.length + 1)) + 1) := by
  induction ps generalizing d with
  | nil =>
    obtain ⟨d, rfl⟩ := Nat.exists_eq_add_one.2 h
    simp [remaining]
  | cons q ps ih =>
    obtain ⟨d, rfl⟩ := Nat.exists_eq_add_one.2 (Nat.lt_of_le_of_lt (Nat.zero_le _) h)
    have hd : d + 1 - (ps.length + 1 + 1) = d - (ps.length + 1) := Nat.add_sub_add_right ..
    rw [List.cons_append, remaining, remaining, ih (Nat.lt_of_succ_lt_succ h), List.length_cons, hd]
    omega

namespace Fits

theorem nil : Fits D B [] := ⟨nofun, nofun, Nat.zero_le D⟩

theorem concat (h : Fits D B ps) (hp : p.Open) (hn : p.candidates.length ≤ B)
    (hs : ps.length < D) : Fits D B (ps ++ [p]) := by
  refine ⟨?_, ?_, by rw [List.length_append]; exact hs⟩
  · intro q hq
    rcases List.mem_append.1 hq with hq | hq
    · exact h.chosen q hq
    · exact List.mem_singleton.1 hq ▸ hp
  · intro q hq
    rcases List.mem_append.1 hq with hq | hq
    · exact h.narrow q hq
    · exact List.mem_singleton.1 hq ▸ hn

theorem of_append {qs : List ChoicePoint} (h : Fits D B (ps ++ qs)) : Fits D B ps := by
  refine ⟨fun p hp => h.chosen p (List.mem_append_left _ hp),
    fun p hp => h.narrow p (List.mem_append_left _ hp), ?_⟩
  have := h.short
  rw [List.length_append] at this
  omega

theorem tail (h : Fits (D + 1) B (p :: ps)) : Fits D B ps :=
  ⟨fun q hq => h.chosen q (List.mem_cons_of_mem _ hq),
    fun q hq => h.narrow q (List.mem_cons_of_mem _ hq), Nat.le_of_succ_le_succ h.short⟩

/-- The number of a point is below the bound. -/
theorem cursor_lt (h : Fits D B ps) (hp : p ∈ ps) : p.cursor.toNat < B := by
  have hopen := h.chosen p hp
  have hnarrow := h.narrow p hp
  have h₀ := hopen.1
  have h₁ := hopen.2
  omega

/-- The root is before every position. -/
theorem remaining_lt_nodes (h : Fits D B ps) : remaining B D ps < nodes B D := by
  induction ps generalizing D with
  | nil => rw [remaining_nil]; exact nodes_pos B D
  | cons p ps ih =>
    obtain ⟨d, rfl⟩ := Nat.exists_eq_add_one.2 (Nat.lt_of_lt_of_le (Nat.succ_pos _) h.short)
    have hc : p.cursor.toNat < B := h.cursor_lt List.mem_cons_self
    have htail : remaining B d ps < nodes B d := ih h.tail
    have hsub := subtrees (n := nodes B d) hc
    have hle : (B - p.cursor.toNat) * nodes B d ≤ B * nodes B d :=
      Nat.mul_le_mul_right _ (Nat.sub_le ..)
    rw [remaining, nodes]
    omega

theorem remaining_pos (h : Fits D B ps) (hne : ps ≠ []) : 0 < remaining B D ps := by
  obtain ⟨p, ps, rfl⟩ := List.exists_cons_of_ne_nil hne
  obtain ⟨d, rfl⟩ := Nat.exists_eq_add_one.2 (Nat.lt_of_lt_of_le (Nat.succ_pos _) h.short)
  exact Nat.succ_pos _

/-- No point is spent. -/
theorem rewind (h : Fits D B ps) : Fits D B (rewind ps) := by
  rcases List.eq_nil_or_concat ps with rfl | ⟨qs, q, rfl⟩
  · exact nil
  · rw [List.concat_eq_append] at h ⊢
    rw [rewind_concat, (h.chosen q (by simp)).exhausted, if_neg Bool.false_ne_true]
    exact h

end Fits

end

namespace Trail

variable {B D : Nat} {t t' : Trail} {cs : List Value}

/-- The nodes behind the place that a pass has reached. If the trail goes no further, what comes
next is a whole subtree. -/
def budget (B D : Nat) (t : Trail) : Nat :=
  remaining B D t.points + if t.ahead = [] then nodes B (D - t.points.length) else 0

theorem budget_new (B D : Nat) : budget B D {} = nodes B D := by
  simp [budget, points]

/-- The budget of a pass that is to go along some points. -/
theorem budget_ahead {ps : List ChoicePoint} (h : ps ≠ []) (spent : Bool) :
    budget B D ⟨[], ps, spent⟩ = remaining B D ps := by
  simp [budget, points, h]

theorem budget_pos (h : Fits D B t.points) : 0 < t.budget B D := by
  unfold budget
  split
  · exact Nat.add_pos_right _ (nodes_pos ..)
  · next ha =>
    have hne : t.points ≠ [] := by simp [points, ha]
    exact h.remaining_pos hne

/-- Behind a point that is the last one of the trail by now. -/
theorem budget_push {p : ChoicePoint} {outer : List ChoicePoint} {spent : Bool}
    (hc : p.cursor.toNat < B) (hs : outer.length < D) :
    budget B D ⟨p :: outer, [], spent⟩ =
      remaining B D outer.reverse +
        ((B - p.cursor.toNat) * nodes B (D - (outer.length + 1)) + 1) := by
  have hs' : outer.reverse.length < D := by simpa using hs
  have hsub := subtrees (n := nodes B (D - (outer.length + 1))) hc
  simp only [budget, points, List.reverse_cons, List.append_nil, if_pos, List.length_append,
    List.length_reverse, List.length_singleton]
  rw [remaining_concat hs', List.length_reverse]
  omega

/-- Where a new point is made, or the last one moved on. -/
theorem fits_or_refused (spent : Bool) {p : ChoicePoint} {outer : List ChoicePoint}
    (h : Fits D B outer.reverse) (hp : p.Open ∨ p.Spent) (hn : p.candidates.length ≤ B)
    (hs : outer.length < D) :
    (p.current?.isSome ∧ Fits D B (points ⟨p :: outer, [], spent⟩) ∧
      budget B D ⟨p :: outer, [], spent⟩ = remaining B D outer.reverse +
        ((B - p.cursor.toNat) * nodes B (D - (outer.length + 1)) + 1)) ∨
    p.current? = none ∧ rewind (points ⟨p :: outer, [], spent⟩) = outer.reverse := by
  have hpoints : points ⟨p :: outer, [], spent⟩ = outer.reverse ++ [p] := by simp [points]
  rw [hpoints]
  rcases hp with hp | hp
  · have hfits := h.concat hp hn (by simpa using hs)
    have hc : p.cursor.toNat < B := hfits.cursor_lt (by simp)
    exact .inl ⟨hp.isSome_current?, hfits, budget_push hc hs⟩
  · refine .inr ⟨hp.current?_eq_none, ?_⟩
    rw [rewind_concat, if_pos hp.exhausted]

/-- **The step**: a choice that is granted leaves the budget as it is, and one that is refused leaves
less than that. -/
theorem fits_choose (h : Fits D B t.points) (hcs : cs.length ≤ B) (hs : t.currentDepth < D) :
    ((t.choose cs).1.isSome ∧ Fits D B (t.choose cs).2.points ∧
      (t.choose cs).2.budget B D = t.budget B D) ∨
    (t.choose cs).1 = none ∧ Fits D B (rewind (t.choose cs).2.points) ∧
      remaining B D (rewind (t.choose cs).2.points) < t.budget B D := by
  obtain ⟨passed, ahead, spent⟩ := t
  change passed.length < D at hs
  unfold Trail.choose
  split
  · next ha =>
    obtain rfl : ahead = [] := ha
    have hpassed : Fits D B passed.reverse := by simpa [points] using h
    have hnew : (⟨cs, 0⟩ : ChoicePoint).Open ∨ (⟨cs, 0⟩ : ChoicePoint).Spent :=
      (ChoicePoint.new_open_or_spent cs).imp_right And.left
    have hbudget : budget B D ⟨passed, [], spent⟩ =
        remaining B D passed.reverse + (B * nodes B (D - (passed.length + 1)) + 1) := by
      have hd : D - passed.length = D - (passed.length + 1) + 1 := by omega
      simp [budget, points, hd, nodes]
    rcases fits_or_refused spent hpassed hnew hcs hs with ⟨hsome, hfits, hb⟩ | ⟨hnone, hr⟩
    · exact .inl ⟨hsome, hfits, hb.trans hbudget.symm⟩
    · refine .inr ⟨hnone, hr ▸ hpassed, ?_⟩
      rw [hr, hbudget]
      omega
  · next p ha =>
    obtain rfl : ahead = [p] := ha
    have hp : p.Open := h.chosen p (by simp [points])
    have hn : p.candidates.length ≤ B := h.narrow p (by simp [points])
    have hpassed : Fits D B passed.reverse := Fits.of_append h
    have hcursor : p.advance.cursor.toNat = p.cursor.toNat + 1 := by
      have := hp.1
      simp only [ChoicePoint.advance]
      omega
    have hbudget : budget B D ⟨passed, [p], spent⟩ = remaining B D passed.reverse +
        ((B - (p.cursor.toNat + 1)) * nodes B (D - (passed.length + 1)) + 1) := by
      have hs' : passed.reverse.length < D := by simpa using hs
      simp [budget, points, remaining_concat hs']
    rcases fits_or_refused spent hpassed hp.advance hn hs with
      ⟨hsome, hfits, hb⟩ | ⟨hnone, hr⟩
    · rw [hcursor] at hb
      exact .inl ⟨hsome, hfits, hb.trans hbudget.symm⟩
    · refine .inr ⟨hnone, hr ▸ hpassed, ?_⟩
      rw [hr, hbudget]
      omega
  · next p rest hrest ha =>
    obtain rfl : ahead = p :: rest := ha
    have hp : p.Open := h.chosen p (by simp [points])
    have hne : rest ≠ [] := by
      rintro rfl
      exact hrest rfl
    have hpoints : points ⟨p :: passed, rest, spent⟩ = points ⟨passed, p :: rest, spent⟩ := by
      simp [points]
    refine .inl ⟨hp.isSome_current?, hpoints ▸ h, ?_⟩
    simp [budget, hpoints, hne]

/-- At most `D` choices in a row, each of them among at most `B` alternatives, lead from one trail to
another; if the last one is refused, `lacked` is true, and no other one is. -/
def ChoosesWithin (D B : Nat) (t : Trail) (lacked : Bool) (t' : Trail) : Prop :=
  ∃ sites : List (List Value), sites.length ≤ D ∧ (∀ cs ∈ sites, cs.length ≤ B) ∧
    Disciplined false t (sites.map .choose) lacked t'

/-- **The run**: what the choices of a whole pass leave of the budget. -/
theorem fits_choices {sites : List (List Value)} {lacked : Bool} (h : Fits D B t.points)
    (hlen : t.currentDepth + sites.length ≤ D) (hsites : ∀ cs ∈ sites, cs.length ≤ B)
    (hd : Disciplined false t (sites.map .choose) lacked t') :
    lacked = false ∧ Fits D B t'.points ∨
    lacked = true ∧ Fits D B (rewind t'.points) ∧
      remaining B D (rewind t'.points) < t.budget B D := by
  induction sites generalizing t with
  | nil =>
    cases hd with
    | done => exact .inl ⟨rfl, h⟩
  | cons cs sites ih =>
    rw [List.length_cons] at hlen
    rw [List.forall_mem_cons] at hsites
    cases hd with
    | call _ hd =>
      simp only [Trail.call, ChoiceAnswer.refused_ofChoice] at hd
      rcases fits_choose h hsites.1 (by omega) with ⟨hsome, hfits, hb⟩ | ⟨hnone, hfits, hlt⟩
      · rw [← Option.not_isSome, hsome] at hd
        have hdepth := currentDepth_choose t cs
        have hrest := ih hfits (by omega) hsites.2 hd
        rwa [hb] at hrest
      · -- No call follows a refused one.
        rw [hnone] at hd
        cases sites with
        | nil =>
          cases hd with
          | done => exact .inr ⟨rfl, hfits, hlt⟩
        | cons =>
          cases hd with
          | call hc => cases hc rfl

end Trail

end AmbLisp
