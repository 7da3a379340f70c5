import AmbLisp.Proofs.Eval.Choosing
import AmbLisp.Proofs.Search.Enumeration
import AmbLisp.Proofs.Trail.Budget

/-!
# Every request ends

A request runs passes in a loop. `Ends` says that the loop is over after some number of passes, and
what it has come to, without a bound on the number beforehand. If no pass of a problem meets more than
`D` points of more than `B` candidates, each request takes at most as many passes as the complete tree
of depth `D` has nodes, whatever the passes do besides (`ChoosesWithin.first_ends`,
`ChoosesWithin.again_ends`). In particular each pass may meet other points than the one before.
-/

namespace AmbLisp.Search

variable {σ α : Type}

/-- The loop that begins with a pass along a trail is over after `k` passes. -/
inductive Ends (search : Search σ α) :
    Trail → σ → Nat → Except Fault α × Option Trail × σ → Prop
  | value {t t₁ : Trail} {s s₁ : σ} {a : α} (hp : search.pass t s = (.ok a, t₁, s₁)) :
    Ends search t s 1 (.ok a, some t₁, s₁)
  | fault {t t₁ : Trail} {s s₁ : σ} {fault : Fault} (hp : search.pass t s = (.error fault, t₁, s₁))
    (hne : fault ≠ .noChoice) : Ends search t s 1 (.error fault, none, s₁)
  | spent {t t₁ t₂ : Trail} {s s₁ s₂ : σ} (hp : search.pass t s = (.error .noChoice, t₁, s₁))
    (hr : search.retry t₁ s₁ = (false, t₂, s₂)) :
    Ends search t s 1
      (.error .noMoreValues, none, search.note (.searchEnded (search.count s₂)) s₂)
  | next {t t₁ t₂ : Trail} {s s₁ s₂ : σ} {k : Nat} {out : Except Fault α × Option Trail × σ}
    (hp : search.pass t s = (.error .noChoice, t₁, s₁))
    (hr : search.retry t₁ s₁ = (true, t₂, s₂)) (h : Ends search t₂ s₂ k out) :
    Ends search t s (k + 1) out

/-- The request for the result behind the one that a trail has led to is over after `k` passes. -/
inductive AgainEnds (search : Search σ α) :
    Trail → σ → Nat → Except Fault α × Option Trail × σ → Prop
  | spent {t t₁ : Trail} {s s₁ : σ} (hr : search.retry t s = (false, t₁, s₁)) :
    AgainEnds search t s 0 (.error .noMoreValues, none, s₁)
  | next {t t₁ : Trail} {s s₁ : σ} {k : Nat} {out : Except Fault α × Option Trail × σ}
    (hr : search.retry t s = (true, t₁, s₁)) (h : Ends search t₁ s₁ k out) :
    AgainEnds search t s k out

/-- The trails and states with which the passes of a problem begin, over all its requests. Between
two requests the state may change as `other` says. -/
inductive Begins (search : Search σ α) (other : σ → σ → Prop) (s₀ : σ) : Trail → σ → Prop
  | first : Begins search other s₀ {} s₀
  | next {t t₁ t₂ : Trail} {s s₁ s₂ : σ} (h : Begins search other s₀ t s)
    (hp : search.pass t s = (.error .noChoice, t₁, s₁))
    (hr : search.retry t₁ s₁ = (true, t₂, s₂)) : Begins search other s₀ t₂ s₂
  | again {t t₁ t₂ : Trail} {s s₁ s₁' s₂ : σ} {a : α} (h : Begins search other s₀ t s)
    (hp : search.pass t s = (.ok a, t₁, s₁)) (ho : other s₁ s₁')
    (hr : search.retry t₁ s₁' = (true, t₂, s₂)) : Begins search other s₀ t₂ s₂

variable {search : Search σ α} {t t₁ t₂ : Trail} {s s₁ s₂ : σ} {k n : Nat}
  {out : Except Fault α × Option Trail × σ}

/-! ## The loop -/

/-- More passes than the loop takes change nothing. -/
theorem Ends.run_eq (h : search.Ends t s k out) (hn : k ≤ n) : search.run n t s = out := by
  induction h generalizing n with
  | value hp =>
    obtain ⟨n, rfl⟩ := Nat.exists_eq_add_one.2 hn
    exact run_value hp n
  | fault hp hne =>
    obtain ⟨n, rfl⟩ := Nat.exists_eq_add_one.2 hn
    exact run_fault hp hne n
  | spent hp hr =>
    obtain ⟨n, rfl⟩ := Nat.exists_eq_add_one.2 hn
    exact run_over hp hr n
  | next hp hr _ ih =>
    obtain ⟨n, rfl⟩ := Nat.exists_eq_add_one.2 (Nat.lt_of_lt_of_le (Nat.succ_pos _) hn)
    rw [run_retried hp hr]
    exact ih (Nat.le_of_succ_le_succ hn)

/-- The loop is over if it does not run out of passes. -/
theorem ends_of_run (h : (search.run n t s).1 ≠ .error .tooManyPasses) :
    ∃ k ≤ n, search.Ends t s k (search.run n t s) := by
  induction n generalizing t s with
  | zero => exact absurd rfl h
  | succ n ih =>
    rcases hp : search.pass t s with ⟨fault | a, t₁, s₁⟩
    · by_cases hne : fault = .noChoice
      · subst hne
        rcases hr : search.retry t₁ s₁ with ⟨_ | _, t₂, s₂⟩
        · rw [run_over hp hr]
          exact ⟨1, Nat.le_add_left 1 n, .spent hp hr⟩
        · rw [run_retried hp hr] at h ⊢
          obtain ⟨k, hk, hends⟩ := ih h
          exact ⟨k + 1, Nat.succ_le_succ hk, .next hp hr hends⟩
      · rw [run_fault hp hne]
        exact ⟨1, Nat.le_add_left 1 n, .fault hp hne⟩
    · rw [run_value hp]
      exact ⟨1, Nat.le_add_left 1 n, .value hp⟩

/-- More passes change nothing then. -/
theorem run_more {m : Nat} (h : (search.run n t s).1 ≠ .error .tooManyPasses) (hnm : n ≤ m) :
    search.run m t s = search.run n t s := by
  obtain ⟨k, hk, hends⟩ := ends_of_run h
  exact hends.run_eq (Nat.le_trans hk hnm)

theorem again_more {m : Nat} (h : (search.again n t s).1 ≠ .error .tooManyPasses) (hnm : n ≤ m) :
    search.again m t s = search.again n t s := by
  unfold Search.again at h ⊢
  rcases hr : search.retry t s with ⟨_ | _, t₁, s₁⟩
  · rfl
  · rw [hr] at h
    exact run_more h hnm

theorem AgainEnds.again_eq (h : search.AgainEnds t s k out) (hn : k ≤ n) :
    search.again n t s = out := by
  cases h with
  | spent hr => simp only [Search.again, hr]
  | next hr h =>
    simp only [Search.again, hr]
    exact h.run_eq hn

theorem Counts.of_retry (hc : search.Counts) {more : Bool}
    (h : search.retry t s = (more, t₁, s₁)) : search.count s₁ = search.count s := by
  have hcount := hc.retry t s
  rwa [h] at hcount

theorem Counts.of_pass (hc : search.Counts) {result : Except Fault α}
    (h : search.pass t s = (result, t₁, s₁)) : search.count s₁ = search.count s + 1 := by
  have hcount := hc.pass t s
  rwa [h] at hcount

/-- The loop takes the passes that are counted. -/
theorem Ends.count_eq (hc : search.Counts) (h : search.Ends t s k out) :
    search.count out.2.2 = search.count s + k := by
  induction h with
  | value hp | fault hp _ => exact hc.of_pass hp
  | spent hp hr => rw [hc.note, hc.of_retry hr, hc.of_pass hp]
  | next hp hr _ ih =>
    rw [ih, hc.of_retry hr, hc.of_pass hp]
    omega

theorem AgainEnds.count_eq (hc : search.Counts) (h : search.AgainEnds t s k out) :
    search.count out.2.2 = search.count s + k := by
  cases h with
  | spent hr => exact hc.of_retry hr
  | next hr h => rw [h.count_eq hc, hc.of_retry hr]

/-- Another pass goes along the points that are left. -/
theorem of_retry (h : search.retry t s = (true, t₁, s₁)) :
    rewind t.points ≠ [] ∧ t₁ = ⟨[], rewind t.points, t.spent⟩ := by
  by_cases hr : rewind t.points = []
  · obtain ⟨t', s', hretry⟩ := search.retry_of_rewind_eq_nil hr s
    cases h.symm.trans hretry
  · obtain ⟨s', hretry⟩ := search.retry_of_rewind_ne_nil hr s
    cases h.symm.trans hretry
    exact ⟨hr, rfl⟩

/-! ## Passes within bounds -/

section

variable {other : σ → σ → Prop} {s₀ : σ} {D B : Nat}

/-- All passes of a problem choose within bounds. -/
def ChoosesWithin (search : Search σ α) (other : σ → σ → Prop) (s₀ : σ) (D B : Nat) : Prop :=
  ∀ t s, search.Begins other s₀ t s →
    t.ChoosesWithin D B (lacksChoice (search.pass t s).1) (search.pass t s).2.1

/-- What a pass leaves of the budget with which it begins. -/
theorem ChoosesWithin.pass (hw : search.ChoosesWithin other s₀ D B)
    (h : search.Begins other s₀ t s) (hpassed : t.passed = []) (hfits : Fits D B t.points)
    {result : Except Fault α} (hp : search.pass t s = (result, t₁, s₁)) :
    lacksChoice result = false ∧ Fits D B t₁.points ∨
    lacksChoice result = true ∧ Fits D B (rewind t₁.points) ∧
      remaining B D (rewind t₁.points) < t.budget B D := by
  obtain ⟨sites, hlen, hsites, hd⟩ := hw t s h
  rw [hp] at hd
  refine Trail.fits_choices hfits ?_ hsites hd
  simpa [Trail.currentDepth, hpassed] using hlen

/-- **Passes begin with points that fit.** -/
theorem ChoosesWithin.fits (hw : search.ChoosesWithin other s₀ D B)
    (h : search.Begins other s₀ t s) : t.passed = [] ∧ Fits D B t.points := by
  induction h with
  | first => exact ⟨rfl, .nil⟩
  | next h hp hr ih =>
    obtain ⟨-, rfl⟩ := of_retry hr
    rcases hw.pass h ih.1 ih.2 hp with ⟨hlacks, -⟩ | ⟨-, hfits, -⟩
    · cases hlacks
    · exact ⟨rfl, hfits⟩
  | again h hp _ hr ih =>
    obtain ⟨-, rfl⟩ := of_retry hr
    rcases hw.pass h ih.1 ih.2 hp with ⟨-, hfits⟩ | ⟨hlacks, -, -⟩
    · exact ⟨rfl, hfits.rewind⟩
    · cases hlacks

/-- The loop ends before the budget of its first pass is used up: each pass that lacks a choice leaves
less of it to the next one. -/
theorem ChoosesWithin.ends (hw : search.ChoosesWithin other s₀ D B)
    (h : search.Begins other s₀ t s) : ∃ k out, k ≤ t.budget B D ∧ search.Ends t s k out := by
  induction hm : t.budget B D using Nat.strongRecOn generalizing t s with
  | ind m ih =>
    obtain ⟨hpassed, hfits⟩ := hw.fits h
    have hpos : 1 ≤ m := hm ▸ Trail.budget_pos hfits
    rcases hp : search.pass t s with ⟨fault | a, t₁, s₁⟩
    · by_cases hne : fault = .noChoice
      · subst hne
        rcases hw.pass h hpassed hfits hp with ⟨hlacks, -⟩ | ⟨-, -, hlt⟩
        · cases hlacks
        · by_cases hnil : rewind t₁.points = []
          · obtain ⟨t₂, s₂, hr⟩ := search.retry_of_rewind_eq_nil hnil s₁
            exact ⟨1, _, hpos, .spent hp hr⟩
          · obtain ⟨s₂, hr⟩ := search.retry_of_rewind_ne_nil hnil s₁
            have hbudget := Trail.budget_ahead (D := D) (B := B) hnil t₁.spent
            obtain ⟨k, out, hk, hends⟩ := ih _ (hbudget ▸ hm ▸ hlt) (h.next hp hr) rfl
            refine ⟨k + 1, out, ?_, .next hp hr hends⟩
            omega
      · exact ⟨1, _, hpos, .fault hp hne⟩
    · exact ⟨1, _, hpos, .value hp⟩

/-- The first request of a problem ends. -/
theorem ChoosesWithin.first_ends (hw : search.ChoosesWithin other s₀ D B) :
    ∃ k out, k ≤ nodes B D ∧ search.Ends {} s₀ k out := by
  obtain ⟨k, out, hk, hends⟩ := hw.ends .first
  rw [Trail.budget_new] at hk
  exact ⟨k, out, hk, hends⟩

/-- The same for the request behind a value. -/
theorem ChoosesWithin.again_ends (hw : search.ChoosesWithin other s₀ D B)
    (h : search.Begins other s₀ t s) {a : α} (hp : search.pass t s = (.ok a, t₁, s₁))
    (ho : other s₁ s₂) : ∃ k out, k ≤ nodes B D ∧ search.AgainEnds t₁ s₂ k out := by
  by_cases hnil : rewind t₁.points = []
  · obtain ⟨t', s', hr⟩ := search.retry_of_rewind_eq_nil hnil s₂
    exact ⟨0, _, Nat.zero_le _, .spent hr⟩
  · obtain ⟨s', hr⟩ := search.retry_of_rewind_ne_nil hnil s₂
    have hbegins := h.again hp ho hr
    obtain ⟨k, out, hk, hends⟩ := hw.ends hbegins
    rw [Trail.budget_ahead hnil] at hk
    have hlt := (hw.fits hbegins).2.remaining_lt_nodes
    simp only [Trail.points, List.reverse_nil, List.nil_append] at hlt
    exact ⟨k, out, Nat.le_of_lt (Nat.lt_of_le_of_lt hk hlt), .next hr hends⟩

end

end AmbLisp.Search
