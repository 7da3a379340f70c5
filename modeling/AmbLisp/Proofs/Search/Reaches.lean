import AmbLisp.Search

/-!
# The passes of a search

`Reaches` lists the trails and states with which the passes of a search begin, over all requests. A
trail that a request returns is one that such a pass has left behind (`Reaches.of_run`). What each
single pass keeps, and each step back, all passes and whole requests keep (`Keeps.reaches`,
`Keeps.run`).
-/

namespace AmbLisp.Search

variable {σ α : Type}

/-- The trails and states with which passes begin, from the first one on. A pass is followed by
another one unless it ends in a fault that is not a lack of choices. -/
inductive Reaches (search : Search σ α) (t₀ : Trail) (s₀ : σ) : Trail → σ → Prop
  | start : Reaches search t₀ s₀ t₀ s₀
  | next {t t₁ t₂ : Trail} {s s₁ s₂ : σ} {result : Except Fault α} (h : Reaches search t₀ s₀ t s)
      (hp : search.pass t s = (result, t₁, s₁))
      (hresult : ∀ fault, result = .error fault → fault = .noChoice)
      (hretry : search.retry t₁ s₁ = (true, t₂, s₂)) : Reaches search t₀ s₀ t₂ s₂

variable {search : Search σ α} {t₀ t t₁ t₂ : Trail} {s₀ s s₁ s₂ : σ}

/-! ## The first pass of a request -/

theorem run_value {a : α} (hp : search.pass t s = (.ok a, t₁, s₁)) (n : Nat) :
    search.run (n + 1) t s = (.ok a, some t₁, s₁) := by
  rw [Search.run, hp]

theorem run_fault {fault : Fault} (hp : search.pass t s = (.error fault, t₁, s₁))
    (hf : fault ≠ .noChoice) (n : Nat) : search.run (n + 1) t s = (.error fault, none, s₁) := by
  rw [Search.run, hp]
  cases fault <;> first | exact absurd rfl hf | rfl

theorem run_retried (hp : search.pass t s = (.error .noChoice, t₁, s₁))
    (hr : search.retry t₁ s₁ = (true, t₂, s₂)) (n : Nat) :
    search.run (n + 1) t s = search.run n t₂ s₂ := by
  rw [Search.run, hp]
  simp only [hr]

theorem run_over (hp : search.pass t s = (.error .noChoice, t₁, s₁))
    (hr : search.retry t₁ s₁ = (false, t₂, s₂)) (n : Nat) :
    search.run (n + 1) t s =
      (.error .noMoreValues, none, search.note (.searchEnded (search.count s₂)) s₂) := by
  rw [Search.run, hp]
  simp only [hr]

/-! ## All passes -/

/-- A request returns the value and the trail of a pass, or a fault and no trail. -/
theorem Reaches.run_cases (n : Nat) (h : Reaches search t₀ s₀ t s) :
    (∃ t₁ s₁ a t' s', Reaches search t₀ s₀ t₁ s₁ ∧ search.pass t₁ s₁ = (.ok a, t', s') ∧
        search.run n t s = (.ok a, some t', s')) ∨
      ∃ fault s', search.run n t s = (.error fault, none, s') := by
  induction n generalizing t s with
  | zero => exact .inr ⟨_, _, rfl⟩
  | succ n ih =>
    rw [Search.run]
    split
    · next a t₁ s₁ hp => exact .inl ⟨t, s, a, t₁, s₁, h, hp, rfl⟩
    · next t₁ s₁ hp =>
      split
      · next t₂ s₂ hretry => exact ih (h.next hp (fun _ h => (Except.error.inj h).symm) hretry)
      · exact .inr ⟨_, _, rfl⟩
    · exact .inr ⟨_, _, rfl⟩

/-- A request returns a trail just if it returns a value. -/
theorem isSome_run (search : Search σ α) (n : Nat) (t : Trail) (s : σ) :
    (search.run n t s).2.1.isSome = (search.run n t s).1.isOk := by
  have hstart : search.Reaches t s t s := .start
  rcases hstart.run_cases n with ⟨_, _, a, t', s', _, _, heq⟩ | ⟨fault, s', heq⟩ <;> rw [heq] <;> rfl

theorem isSome_again (search : Search σ α) (n : Nat) (t : Trail) (s : σ) :
    (search.again n t s).2.1.isSome = (search.again n t s).1.isOk := by
  unfold Search.again
  split
  · exact search.isSome_run n _ _
  · rfl

/-- A request returns the trail of a pass that had a value. -/
theorem Reaches.of_run {n : Nat} {result : Except Fault α} {t' : Trail} {s' : σ}
    (h : Reaches search t₀ s₀ t s) (hrun : search.run n t s = (result, some t', s')) :
    ∃ t₁ s₁ a, Reaches search t₀ s₀ t₁ s₁ ∧ search.pass t₁ s₁ = (.ok a, t', s') := by
  rcases h.run_cases n with ⟨t₁, s₁, a, t₂, s₂, hreach, hp, heq⟩ | ⟨fault, s₂, heq⟩
  · cases hrun.symm.trans heq
    exact ⟨t₁, s₁, a, hreach, hp⟩
  · cases hrun.symm.trans heq

/-- Passes and steps back keep an invariant, and the results of passes have a property. -/
structure Keeps (search : Search σ α) (I : Trail → σ → Prop) (V : α → σ → Prop) : Prop where
  pass : ∀ {t s}, I t s → I (search.pass t s).2.1 (search.pass t s).2.2 ∧
    ∀ a, (search.pass t s).1 = .ok a → V a (search.pass t s).2.2
  retry : ∀ {t s}, I t s → I (search.retry t s).2.1 (search.retry t s).2.2
  note : ∀ {t s e}, I t s → I t (search.note e s)

/-- The invariant behind a request, for the trail that it returns if it returns one. -/
def Kept (I : Trail → σ → Prop) (V : α → σ → Prop) (out : Except Fault α × Option Trail × σ) :
    Prop :=
  (∃ t, I t out.2.2 ∧ ∀ t', out.2.1 = some t' → t' = t) ∧ ∀ a, out.1 = .ok a → V a out.2.2

variable {I : Trail → σ → Prop} {V : α → σ → Prop}

theorem kept_error (fault : Fault) (hI : I t s) : Kept I V (.error fault, none, s) :=
  ⟨⟨t, hI, fun _ h => by cases h⟩, fun _ h => by cases h⟩

/-- Each pass of a search begins with the invariant. -/
theorem Keeps.reaches (hk : search.Keeps I V) (h : search.Reaches t₀ s₀ t s) (h₀ : I t₀ s₀) :
    I t s := by
  induction h with
  | start => exact h₀
  | next _ hp _ hretry ih =>
    have hpass := (hk.pass ih).1
    rw [hp] at hpass
    have hback := hk.retry hpass
    rwa [hretry] at hback

theorem Keeps.run (hk : search.Keeps I V) (n : Nat) (hI : I t s) : Kept I V (search.run n t s) := by
  induction n generalizing t s with
  | zero => exact kept_error _ hI
  | succ n ih =>
    rw [Search.run]
    have hpass := hk.pass hI
    split
    · next a t₁ s₁ hp =>
      rw [hp] at hpass
      exact ⟨⟨t₁, hpass.1, fun _ h => (Option.some.inj h).symm⟩, hpass.2⟩
    · next t₁ s₁ hp =>
      rw [hp] at hpass
      have hretry := hk.retry hpass.1
      split
      · next t₂ s₂ hr =>
        rw [hr] at hretry
        exact ih hretry
      · next t₂ s₂ hr =>
        rw [hr] at hretry
        exact kept_error _ (hk.note hretry)
    · next fault t₁ s₁ hp =>
      rw [hp] at hpass
      exact kept_error _ hpass.1

/-- A request fails for want of passes or of values, or with the fault of a pass. -/
theorem Keeps.run_error (hk : search.Keeps I V) {Q : Fault → Prop}
    (hQ : ∀ {t s fault}, I t s → (search.pass t s).1 = .error fault → fault ≠ .noChoice → Q fault)
    (n : Nat) (hI : I t s) {fault : Fault} (h : (search.run n t s).1 = .error fault) :
    fault = .tooManyPasses ∨ fault = .noMoreValues ∨ Q fault := by
  induction n generalizing t s with
  | zero =>
    cases h
    exact .inl rfl
  | succ n ih =>
    have hpass := hk.pass hI
    have hfault := @hQ t s
    rcases hp : search.pass t s with ⟨f | a, t₁, s₁⟩ <;> rw [hp] at hpass hfault
    · by_cases hf : f = .noChoice
      · subst hf
        have hretry := hk.retry hpass.1
        rcases hr : search.retry t₁ s₁ with ⟨_ | _, t₂, s₂⟩ <;> rw [hr] at hretry
        · rw [run_over hp hr] at h
          cases h
          exact .inr (.inl rfl)
        · rw [run_retried hp hr] at h
          exact ih hretry h
      · rw [run_fault hp hf] at h
        cases h
        exact .inr (.inr (hfault hI rfl hf))
    · rw [run_value hp] at h
      cases h

theorem Keeps.again_error (hk : search.Keeps I V) {Q : Fault → Prop}
    (hQ : ∀ {t s fault}, I t s → (search.pass t s).1 = .error fault → fault ≠ .noChoice → Q fault)
    (n : Nat) (hI : I t s) {fault : Fault} (h : (search.again n t s).1 = .error fault) :
    fault = .tooManyPasses ∨ fault = .noMoreValues ∨ Q fault := by
  unfold Search.again at h
  have hretry := hk.retry hI
  rcases hr : search.retry t s with ⟨_ | _, t₁, s₁⟩ <;> rw [hr] at hretry <;> simp only [hr] at h
  · cases h
    exact .inr (.inl rfl)
  · exact hk.run_error hQ n hretry h

theorem Keeps.again (hk : search.Keeps I V) (n : Nat) (hI : I t s) :
    Kept I V (search.again n t s) := by
  unfold Search.again
  have hretry := hk.retry hI
  split
  · next t₁ s₁ hr =>
    rw [hr] at hretry
    exact hk.run n hretry
  · next t₁ s₁ hr =>
    rw [hr] at hretry
    exact kept_error _ hretry

end AmbLisp.Search
