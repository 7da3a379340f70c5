import AmbLisp.Proofs.Search.Ending
import AmbLisp.Proofs.Session.Solving

/-!
# The passes of a request

Requests whose passes choose within bounds end, and a session counts the passes that they take. So the
requests of a session end by themselves: with any bound on passes that is not less than their number,
they come to the same (`outcome_run`, `outcome_tryAgain`). `Search.requests_end` puts this together.
-/

namespace AmbLisp

namespace Session

variable {cfg : Setting} {expr : Value} {s : Session} {k passes : Nat}
  {out : Except Fault Value × Option Trail × Session}

/-- The first request of a problem comes to what its search ends with, and its passes are counted. -/
theorem outcome_run (h : (searchFor cfg expr).Ends {} { s with passes := 0 } k out)
    (hpasses : k ≤ passes) :
    run { cfg with passes } expr s = settle expr out ∧ (settle expr out).2.passes = k := by
  have hcount : out.2.2.passes = 0 + k := h.count_eq (counts_searchFor cfg expr)
  exact ⟨congrArg (settle expr) (h.run_eq hpasses), hcount.trans (Nat.zero_add k)⟩

/-- The same for a request behind a value. Its passes are added to those that have been counted. -/
theorem outcome_tryAgain {t : Trail} (hproblem : s.problem = some ⟨expr, t⟩)
    (h : (searchFor cfg expr).AgainEnds t s k out) (hpasses : k ≤ passes) :
    tryAgain { cfg with passes } s = settle expr out ∧
      (settle expr out).2.passes = s.passes + k := by
  refine ⟨?_, h.count_eq (counts_searchFor cfg expr)⟩
  rw [tryAgain, hproblem]
  exact congrArg (settle expr) (h.again_eq hpasses)

end Session

open Session

/-- **Every request ends**, the first one of a problem and each one behind a value, if each pass
meets at most `D` points of at most `B` candidates and asks for no other choice when one is refused.
It takes at most `1 + B + ... + B ^ D` passes, whatever the passes do and whatever happens to the
state between the requests; and a loop that may run so many passes or more comes to the same. So it is
with the requests of a session: they take so many passes, and no bound on passes that is not below their
number makes a difference. -/
theorem Search.requests_end :
    (∀ {σ α : Type} (search : Search σ α) (other : σ → σ → Prop) (s₀ : σ) (D B : Nat),
      search.ChoosesWithin other s₀ D B →
      let bound := ((List.range (D + 1)).map (B ^ ·)).sum
      (∃ k out, k ≤ bound ∧ search.Ends {} s₀ k out ∧ ∀ n, k ≤ n → search.run n {} s₀ = out) ∧
      ∀ t s a t₁ s₁ s₂, search.Begins other s₀ t s → search.pass t s = (.ok a, t₁, s₁) →
        other s₁ s₂ →
        ∃ k out, k ≤ bound ∧ search.AgainEnds t₁ s₂ k out ∧
          ∀ n, k ≤ n → search.again n t₁ s₂ = out) ∧
    ∀ (cfg : Setting) (expr : Value) (other : Session → Session → Prop) (s : Session) (D B : Nat),
      let search := searchFor cfg expr
      let s₀ : Session := { s with passes := 0 }
      search.ChoosesWithin other s₀ D B →
      let bound := ((List.range (D + 1)).map (B ^ ·)).sum
      (∃ k out, k ≤ bound ∧ search.Ends {} s₀ k out ∧ ∀ passes, k ≤ passes →
        Session.run { cfg with passes } expr s = settle expr out ∧ (settle expr out).2.passes = k) ∧
      ∀ t s₁ v t₁ s₂ s₃, search.Begins other s₀ t s₁ → search.pass t s₁ = (.ok v, t₁, s₂) →
        other s₂ s₃ → s₃.problem = some ⟨expr, t₁⟩ →
        ∃ k out, k ≤ bound ∧ search.AgainEnds t₁ s₃ k out ∧ ∀ passes, k ≤ passes →
          tryAgain { cfg with passes } s₃ = settle expr out ∧
            (settle expr out).2.passes = s₃.passes + k := by
  constructor
  · intro σ α search other s₀ D B hw bound
    have hbound : bound = nodes B D := (nodes_eq_sum B D).symm
    rw [hbound]
    constructor
    · obtain ⟨k, out, hk, hends⟩ := hw.first_ends
      exact ⟨k, out, hk, hends, fun n => hends.run_eq⟩
    · intro t s a t₁ s₁ s₂ h hp ho
      obtain ⟨k, out, hk, hends⟩ := hw.again_ends h hp ho
      exact ⟨k, out, hk, hends, fun n => hends.again_eq⟩
  · intro cfg expr other s D B search s₀ hw bound
    have hbound : bound = nodes B D := (nodes_eq_sum B D).symm
    rw [hbound]
    constructor
    · obtain ⟨k, out, hk, hends⟩ := hw.first_ends
      exact ⟨k, out, hk, hends, fun _ => outcome_run hends⟩
    · intro t s₁ v t₁ s₂ s₃ h hp ho hproblem
      obtain ⟨k, out, hk, hends⟩ := hw.again_ends h hp ho
      exact ⟨k, out, hk, hends, fun _ => outcome_tryAgain hproblem hends⟩

/-- Passes that meet in turn a point with two candidates and one with none; and the passes of a session
for an `amb` without alternatives. -/
theorem Search.requests_end_in_turn :
    let search : Search Nat Unit := {
      pass := fun t n =>
        match t.choose (if n % 2 = 0 then [.nil, .nil] else []) with
        | (none, t) => (.error .noChoice, t, n + 1)
        | (some _, t) => (.ok (), t, n + 1)
      count := id
      note := fun _ n => n }
    let cfg : Setting := { depth := 8, passes := 8 }
    let expr : Value := .list [.sym "amb"]
    let s := initial false
    (search.ChoosesWithin (fun _ _ => True) 0 1 2 ∧
      ∃ k out, k ≤ 3 ∧ search.Ends {} 0 k out ∧ ∀ n, k ≤ n → search.run n {} 0 = out) ∧
    (searchFor cfg expr).ChoosesWithin (fun _ _ => True) { s with passes := 0 } 1 0 ∧
      ∃ k out, k ≤ 1 ∧ (searchFor cfg expr).Ends {} { s with passes := 0 } k out ∧
        ∀ passes, k ≤ passes →
          Session.run { cfg with passes } expr s = settle expr out ∧
            (settle expr out).2.passes = k := by
  intro search cfg expr s
  obtain ⟨hends, hsession⟩ := requests_end
  have hw : search.ChoosesWithin (fun _ _ => True) 0 1 2 := by
    intro t n _
    refine ⟨[if n % 2 = 0 then [.nil, .nil] else []], Nat.le_refl 1, ?_, ?_⟩
    · intro cs hcs
      rw [List.mem_singleton.1 hcs]
      split <;> decide
    · have hchoice : Trail.Disciplined false t
          [.choose (if n % 2 = 0 then [.nil, .nil] else [])] _ _ := .call nofun (.done _ _)
      simp only [search]
      simp only [Trail.call, ChoiceAnswer.refused_ofChoice] at hchoice
      rcases hc : t.choose (if n % 2 = 0 then [.nil, .nil] else []) with ⟨_ | v, t'⟩ <;>
        rw [hc] at hchoice <;> exact hchoice
  have hpass : ∀ s', ∃ s'', (searchFor cfg expr).pass {} s' =
      (.error .noChoice, (({} : Trail).choose []).2, s'') := fun _ => ⟨_, rfl⟩
  -- the first pass is the only one, as nothing is left to try behind it
  have honly : ∀ t s', (searchFor cfg expr).Begins (fun _ _ => True) { s with passes := 0 } t s' →
      t = {} := by
    intro t s' h
    induction h with
    | first => rfl
    | next _ hp hr ih =>
      subst ih
      obtain ⟨s'', hfails⟩ := hpass _
      cases hfails.symm.trans hp
      cases hr
    | again _ hp _ _ ih =>
      subst ih
      obtain ⟨s'', hfails⟩ := hpass _
      cases hfails.symm.trans hp
  have hws : (searchFor cfg expr).ChoosesWithin (fun _ _ => True) { s with passes := 0 } 1 0 := by
    intro t s' h
    obtain rfl := honly t s' h
    obtain ⟨s'', hfails⟩ := hpass s'
    rw [hfails]
    exact ⟨[[]], Nat.le_refl 1, by simp, .call nofun (.done _ _)⟩
  exact ⟨⟨hw, (hends search (fun _ _ => True) 0 1 2 hw).1⟩, hws,
    (hsession cfg expr (fun _ _ => True) s 1 0 hws).1⟩

end AmbLisp
