import AmbLisp.Proofs.Eval.Choosing
import AmbLisp.Proofs.Search.Reaches
import AmbLisp.Proofs.Session.Pass

/-!
# The choice points of a session

The searches of a session obey the discipline of choosing, whatever their passes do: a trail is
`Served` if it comes of disciplined calls, and each pass and each request keeps trails so.
`choice_points_in_order` puts this together with what holds of the choice points after any calls,
and after disciplined ones.
-/

namespace AmbLisp

namespace Trail

variable {t t' : Trail} {lacked : Bool}

/-- A trail after disciplined calls on a new one, the last of them not refused. -/
def Served (t : Trail) : Prop :=
  ∃ calls, Disciplined false {} calls false t

theorem served_new : Served {} := ⟨[], .done _ _⟩

theorem Served.chooses (h : t.Served) (hc : t.Chooses false t') : t'.Served := by
  obtain ⟨calls, hd⟩ := h
  obtain ⟨calls', -, hd'⟩ := hc
  exact ⟨_, hd.trans hd'⟩

/-- Going back after the choices of a pass. -/
theorem Served.retry (h : t.Served) (hc : t.Chooses lacked t') : t'.retry.2.Served := by
  obtain ⟨calls, hd⟩ := h
  obtain ⟨calls', -, hd'⟩ := hc
  exact ⟨_, (hd.trans hd').snoc (c := .retry) fun _ => rfl⟩

end Trail

namespace Session

/-- The trail of the current problem, if there is one, comes of disciplined calls. -/
def Served (s : Session) : Prop :=
  ∀ p, s.problem = some p → p.trail.Served

variable (cfg : Setting) (expr : Value)

/-- A pass only chooses. -/
theorem pass_chooses {t t' : Trail} {s s' : Session} {result : Except Fault Value}
    (h : (searchFor cfg expr).pass t s = (result, t', s')) :
    t.Chooses (lacksChoice result) t' := by
  have hc := evaluate_chooses cfg.toHost cfg.depth expr Store.globalScope (s.passWorld t)
  rw [pass_eq] at h
  cases h
  exact hc

/-- **All passes begin with trails of disciplined calls** if the first one does. -/
theorem served_of_reaches {t₀ t : Trail} {s₀ s : Session} (h₀ : t₀.Served)
    (h : (searchFor cfg expr).Reaches t₀ s₀ t s) : t.Served := by
  induction h with
  | start => exact h₀
  | next _ hp _ hretry ih =>
    have hserved := ih.retry (pass_chooses cfg expr hp)
    rwa [(retry_eq cfg expr hretry).1] at hserved

/-- A request leaves behind the trail of disciplined calls, if it leaves one at all. -/
theorem served_settle {n : Nat} {t : Trail} {s : Session} (h : t.Served) :
    (settle expr ((searchFor cfg expr).run n t s)).2.Served := by
  rcases hrun : (searchFor cfg expr).run n t s with ⟨result, _ | t', s'⟩
  · exact nofun
  · obtain ⟨t₁, s₁, a, hreach, hp⟩ := Search.Reaches.of_run .start hrun
    intro p hproblem
    cases hproblem
    exact (served_of_reaches cfg expr h hreach).chooses (pass_chooses cfg expr hp)

theorem served_run (s : Session) : (run cfg expr s).2.Served :=
  served_settle cfg expr Trail.served_new

theorem served_tryAgain {s : Session} (h : s.Served) : (tryAgain cfg s).2.Served := by
  unfold tryAgain
  split
  · exact h
  · next p hp =>
    unfold Search.again
    split
    · next t s' hretry =>
      refine served_settle cfg p.expression ?_
      have hserved := (h p hp).retry (.refl _)
      rwa [(retry_eq cfg p.expression hretry).1] at hserved
    · exact nofun

end Session

/-! ## The invariant -/

namespace ChoiceStack

/-- The depths are those of the points. -/
def Consistent (s : ChoiceStack) : Prop :=
  s.totalDepth = s.points.length ∧ s.currentDepth ≤ s.totalDepth

/-- Only the last point is past its candidates, and none by more than one. -/
def InOrder (s : ChoiceStack) : Prop :=
  (∀ p ∈ s.points.dropLast, p.exhausted = false) ∧
    ∀ p ∈ s.points, 0 ≤ p.cursor ∧ p.cursor ≤ p.candidates.length

/-- The next choice is at a new point. -/
def AtNewPoint (s : ChoiceStack) : Prop :=
  s.currentDepth = s.totalDepth

/-- The next choice is at the last point. -/
def AtLastPoint (s : ChoiceStack) : Prop :=
  s.currentDepth + 1 = s.totalDepth

/-- The pass has met all points, and the last one has no candidate left. -/
def Stuck (s : ChoiceStack) : Prop :=
  s.currentDepth = s.totalDepth ∧ ∃ p, s.points.getLast? = some p ∧ p.exhausted = true

end ChoiceStack

open ChoiceStack

theorem Trail.consistent_stack (t : Trail) : t.stack.Consistent :=
  ⟨t.points_length.symm, Nat.le_add_right _ _⟩

theorem Trail.counting_new : Counting {} := nofun

/-- Giving up leaves nothing behind. -/
theorem Trail.retry_false {t : Trail} (h : t.retry.1 = false) : t.retry.2.stack = {} := by
  have hlen := t.points_length
  rcases List.eq_nil_or_concat t.points with hp | ⟨qs, q, hp⟩
  · rw [hp, List.length_nil] at hlen
    have hpassed : t.passed.length = 0 := by omega
    have hahead : t.ahead.length = 0 := by omega
    rw [retry_nil hp]
    simp only [stack, hp, totalDepth, currentDepth, hpassed, hahead]
  · rw [List.concat_eq_append] at hp
    rw [retry_concat hp] at h ⊢
    cases hq : q.exhausted
    · simp [hq] at h
    · by_cases hqs : qs = []
      · rw [if_neg (by decide), if_pos hqs]
        rfl
      · simp [hq, hqs] at h

/-- What holds of a call whatever calls came before. -/
theorem Trail.call_safe {t : Trail} (h : t.Counting) (c : ChoiceCall) :
    (t.stack.call c).1 ≠ .outOfRange ∧
      ((t.stack.call c).1 = .more false → (t.stack.call c).2 = {}) := by
  rw [call_stack h c]
  cases c with
  | choose cs =>
    refine ⟨ChoiceAnswer.ofChoice_ne_outOfRange _, fun hm => ?_⟩
    simp only [Trail.call, ChoiceAnswer.ofChoice] at hm
    split at hm <;> cases hm
  | fail =>
    refine ⟨ChoiceAnswer.ofChoice_ne_outOfRange _, fun hm => ?_⟩
    simp only [Trail.call, ChoiceAnswer.ofChoice] at hm
    split at hm <;> cases hm
  | retry => exact ⟨ChoiceAnswer.noConfusion, fun hm => retry_false (ChoiceAnswer.more.inj hm)⟩
  | reset => exact ⟨ChoiceAnswer.noConfusion, fun _ => rfl⟩

/-- What holds of a call that complies with the discipline. -/
theorem Trail.call_orderly {t : Trail} {lacked : Bool} (hcount : t.Counting) (h : t.Orderly lacked)
    {c : ChoiceCall} (hc : lacked = true → c.candidates? = none) :
    ((t.stack.call c).1 = .exhausted →
        (t.stack.AtNewPoint ∧ c.candidates? = some [] ∨ t.stack.AtLastPoint) ∧
          (t.stack.call c).2.Stuck) ∧
      ((t.stack.call c).1 = .more true →
        ∀ p ∈ (t.stack.call c).2.points, p.exhausted = false) := by
  rw [call_stack hcount c]
  have hafter := h.call hc
  refine ⟨fun hr => ?_, fun hr => ?_⟩
  · rw [show (t.call c).1 = .exhausted from hr] at hafter
    refine ⟨?_, hafter.refused⟩
    -- only choices are refused, and here no choice was refused before
    have hchoice : ∀ cs, c.candidates? = some cs → (t.choose cs).1 = none →
        t.stack.AtNewPoint ∧ c.candidates? = some [] ∨ t.stack.AtLastPoint := by
      intro cs hcs hnone
      obtain rfl : lacked = false := by
        cases lacked with
        | false => rfl
        | true => rw [hc rfl] at hcs; cases hcs
      rcases (h.choose cs).2 hnone with ⟨hd, rfl⟩ | hd
      · exact .inl ⟨hd, hcs⟩
      · exact .inr hd
    have hnone : ∀ v?, ChoiceAnswer.ofChoice v? = .exhausted → v? = none := by
      rintro (_ | v) hv
      · rfl
      · cases hv
    cases c with
    | choose cs => exact hchoice cs rfl (hnone _ hr)
    | fail => exact hchoice [] rfl (hnone _ hr)
    | retry | reset => cases hr
  · rw [show (t.call c).1 = .more true from hr] at hafter
    exact hafter.none_exhausted

/-- **The invariant of the choice points.** After any calls the depths are those of the points, no
index has failed, and giving up has left nothing behind. After disciplined calls only the last point
is past its candidates; a further one is refused only at a new point without candidates or at the
last point of the trail, and the pass is then stuck there; and going back leaves no point spent. The
evaluations, the passes and the requests of a session make only disciplined calls. -/
theorem choice_points_in_order :
    (∀ calls : List ChoiceCall,
      let s := ChoiceStack.after {} calls
      s = (Trail.after {} calls).stack ∧ s.Consistent ∧
        ∀ c, (s.call c).1 = ((Trail.after {} calls).call c).1 ∧ (s.call c).1 ≠ .outOfRange ∧
          ((s.call c).1 = .more false → (s.call c).2 = {})) ∧
      (∀ calls lacked t, Trail.Disciplined false {} calls lacked t →
        let s := ChoiceStack.after {} calls
        s = t.stack ∧ s.InOrder ∧
          ∀ c, (lacked = true → c.candidates? = none) →
            ((s.call c).1 = .exhausted →
                (s.AtNewPoint ∧ c.candidates? = some [] ∨ s.AtLastPoint) ∧ (s.call c).2.Stuck) ∧
              ((s.call c).1 = .more true → ∀ p ∈ (s.call c).2.points, p.exhausted = false)) ∧
      (∀ host n expr e (w : World),
        w.trail.Chooses (lacksChoice ((evaluate host n expr e).outcome w).1)
          ((evaluate host n expr e).outcome w).2.trail) ∧
      (∀ cfg expr t₀ s₀ t s, Trail.Served t₀ → (Session.searchFor cfg expr).Reaches t₀ s₀ t s →
        t.Served) ∧
      (∀ cfg expr s, (Session.run cfg expr s).2.Served) ∧
      ∀ cfg s, Session.Served s → (Session.tryAgain cfg s).2.Served := by
  refine ⟨fun calls => ?_, fun calls lacked t hd => ?_, evaluate_chooses, ?_, ?_, ?_⟩
  · obtain ⟨hs, hcount⟩ := Trail.after_eq_stack Trail.counting_new calls
    have hs : ChoiceStack.after {} calls = (Trail.after {} calls).stack := hs
    simp only [hs]
    refine ⟨trivial, Trail.consistent_stack _, fun c => ⟨?_, Trail.call_safe hcount c⟩⟩
    rw [Trail.call_stack hcount c]
  · obtain ⟨hs, hcount⟩ := Trail.after_eq_stack Trail.counting_new calls
    rw [← hd.after] at hs hcount
    have hs : ChoiceStack.after {} calls = t.stack := hs
    have ho := hd.orderly Trail.orderly_new
    simp only [hs]
    exact ⟨trivial, ⟨ho.dropLast, ho.bounds⟩, fun c hc => Trail.call_orderly hcount ho hc⟩
  · exact fun cfg expr t₀ s₀ t s h₀ h => Session.served_of_reaches cfg expr h₀ h
  · exact Session.served_run
  · exact fun cfg s h => Session.served_tryAgain cfg h

end AmbLisp
