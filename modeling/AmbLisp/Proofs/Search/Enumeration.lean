import AmbLisp.Proofs.Search.DepthFirst
import AmbLisp.Proofs.Search.Reaches

/-!
# A search enumerates the leaves of a tree

`Search.Yields` describes a whole run of requests: a first one, and then `again` for as long as the
trail is kept. If the passes of a search walk a tree (`Explores`), these requests return the values of
its leaves from left to right, up to the first fault, and the trail then spells the path to the leaf; a
tree without faults takes one pass for each leaf and one for each node (`Explores.yields`).
-/

namespace AmbLisp

namespace DecisionTree

variable {α : Type}

/-- A trail as a search hands it to a pass: nothing passed, and the points ahead at the nodes of a
path into the tree. -/
def Follows (T : DecisionTree α) (t : Trail) : Prop :=
  t.passed = [] ∧ T.Traces t.ahead

/-- What a search for leaves answers: the values up to the first fault, each with its path, and the
fault that ends the search. -/
def answers : List (Leaf α) → List (List Nat × α) × Fault
  | [] => ([], .noMoreValues)
  | (path, .ok a) :: ls => ((path, a) :: (answers ls).1, (answers ls).2)
  | (_, .error fault) :: _ => ([], fault)

theorem length_answers_le (ls : List (Leaf α)) : (answers ls).1.length ≤ ls.length := by
  induction ls with
  | nil => exact Nat.le_refl 0
  | cons l ls ih =>
    obtain ⟨path, fault | a⟩ := l
    · exact Nat.zero_le _
    · exact Nat.succ_le_succ ih

end DecisionTree

open DecisionTree

namespace Search

variable {σ α β : Type}

/-! ## Runs of requests -/

/-- The requests from one outcome on: each value that they return, with the path that the points of
the trail then spell, and the fault and the state in which the search is closed. -/
inductive Yields (search : Search σ α) (n : Nat) :
    Except Fault α × Option Trail × σ → List (List Nat × α) → Fault → σ → Prop
  | closed (fault : Fault) (s : σ) : Yields search n (.error fault, none, s) [] fault s
  | value {a : α} {t : Trail} {s s' : σ} {path : List Nat} {rest : List (List Nat × α)}
      {fault : Fault} (hpath : Spells t.points path)
      (h : Yields search n (search.again n t s) rest fault s') :
      Yields search n (.ok a, some t, s) ((path, a) :: rest) fault s'

/-- Every pass is counted, and nothing else is. -/
structure Counts (search : Search σ α) : Prop where
  pass : ∀ t s, search.count (search.pass t s).2.2 = search.count s + 1
  note : ∀ e s, search.count (search.note e s) = search.count s

/-- The passes of a search walk a tree, as far as `view` shows their results, on the trails and
states that satisfy an invariant; and the search keeps the invariant. -/
structure Explores (search : Search σ α) (view : α → β) (T : DecisionTree β)
    (I : Trail → σ → Prop) : Prop where
  walks : ∀ {t s}, I t s → T.Follows t →
    ((search.pass t s).1.map view, (search.pass t s).2.1) = T.walk t
  keeps : ∀ {t s result t₁ s₁ t₂ s₂}, I t s → T.Follows t → search.pass t s = (result, t₁, s₁) →
    (∀ fault, result = .error fault → fault = .noChoice) →
    search.retry t₁ s₁ = (true, t₂, s₂) → I t₂ s₂

/-- From an outcome on, the requests return what there is to answer for the leaves `ls`; if none of
these is a fault, the search ends with the count `c`. -/
def Enumerates (search : Search σ α) (view : α → β) (n : Nat)
    (out : Except Fault α × Option Trail × σ) (ls : List (Leaf β)) (c : Nat) : Prop :=
  ∃ vs s', search.Yields n out vs (answers ls).2 s' ∧
    vs.map (fun v => (v.1, view v.2)) = (answers ls).1 ∧
    ((∀ l ∈ ls, l.2.isOk) → search.count s' = c)

section

variable {search : Search σ α} {view : α → β} {T : DecisionTree β} {I : Trail → σ → Prop}

theorem Counts.retry (hc : search.Counts) (t : Trail) (s : σ) :
    search.count (search.retry t s).2.2 = search.count s := by
  unfold Search.retry
  cases t.retryEvent? with
  | none => rfl
  | some e => exact hc.note e s

theorem retry_of_rewind_ne_nil (search : Search σ α) {t : Trail} (h : rewind t.points ≠ [])
    (s : σ) :
    ∃ s', search.retry t s = (true, ⟨[], rewind t.points, t.spent⟩, s') := by
  simp only [Search.retry, Trail.retry_of_rewind_ne_nil h]
  exact ⟨_, rfl⟩

theorem retry_of_rewind_eq_nil (search : Search σ α) {t : Trail} (h : rewind t.points = [])
    (s : σ) :
    ∃ t' s', search.retry t s = (false, t', s') := by
  rcases hr : t.retry with ⟨more, t'⟩
  obtain rfl : more = false := by simpa [hr] using (Trail.retry_of_rewind_eq_nil h).1
  simp only [Search.retry, hr]
  exact ⟨_, _, rfl⟩

/-- What a pass has come to, after which the leaves `ls'` remain. -/
theorem Explores.pass_cases (hx : search.Explores view T I) {t : Trail} {s : σ} {ls : List (Leaf β)}
    {m : Nat} (hI : I t s) (hf : T.Follows t) (h : T.Advances t ls (m + 1)) :
    ∃ result t₁ s₁ ls', search.pass t s = (result, t₁, s₁) ∧ T.Remaining t₁.points ls' m ∧
      ((result = .error .noChoice ∧ ls = ls') ∨
        (∃ a path, result = .ok a ∧ ls = (path, .ok (view a)) :: ls' ∧ Spells t₁.points path) ∨
        ∃ fault path, result = .error fault ∧ fault ≠ .noChoice ∧
          ls = (path, .error fault) :: ls') := by
  obtain ⟨found, ps, ls', m', hwalk, hrem, hm, hfind⟩ := h
  obtain rfl : m = m' := by omega
  rcases hp : search.pass t s with ⟨result, t₁, s₁⟩
  have hw := hx.walks hI hf
  rw [hp, hwalk] at hw
  obtain ⟨rfl, rfl⟩ := Prod.mk.inj hw
  have hpts : (⟨ps.reverse ++ t.passed, [], t.spent⟩ : Trail).points = ps := by
    simp [Trail.points, hf.1]
  refine ⟨result, _, s₁, ls', rfl, hpts.symm ▸ hrem, ?_⟩
  rw [hpts]
  rcases result with fault | a
  · rcases hfind with ⟨h, rfl⟩ | ⟨path, rfl, hne, -⟩
    · exact .inl ⟨congrArg _ (Except.error.inj h), rfl⟩
    · exact .inr (.inr ⟨fault, path, rfl, fun h => hne (congrArg _ h), rfl⟩)
  · rcases hfind with ⟨h, -⟩ | ⟨path, rfl, -, hpath⟩
    · cases h
    · exact .inr (.inl ⟨a, path, rfl, rfl, hpath⟩)

/-- Going back after a pass: the trail is rewound for another one, or nothing is left to try. -/
theorem Explores.after (hx : search.Explores view T I) (hc : search.Counts) {t t₁ : Trail}
    {s s₁ : σ} {result : Except Fault α} {ls : List (Leaf β)} {m : Nat} (hI : I t s) (hf : T.Follows t)
    (hp : search.pass t s = (result, t₁, s₁))
    (hfault : ∀ fault, result = .error fault → fault = .noChoice)
    (hrem : T.Remaining t₁.points ls m) :
    ∃ more t₂ s₂, search.retry t₁ s₁ = (more, t₂, s₂) ∧ search.count s₂ = search.count s + 1 ∧
      if more then I t₂ s₂ ∧ T.Follows t₂ ∧ T.Advances t₂ ls m else ls = [] ∧ m = 0 := by
  have hcount : search.count (search.retry t₁ s₁).2.2 = search.count s + 1 := by
    rw [hc.retry, ← hc.pass t s, hp]
  by_cases hr : rewind t₁.points = []
  · obtain ⟨t₂, s₂, hretry⟩ := search.retry_of_rewind_eq_nil hr s₁
    rw [hretry] at hcount
    exact ⟨false, t₂, s₂, hretry, hcount, hrem.finished hr⟩
  · obtain ⟨s₂, hretry⟩ := search.retry_of_rewind_ne_nil hr s₁
    rw [hretry] at hcount
    have hI₂ := hx.keeps hI hf hp hfault hretry
    exact ⟨true, _, s₂, hretry, hcount, hI₂, ⟨rfl, hrem.traces_rewind⟩, hrem.pass hr _ rfl⟩

/-- Every pass of the search walks the tree, and advances it. -/
theorem Explores.reaches (hx : search.Explores view T I) (hc : search.Counts) {t₀ t : Trail}
    {s₀ s : σ} {ls : List (Leaf β)} {m : Nat} (hI : I t₀ s₀) (hf : T.Follows t₀)
    (hadv : T.Advances t₀ ls m) (h : search.Reaches t₀ s₀ t s) :
    I t s ∧ T.Follows t ∧ ∃ ls m, T.Advances t ls m := by
  induction h with
  | start => exact ⟨hI, hf, ls, m, hadv⟩
  | @next t t₁ t₂ s s₁ s₂ result hreach hp hresult hretry ih =>
    obtain ⟨hI, hf, ls, m, hadv⟩ := ih
    obtain ⟨m, rfl⟩ : ∃ k, m = k + 1 := by
      obtain ⟨-, -, -, k, -, -, hm, -⟩ := hadv
      exact ⟨k, hm⟩
    obtain ⟨_, _, _, ls', hp', hrem, -⟩ := hx.pass_cases hI hf hadv
    cases hp.symm.trans hp'
    obtain ⟨_, _, _, hretry', -, hmore⟩ := hx.after hc hI hf hp hresult hrem
    cases hretry.symm.trans hretry'
    exact ⟨hmore.1, hmore.2.1, ls', m, hmore.2.2⟩

/-- **The run of the search**: from a pass on with the leaves `ls` and `m` passes still to come, the
requests enumerate these leaves, if the present one and each further one may run `m` passes. -/
theorem Explores.enumerates (hx : search.Explores view T I) (hc : search.Counts) {n : Nat} :
    ∀ {m k : Nat} {t : Trail} {s : σ} {ls : List (Leaf β)}, m ≤ k → m ≤ n → I t s → T.Follows t →
      T.Advances t ls m → search.Enumerates view n (search.run k t s) ls (search.count s + m) := by
  intro m
  induction m with
  | zero =>
    intro k t s ls _ _ _ _ hadv
    obtain ⟨_, _, _, _, _, _, h0, _⟩ := hadv
    cases h0
  | succ m ih =>
    intro k t s ls hk hn hI hf hadv
    obtain ⟨k, rfl⟩ : ∃ j, k = j + 1 := ⟨k - 1, by omega⟩
    have hcount : ∀ c, c = search.count s + 1 → c + m = search.count s + (m + 1) := by omega
    obtain ⟨result, t₁, s₁, ls', hp, hrem, hcases⟩ := hx.pass_cases hI hf hadv
    rw [Search.run, hp]
    rcases hcases with ⟨rfl, rfl⟩ | ⟨a, path, rfl, rfl, hpath⟩ | ⟨fault, path, rfl, hne, rfl⟩
    · -- the pass lacked a choice: the same request goes on
      obtain ⟨more, t₂, s₂, hretry, hs₂, hmore⟩ :=
        hx.after hc hI hf hp (fun _ h => (Except.error.inj h).symm) hrem
      simp only [hretry]
      cases more with
      | true => exact hcount _ hs₂ ▸ ih (by omega) (by omega) hmore.1 hmore.2.1 hmore.2.2
      | false =>
        obtain ⟨rfl, rfl⟩ := hmore
        exact ⟨[], _, .closed _ _, rfl, fun _ => by rw [hc.note, hs₂]⟩
    · -- the pass found a value: the next request goes on
      have hrest :
          search.Enumerates view n (search.again n t₁ s₁) ls' (search.count s + (m + 1)) := by
        obtain ⟨more, t₂, s₂, hretry, hs₂, hmore⟩ := hx.after hc hI hf hp (fun _ h => by cases h) hrem
        simp only [Search.again, hretry]
        cases more with
        | true => exact hcount _ hs₂ ▸ ih (by omega) (by omega) hmore.1 hmore.2.1 hmore.2.2
        | false =>
          obtain ⟨rfl, rfl⟩ := hmore
          exact ⟨[], _, .closed _ _, rfl, fun _ => hs₂⟩
      obtain ⟨vs, s', hy, hvs, hcnt⟩ := hrest
      refine ⟨(path, a) :: vs, s', .value hpath hy, by simp [answers, hvs], fun h => ?_⟩
      exact hcnt fun l hl => h l (List.mem_cons_of_mem _ hl)
    · -- an ordinary fault closes the search
      refine ⟨[], s₁, ?_, rfl, fun h => absurd (h _ List.mem_cons_self) Bool.false_ne_true⟩
      cases fault <;> first | exact absurd rfl hne | exact .closed _ _

end

/-- **The run from the root**: on a new trail, requests for what the passes walk answer for all leaves of
the tree. -/
theorem Explores.yields {search : Search σ α} {T : DecisionTree α} {I : Trail → σ → Prop} {n : Nat}
    {s : σ} (hx : search.Explores id T I) (hc : search.Counts) (hI : I {} s) (hn : T.passes ≤ n) :
    ∃ s', search.Yields n (search.run n {} s) (answers T.leaves).1 (answers T.leaves).2 s' ∧
      ((∀ l ∈ T.leaves, l.2.isOk) → search.count s' = search.count s + T.passes) := by
  obtain ⟨vs, s', hy, hvs, hcount⟩ :=
    hx.enumerates hc hn hn hI ⟨rfl, traces_nil T⟩ (advances_fresh T {} rfl)
  have hsame : vs.map (fun v => (v.1, id v.2)) = vs := by simp
  rw [hsame] at hvs
  exact ⟨s', hvs ▸ hy, hcount⟩

end Search

end AmbLisp
