import AmbLisp.Proofs.Eval.Walking
import AmbLisp.Proofs.Search.Closing
import AmbLisp.Proofs.Session.Delivery
import AmbLisp.Proofs.Session.Solving

/-!
# Requests for the leaves of a tree

Requests in a row have what a search yields (`attempts_of_yields`). So if the passes of a search walk a
tree, the requests of a session have the values of its leaves up to the first fault, and then this fault
or the end of the search (`Search.run_enumerates_leaves`). If the expression walks the tree wherever the
scopes are, all scopes are as they were before (`attempts_of_walks`).
-/

namespace AmbLisp

open DecisionTree

namespace Session

variable {cfg : Setting} {expr : Value} {s : Session}

/-- The session behind so many requests in a row, the first of which is `request`. -/
def after (cfg : Setting) : Nat → Request Value → Session → Session
  | 0, _, s => s
  | n + 1, request, s => after cfg n (tryAgain cfg) (request s).2

/-- Requests in a row have what a search yields. Behind each value the trail of the problem spells the
path to it, and the session behind all of them is that in which the search is closed, without a problem.
-/
theorem attempts_of_yields (request : Request Value) {out : Except Fault Value × Option Trail × Session}
    {vs : List (List Nat × Value)} {fault : Fault} {s' : Session}
    (hy : (searchFor cfg expr).Yields cfg.passes out vs fault s')
    (hrequest : request s = settle expr out) :
    attempts cfg (vs.length + 1) request s =
        vs.map (fun v => (.ok v.2, true)) ++ [(.error fault, false)] ∧
      (∀ i path v, vs[i]? = some (path, v) → ∃ t : Trail,
        (after cfg (i + 1) request s).problem = some ⟨expr, t⟩ ∧ Spells t.points path) ∧
      after cfg (vs.length + 1) request s = s'.withProblem none := by
  induction hy generalizing request s with
  | closed fault s' =>
    rw [List.length_nil, attempts, attempts, after, after, hrequest]
    exact ⟨rfl, by simp, rfl⟩
  | @value a t s₁ s' path rest fault hpath _ ih =>
    obtain ⟨hattempts, hpaths, hafter⟩ :=
      ih (tryAgain cfg) (s := (request s).2) (hrequest ▸ tryAgain_settle)
    rw [List.length_cons, attempts, after, hattempts, hafter, hrequest]
    refine ⟨rfl, fun i path' v hi => ?_, rfl⟩
    cases i with
    | zero =>
      cases hi
      exact ⟨t, by rw [after, after, hrequest]; rfl, hpath⟩
    | succ i =>
      rw [after]
      exact hpaths i path' v hi

/-- The passes of a session walk the tree that its expression walks. -/
theorem explores_of_walks {T : DecisionTree Value}
    (h : (evaluate cfg.toHost cfg.depth expr Store.globalScope).Walks s.store T) :
    (searchFor cfg expr).Explores id T fun _ s' => s.store.Extends s'.store where
  walks {t s'} hI hf := by
    obtain ⟨w', hact, htrail, -⟩ := h (s'.passWorld t) hI hf.2
    have htrail : w'.trail = (T.walk t).2 := htrail
    rw [pass_eq, hact]
    dsimp only [passWorld]
    rw [htrail]
    rcases T.walk t with ⟨fault | v, t'⟩ <;> rfl
  keeps {t s' result t₁ s₁ t₂ s₂} hI hf hp _ hretry := by
    obtain ⟨w', hact, -, hext⟩ := h (s'.passWorld t) hI hf.2
    rw [pass_eq, hact] at hp
    cases hp
    rw [(retry_eq cfg expr hretry).2]
    exact hI.trans hext

/-- **Requests for the leaves of a tree** have their values from left to right, and then the first
fault or the end of the search, and the scopes of the session are as they were. -/
theorem attempts_of_walks {T : DecisionTree Value} {vs : List Value} {fault : Fault}
    (h : (evaluate cfg.toHost cfg.depth expr Store.globalScope).Walks s.store T)
    (hpasses : T.passes ≤ cfg.passes) (hvs : (answers T.leaves).1.map (·.2) = vs)
    (hfault : (answers T.leaves).2 = fault) :
    attempts cfg (vs.length + 1) (run cfg expr) s =
        vs.map (fun v => (.ok v, true)) ++ [(.error fault, false)] ∧
      s.store.Extends (after cfg (vs.length + 1) (run cfg expr) s).store ∧
      ((∀ l ∈ T.leaves, l.2.isOk) →
        (after cfg (vs.length + 1) (run cfg expr) s).passes = T.passes) := by
  let s₀ : Session := { s with passes := 0 }
  have hc := counts_searchFor cfg expr
  have hx := explores_of_walks h
  have hI : s.store.Extends s₀.store := .refl _
  obtain ⟨s', hy, hcount⟩ := hx.yields hc hI hpasses
  have hkeeps : (searchFor cfg expr).KeepsFrom {} s₀ fun s' => s.store.Extends s'.store := by
    refine ⟨hI, fun {t s'} hreach hs' => ?_, fun hs' => hs'⟩
    obtain ⟨-, hf, -⟩ :=
      hx.reaches hc hI ⟨rfl, traces_nil T⟩ (advances_fresh T {} rfl) hreach
    obtain ⟨w', hact, -, hext⟩ := h (s'.passWorld t) hs' hf.2
    rw [pass_eq, hact]
    exact hs'.trans hext
  have hclosed := hkeeps.closed hy
  obtain ⟨hattempts, -, hafter⟩ := attempts_of_yields (run cfg expr) (s := s) hy rfl
  rw [← hvs, List.length_map, hattempts, hafter, List.map_map, hfault]
  exact ⟨rfl, hclosed, fun hok => (hcount hok).trans (Nat.zero_add _)⟩

end Session

open Search Session

/-- **Replay search is depth-first search.** Let the passes of a search walk a tree. The first
request on a new trail and all further ones return the values of the leaves from left to right, up
to the first fault; after each value the points of the trail spell the path to its leaf; and then
the search is closed with that fault or, if there is none, for want of more values. A tree without
faults takes one pass for each leaf and one for each node.

So it is with the requests of a session, if the passes for an expression walk a tree as long as the state
of the session keeps an invariant: they have these values, each with a problem whose trail spells the
path, and then this fault, behind which there is no problem. -/
theorem Search.run_enumerates_leaves :
    (∀ {σ α : Type} (search : Search σ α), search.Counts → ∀ T : DecisionTree α,
      (∀ t s, T.Follows t → ((search.pass t s).1, (search.pass t s).2.1) = T.walk t) →
      ∀ n, T.leaves.length + T.nodes ≤ n → ∀ s,
      ∃ s', search.Yields n (search.run n {} s) (answers T.leaves).1 (answers T.leaves).2 s' ∧
        ((∀ l ∈ T.leaves, l.2.isOk) →
          search.count s' = search.count s + T.leaves.length + T.nodes)) ∧
    ∀ (cfg : Setting) (expr : Value) (s : Session) (T : DecisionTree Value)
      (I : Trail → Session → Prop),
      (searchFor cfg expr).Explores id T I → I {} { s with passes := 0 } →
      T.leaves.length + T.nodes ≤ cfg.passes →
      let request := Session.run cfg expr
      let values := (answers T.leaves).1
      attempts cfg (values.length + 1) request s =
          values.map (fun v => (.ok v.2, true)) ++ [(.error (answers T.leaves).2, false)] ∧
        (∀ i path v, values[i]? = some (path, v) → ∃ t : Trail,
          (after cfg (i + 1) request s).problem = some ⟨expr, t⟩ ∧ Spells t.points path) ∧
        ((∀ l ∈ T.leaves, l.2.isOk) →
          (after cfg (values.length + 1) request s).passes = T.leaves.length + T.nodes) := by
  constructor
  · intro σ α search hc T hw n hn s
    have hx : search.Explores id T fun _ _ => True :=
      ⟨fun {t s} _ hf => by rw [← hw t s hf]; cases (search.pass t s).1 <;> rfl,
        fun _ _ _ _ _ => trivial⟩
    obtain ⟨s', hy, hcount⟩ := hx.yields hc trivial (passes_eq T ▸ hn)
    refine ⟨s', hy, fun hok => ?_⟩
    rw [hcount hok, passes_eq, Nat.add_assoc]
  · intro cfg expr s T I hx hI hn request values
    obtain ⟨s', hy, hcount⟩ := hx.yields (counts_searchFor cfg expr) hI (passes_eq T ▸ hn)
    obtain ⟨hattempts, hpaths, hafter⟩ := attempts_of_yields request hy rfl
    refine ⟨hattempts, hpaths, fun hok => ?_⟩
    rw [hafter, ← passes_eq]
    exact (hcount hok).trans (Nat.zero_add _)

namespace DecisionTree

/-- The search that walks a tree and only counts its passes. -/
def search {α : Type} (T : DecisionTree α) : Search Nat α where
  pass t n := ((T.walk t).1, (T.walk t).2, n + 1)
  count := id
  note _ n := n

theorem counts_search {α : Type} (T : DecisionTree α) : T.search.Counts :=
  ⟨fun _ _ => rfl, fun _ _ => rfl⟩

/-- A tree with a leaf, an empty node and a deeper node side by side. -/
def uneven : DecisionTree Nat :=
  node [.int 1, .int 2, .int 3] fun
    | 0 => value 10
    | 1 => node [] nofun
    | 2 => node [.nil, .nil] fun
      | 0 => value 20
      | 1 => value 30

end DecisionTree

/-- A search that walks this tree; and a session with a choice between two numbers. -/
theorem Search.run_enumerates_leaves_uneven :
    let cfg : Setting := { depth := 8, passes := 8 }
    let expr : Value := .list [.sym "amb", .int 1, .int 2]
    let s := initial false
    (uneven.search.Counts ∧
      (∀ t s, uneven.Follows t →
        ((uneven.search.pass t s).1, (uneven.search.pass t s).2.1) = uneven.walk t) ∧
      uneven.leaves.length + uneven.nodes ≤ 6 ∧ (∀ l ∈ uneven.leaves, l.2.isOk) ∧
      ∃ s', uneven.search.Yields 6 (uneven.search.run 6 {} 0)
        [([0], 10), ([2, 0], 20), ([2, 1], 30)] .noMoreValues s' ∧ uneven.search.count s' = 6) ∧
    attempts cfg 3 (Session.run cfg expr) s =
        [(.ok (.int 1), true), (.ok (.int 2), true), (.error .noMoreValues, false)] ∧
      (∃ t : Trail, (after cfg 2 (Session.run cfg expr) s).problem = some ⟨expr, t⟩ ∧
        Spells t.points [1]) ∧
      (after cfg 3 (Session.run cfg expr) s).passes = 3 := by
  intro cfg expr s
  have hw : ∀ t s, uneven.Follows t →
      ((uneven.search.pass t s).1, (uneven.search.pass t s).2.1) = uneven.walk t := fun _ _ _ => rfl
  have hok : ∀ l ∈ uneven.leaves, l.2.isOk := by decide
  obtain ⟨hsearch, hsession⟩ := Search.run_enumerates_leaves
  obtain ⟨s', hy, hcount⟩ := hsearch uneven.search (counts_search _) uneven hw 6 (by decide) 0
  let T : DecisionTree Value := node [.int 1, .int 2] fun
    | 0 => value (.int 1)
    | 1 => value (.int 2)
  have hwalks : (evaluate cfg.toHost cfg.depth expr Store.globalScope).Walks s.store T := by
    change (Run.choose [.int 1, .int 2] >>= fun choice =>
      evaluate cfg.toHost 7 choice Store.globalScope).Walks s.store T
    refine Run.walks_choose fun i => ?_
    match i with
    | 0 => exact (evaluates_int 1).walks (by decide)
    | 1 => exact (evaluates_int 2).walks (by decide)
  obtain ⟨hattempts, hpaths, hpasses⟩ :=
    hsession cfg expr s T _ (explores_of_walks hwalks) (.refl _) (by decide)
  exact ⟨⟨counts_search _, hw, by decide, hok, s', hy, hcount hok⟩, hattempts,
    hpaths 1 [1] (.int 2) rfl, hpasses (by decide)⟩

end AmbLisp
