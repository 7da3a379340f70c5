import AmbLisp.Proofs.Eval.Frame
import AmbLisp.Proofs.Eval.Sound
import AmbLisp.Proofs.Store.Chain

/-!
# Scopes around an evaluation

Behind an evaluation each scope that was there before lies where it lay and binds what it bound, and
all but the one of the evaluation are unchanged. Each scope that was opened lies in an older one, so
that every way outwards still ends: `evaluation_frame`.
-/

namespace AmbLisp

namespace Store

/-- Scopes keep their place and lose no name, and new ones lie in others. -/
structure Nests (s s' : Store) : Prop where
  kept : ∀ {i : Nat} {scope : Scope}, s.scopes[i]? = some scope →
    ∃ scope', s'.scopes[i]? = some scope' ∧ scope'.outer = scope.outer ∧
      ∀ name, (scope.get? name).isSome → (scope'.get? name).isSome
  opened : ∀ {i : Nat} {scope : Scope}, s.scopes.size ≤ i → s'.scopes[i]? = some scope →
    scope.outer.isSome

variable {s s' s'' : Store}

theorem nests_of_scopes_eq (h : s'.scopes = s.scopes) : s.Nests s' := by
  constructor
  · intro i scope hs
    exact ⟨scope, h ▸ hs, rfl, fun _ => id⟩
  · intro i scope hi hs
    rw [h, Array.getElem?_eq_none hi] at hs
    cases hs

theorem Nests.trans (h : s.Nests s') (h' : s'.Nests s'') : s.Nests s'' := by
  constructor
  · intro i scope hs
    obtain ⟨scope', hs', ho, hn⟩ := h.kept hs
    obtain ⟨scope'', hs'', ho', hn'⟩ := h'.kept hs'
    exact ⟨scope'', hs'', ho'.trans ho, fun name hname => hn' name (hn name hname)⟩
  · intro i scope hi hs
    by_cases hlt : i < s'.scopes.size
    · -- Opened by the first of the two: the second one has left it in its place.
      have hs' := Array.getElem?_eq_getElem hlt
      obtain ⟨scope', hs'', ho, -⟩ := h'.kept hs'
      cases hs.symm.trans hs''
      rw [ho]
      exact h.opened hi hs'
    · exact h'.opened (Nat.le_of_not_lt hlt) hs

/-- Scopes that keep their place keep their way outwards. -/
theorem Nests.chain {e : Nat} {es : List Nat} (h : s.Nests s') (hc : s.Chain e es) :
    s'.Chain e es := by
  induction hc with
  | last hs ho =>
    obtain ⟨scope', hs', houter, -⟩ := h.kept hs
    exact .last hs' (houter.trans ho)
  | link hs ho _ ih =>
    obtain ⟨scope', hs', houter, -⟩ := h.kept hs
    exact .link hs' (houter.trans ho) ih

theorem nests_define (s : Store) (e : Nat) (name : String) (v : Value) :
    s.Nests (s.define e name v) := by
  constructor
  · intro i scope hs
    by_cases he : e = i
    · refine ⟨scope.set name v, by simp [Store.define, Array.getElem?_modify, he, hs], rfl, ?_⟩
      intro n hn
      rw [Scope.get?_set]
      split
      · rfl
      · exact hn
    · exact ⟨scope, by simp [Store.define, Array.getElem?_modify, he, hs], rfl, fun _ => id⟩
  · intro i scope hi hs
    rw [Array.getElem?_eq_none (s.size_define e name v ▸ hi)] at hs
    cases hs

/-- What happens in a scope that is opened inside another one, and the opening. -/
theorem Nests.of_openScope {scope : Scope} (ho : scope.outer.isSome)
    (h : (s.openScope scope).2.Nests s') : s.Nests s' := by
  constructor
  · intro i x hx
    have hi : i < s.scopes.size := (Array.getElem?_eq_some_iff.1 hx).1
    refine h.kept ?_
    rw [Store.openScope, Array.getElem?_push, if_neg (Nat.ne_of_lt hi)]
    exact hx
  · intro i x hi hx
    rcases Nat.lt_or_eq_of_le hi with hlt | rfl
    · refine h.opened ?_ hx
      rw [Store.openScope, Array.size_push]
      exact hlt
    · have hnew : (s.openScope scope).2.scopes[s.scopes.size]? = some scope := by
        rw [Store.openScope, Array.getElem?_push, if_pos rfl]
      obtain ⟨scope', hs', houter, -⟩ := h.kept hnew
      cases hx.symm.trans hs'
      rw [houter]
      exact ho

theorem frames_nests : Frames fun _ => Nests where
  refl := nests_of_scopes_eq rfl
  trans := .trans
  define := nests_define
  close _ _ _ _ := nests_of_scopes_eq rfl
  enter ho h := h.of_openScope (Option.isSome_of_eq_some ho)

end Store

/-- **The frame of an evaluation**, whether it comes to a value or to a fault. Of the scopes that were
there before, only that of the evaluation may change; it stays where it is and goes on binding all
names that it has bound. In a sound world each scope that is opened lies in an older one, and from
every scope there is a finite way outwards, along which names are looked up. -/
theorem evaluation_frame (host : Host) (n : Nat) (expr : Value) (e : Nat) (w : World) :
    let s := w.store
    let s' := ((evaluate host n expr e).outcome w).2.store
    (∀ (i : Nat) (scope : Scope), s.scopes[i]? = some scope →
      ∃ scope', s'.scopes[i]? = some scope' ∧ scope'.outer = scope.outer ∧
        (∀ name, (scope.get? name).isSome → (scope'.get? name).isSome) ∧
        (i ≠ e → scope' = scope)) ∧
    (w.Sound → e < s.scopes.size → s.Covers expr →
      (∀ (i : Nat) (scope : Scope), s.scopes.size ≤ i → s'.scopes[i]? = some scope →
        ∃ o : Nat, scope.outer = some o ∧ o < i) ∧
      ∀ i < s'.scopes.size,
        s'.Chain i (s'.chain i) ∧
        (∀ name, s'.lookup i name = (s'.chain i).findSome? (s'.get? name)) ∧
        ∀ name, s'.find? i name = (s'.chain i).find? fun o => (s'.get? name o).isSome) := by
  intro s s'
  have hkeeps : s.KeepsBut e s' := evaluate_keeps host n expr e w
  have hnests : s.Nests s' := evaluate_frames Store.frames_nests host n expr e w
  constructor
  · intro i scope hs
    obtain ⟨scope', hs', houter, hnames⟩ := hnests.kept hs
    refine ⟨scope', hs', houter, hnames, fun hne => ?_⟩
    have hi : i < s.scopes.size := (Array.getElem?_eq_some_iff.1 hs).1
    have hsame := hkeeps.same hi hne
    exact Option.some.inj (hs'.symm.trans (hsame.trans hs))
  · intro hw he hexpr
    have hsound : s'.Sound := (evaluate_sound host n hw he hexpr).1.store
    constructor
    · intro i scope hi hs
      obtain ⟨o, ho⟩ := Option.isSome_iff_exists.1 (hnests.opened hi hs)
      exact ⟨o, ho, hsound.outer hs ho⟩
    · intro i hi
      exact hsound.chain_spec hi

/-- A call of `(lambda (x) (define y x))`. -/
theorem evaluation_frame_call :
    let w : World := { store := { scopes := #[{}] } }
    let f : Value := .list [.sym "lambda", .list [.sym "x"], .list [.sym "define", .sym "y", .sym "x"]]
    let s' := ((evaluate Disk.empty 9 (.list [f, .int 5]) 0).outcome w).2.store
    s'.Chain 1 [1, 0] ∧ (s'.lookup 1 "y").isSome ∧ s'.lookup 0 "y" = none := by
  intro w f s'
  have hw : w.Sound := by
    refine ⟨⟨?_, ?_⟩, Trail.offers_new _⟩
    · intro i scope o hs ho
      obtain ⟨hi, rfl⟩ := Array.getElem?_eq_some_iff.1 hs
      obtain rfl : i = 0 := Nat.lt_one_iff.1 hi
      cases ho
    · intro i scope hs b hb
      obtain ⟨hi, rfl⟩ := Array.getElem?_eq_some_iff.1 hs
      obtain rfl : i = 0 := Nat.lt_one_iff.1 hi
      cases hb
  have hcode : w.store.Covers (.list [f, .int 5]) := Value.within_of_closureFree rfl
  obtain ⟨-, hframe⟩ := evaluation_frame Disk.empty 9 (.list [f, .int 5]) 0 w
  obtain ⟨-, hchains⟩ := hframe hw Nat.one_pos hcode
  obtain ⟨hchain, -, -⟩ := hchains 1 (by decide)
  exact ⟨hchain, by decide, by rfl⟩

end AmbLisp
