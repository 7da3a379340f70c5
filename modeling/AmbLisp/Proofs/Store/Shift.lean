import AmbLisp.Proofs.Store.Rename

/-!
# Scopes that come later

Between two evaluations from the same scopes, other scopes may have been opened and other closures
made. `Renaming.shift` keeps what there was in both stores and moves what is new in the first one
behind the end of the second. If the second store still has the scopes of the first, it has them
under these names (`Store.renames_shift`).
-/

namespace AmbLisp

/-- Keeps what is in the first store; what is new behind it is new behind the second one. -/
def Renaming.shift (τ σ : Store) : Renaming where
  scope i := if i < τ.scopes.size then i else i + (σ.scopes.size - τ.scopes.size)
  serial n := if n < τ.closures then n else n + (σ.closures - τ.closures)
  mono := by
    intro i j h
    split <;> split <;> omega
  serial_injective := by
    intro m n h
    split at h <;> split at h <;> omega

variable {τ σ : Store}

theorem Renaming.shift_scope {i : Nat} (h : i < τ.scopes.size) :
    (Renaming.shift τ σ).scope i = i :=
  if_pos h

theorem Renaming.shift_serial {n : Nat} (h : n < τ.closures) :
    (Renaming.shift τ σ).serial n = n :=
  if_pos h

theorem Renaming.shift_self (τ : Store) : Renaming.shift τ τ = .id := by
  simp [Renaming.shift, Renaming.id]

/-- What a store covers keeps its names. -/
theorem Store.Covers.rename_shift {v : Value} (h : τ.Covers v) :
    v.rename (Renaming.shift τ σ) = v := by
  induction v using Value.induction with
  | int | bool | sym | str | nil | prim => simp
  | list vs ih =>
    rw [Value.rename_list, List.map_congr_left fun v hv => ih v hv (Store.covers_list.1 h v hv),
      List.map_id']
  | closure n e params body ih ihb =>
    obtain ⟨hn, he, hp, hb⟩ := Value.within_closure.1 h
    rw [Value.rename_closure, Renaming.shift_serial hn, Renaming.shift_scope he, ihb hb,
      List.map_congr_left fun v hv => ih v hv (hp v hv), List.map_id']

theorem Store.Sound.rename_shift (h : τ.Sound) {i : Nat} {scope : Scope}
    (hscope : τ.scopes[i]? = some scope) : scope.rename (Renaming.shift τ σ) = scope := by
  have hi : i < τ.scopes.size := (Array.getElem?_eq_some_iff.1 hscope).1
  have hbindings : scope.bindings.map (Renaming.shift τ σ).binding = scope.bindings.map id := by
    refine List.map_congr_left fun b hb => ?_
    rw [Renaming.binding, (h.covers i scope hscope b hb).rename_shift]
    rfl
  have houter : scope.outer.map (Renaming.shift τ σ).scope = scope.outer := by
    cases ho : scope.outer with
    | none => rfl
    | some o =>
      have ho : o < τ.scopes.size := Nat.lt_trans (h.outer hscope ho) hi
      rw [Option.map_some, Renaming.shift_scope ho]
  rw [Scope.rename, hbindings, houter, List.map_id]

/-- **A store that still has the scopes of a sound one** has them under the names that are kept. -/
theorem Store.renames_shift (h : τ.Sound) (hgrew : τ.Grew σ)
    (hsame : ∀ i, i < τ.scopes.size → σ.scopes[i]? = τ.scopes[i]?) :
    τ.Renames (Renaming.shift τ σ) σ := by
  obtain ⟨hscopes, hclosures⟩ := hgrew
  constructor
  · intro i hi
    rw [Renaming.shift_scope hi, hsame i hi, Array.getElem?_eq_getElem hi, Option.map_some,
      h.rename_shift (Array.getElem?_eq_getElem hi)]
  · intro k
    have : ¬ τ.scopes.size + k < τ.scopes.size := by omega
    simp only [Renaming.shift, if_neg this]
    omega
  · intro k
    have : ¬ τ.closures + k < τ.closures := by omega
    simp only [Renaming.shift, if_neg this]
    omega

end AmbLisp
