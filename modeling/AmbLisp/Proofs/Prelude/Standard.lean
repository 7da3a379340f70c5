import AmbLisp.Proofs.Prelude.Functions
import AmbLisp.Proofs.Store.Extends

/-!
# Standard stores

A store is standard if its global scope binds all that it binds in a new session, to the same values.
It stays so when other names are bound, and when scopes are opened. In a standard store the
primitives and the functions of the prelude are found under their names (`Standard.primitive`,
`Standard.function`), also from the scope of a call whose parameters do not hide them (`InCall`).
-/

namespace AmbLisp

open Prelude

namespace Store

variable {σ τ : Store} {name : String} {v : Value}

/-! ## What a new session binds -/

/-- Around the global scope there is none. -/
theorem Sound.exists_global (h : σ.Sound) (hsize : globalScope < σ.scopes.size) :
    ∃ scope, σ.scopes[globalScope]? = some scope ∧ scope.outer = none ∧
      ∀ name, scope.get? name = σ.lookup globalScope name := by
  obtain ⟨scope, hs⟩ : ∃ scope, σ.scopes[globalScope]? = some scope :=
    ⟨_, Array.getElem?_eq_getElem hsize⟩
  refine ⟨scope, hs, ?_, fun name => ?_⟩
  · cases ho : scope.outer with
    | none => rfl
    | some o => exact absurd (h.outer hs ho) (Nat.not_lt_zero o)
  · rw [lookup_globalScope, Store.bindings, hs]
    rfl

theorem bindings_define (h : globalScope < σ.scopes.size) :
    (σ.define globalScope name v).bindings globalScope =
      Bindings.set name v (σ.bindings globalScope) := by
  obtain ⟨scope, hs⟩ : ∃ scope, σ.scopes[globalScope]? = some scope :=
    ⟨_, Array.getElem?_eq_getElem h⟩
  simp only [Store.bindings, Store.define, Array.getElem?_modify, if_pos, hs, Option.map_some,
    Option.getD_some, Scope.set]

theorem lookup_define (h : globalScope < σ.scopes.size) (n : String) :
    (σ.define globalScope name v).lookup globalScope n =
      if n = name then some v else σ.lookup globalScope n := by
  rw [lookup_globalScope, bindings_define h, Bindings.lookup_set, lookup_globalScope]

theorem size_install (σ : Store) (f : Function) : (σ.install f).scopes.size = σ.scopes.size :=
  Array.size_modify

theorem lookup_install (h : globalScope < σ.scopes.size) (f : Function) (name : String) :
    (σ.install f).lookup globalScope name =
      if name = f.name then some (.closure σ.closures globalScope (f.params.map .sym) f.body)
      else σ.lookup globalScope name := by
  have hclose : globalScope < (σ.close globalScope (f.params.map .sym) f.body).2.scopes.size := h
  exact lookup_define hclose name

/-- Functions bind nothing but their names. -/
theorem lookup_foldl_install {fs : List Function} (h : globalScope < σ.scopes.size)
    (hname : name ∉ fs.map (·.name)) :
    (fs.foldl install σ).lookup globalScope name = σ.lookup globalScope name := by
  induction fs generalizing σ with
  | nil => rfl
  | cons f fs ih =>
    rw [List.map_cons, List.mem_cons, not_or] at hname
    rw [List.foldl_cons, ih ((size_install σ f).symm ▸ h) hname.2, lookup_install h,
      if_neg hname.1]

/-- Functions with different names are all bound. -/
theorem exists_lookup_foldl_install {fs : List Function} {f : Function}
    (h : globalScope < σ.scopes.size) (hnames : (fs.map (·.name)).Nodup) (hf : f ∈ fs) :
    ∃ serial, (fs.foldl install σ).lookup globalScope f.name =
      some (.closure serial globalScope (f.params.map .sym) f.body) := by
  induction fs generalizing σ with
  | nil => cases hf
  | cons g fs ih =>
    rw [List.map_cons, List.nodup_cons] at hnames
    have hsize : globalScope < (σ.install g).scopes.size := (size_install σ g).symm ▸ h
    rw [List.foldl_cons]
    rcases List.mem_cons.1 hf with rfl | hf
    · refine ⟨σ.closures, ?_⟩
      rw [lookup_foldl_install hsize hnames.1, lookup_install h, if_pos rfl]
    · exact ih hsize hnames.2 hf

end Store

namespace Prelude

theorem nodup_names : names.Nodup := by
  decide +kernel

/-- No name of the prelude is that of a primitive or begins a special form. -/
theorem reserved_not_mem_names :
    (∀ p : Primitive, p.name ∉ names) ∧ ∀ k : Keyword, k.name ∉ names := by
  constructor
  · intro p
    cases p <;> decide +kernel
  · intro k
    cases k <;> decide +kernel

end Prelude

namespace Store

variable {σ τ : Store} {name : String} {v : Value}

theorem lookup_primitives (p : Primitive) :
    primitives.lookup globalScope p.name = some (.prim p) := by
  cases p <;> rfl

/-- With the prelude, a new session binds all that it binds without. -/
theorem lookup_initial (hname : name ∉ names) :
    (initial true).lookup globalScope name = (initial false).lookup globalScope name := by
  have hsize : globalScope < primitives.scopes.size := Nat.one_pos
  rw [initial_true_eq, lookup_foldl_install hsize hname, Store.initial, if_neg Bool.false_ne_true]

/-! ## Standard stores -/

/-- The global scope binds what it binds in a new session with the prelude, to the same values. -/
def Standard (σ : Store) : Prop :=
  ∃ scope, σ.scopes[globalScope]? = some scope ∧ scope.outer = none ∧
    ∀ name v, (initial true).lookup globalScope name = some v → scope.get? name = some v

theorem standard_initial : (initial true).Standard := by
  obtain ⟨scope, hs, ho, hget⟩ := (sound_initial true).1.exists_global (sound_initial true).2
  exact ⟨scope, hs, ho, fun name v hl => (hget name).trans hl⟩

theorem Standard.extends (h : σ.Standard) (hext : σ.Extends τ) : τ.Standard := by
  obtain ⟨scope, hs, hrest⟩ := h
  exact ⟨scope, hext.getElem? hs, hrest⟩

/-- Other names may be bound. -/
theorem Standard.define (h : σ.Standard)
    (hname : (initial true).lookup globalScope name = none) (v : Value) :
    (σ.define globalScope name v).Standard := by
  obtain ⟨scope, hs, ho, hbinds⟩ := h
  refine ⟨scope.set name v, ?_, ho, fun n w hl => ?_⟩
  · rw [Store.define, Array.getElem?_modify, if_pos rfl, hs, Option.map_some]
  · have hne : n ≠ name := by
      rintro rfl
      rw [hname] at hl
      cases hl
    rw [Scope.get?_set, if_neg hne]
    exact hbinds n w hl

theorem standard_session : (Session.initial true).store.Standard := by
  have hstore : ∀ prelude, (Session.initial prelude).store = initial prelude := fun _ => rfl
  rw [hstore]
  exact standard_initial

/-- A new session in which one more name is bound. -/
theorem standard_define_initial (hname : (initial true).lookup globalScope name = none) (v : Value) :
    ((initial true).define globalScope name v).Standard ∧
      ((initial true).define globalScope name v).lookup globalScope name = some v := by
  refine ⟨standard_initial.define hname v, ?_⟩
  rw [lookup_define (sound_initial true).2, if_pos rfl]

theorem Standard.lookup (h : σ.Standard) (hl : (initial true).lookup globalScope name = some v) :
    σ.lookup globalScope name = some v := by
  obtain ⟨scope, hs, -, hbinds⟩ := h
  rw [lookup_globalScope, Store.bindings, hs]
  exact hbinds name v hl

theorem Standard.primitive (h : σ.Standard) (p : Primitive) :
    σ.lookup globalScope p.name = some (.prim p) := by
  refine h.lookup ?_
  rw [lookup_initial (reserved_not_mem_names.1 p)]
  exact lookup_primitives p

theorem Standard.function (h : σ.Standard) (f : Function) (hf : f ∈ functions) :
    ∃ serial, σ.lookup globalScope f.name =
      some (.closure serial globalScope (f.params.map .sym) f.body) := by
  have hsize : globalScope < primitives.scopes.size := Nat.one_pos
  obtain ⟨serial, hl⟩ := exists_lookup_foldl_install hsize nodup_names hf
  exact ⟨serial, h.lookup (initial_true_eq ▸ hl)⟩

/-! ## Scopes of calls -/

/-- A scope of a standard store, around it nothing but the global scope. -/
structure InCall (σ : Store) (e : ScopeId) (bs : List (String × Value)) : Prop where
  standard : σ.Standard
  scope : σ.scopes[e]? = some ⟨bs, some globalScope⟩

variable {e : ScopeId} {bs : List (String × Value)}

theorem InCall.extends (h : σ.InCall e bs) (hext : σ.Extends τ) : τ.InCall e bs :=
  ⟨h.standard.extends hext, hext.getElem? h.scope⟩

theorem Standard.inCall (h : σ.Standard) (bs : List (String × Value)) :
    (σ.openScope ⟨bs, some globalScope⟩).2.InCall σ.scopes.size bs :=
  ⟨h.extends (σ.extends_openScope _), σ.getElem?_openScope_size _⟩

theorem InCall.lookup (h : σ.InCall e bs) (name : String) :
    σ.lookup e name =
      match bs.lookup name with
      | some v => some v
      | none => σ.lookup globalScope name := by
  obtain ⟨scope, hs, ho, -⟩ := h.standard
  have hlast : σ.Chain globalScope [globalScope] := .last hs ho
  have hpos : 0 < e := by
    refine Nat.pos_of_ne_zero fun he => ?_
    subst he
    cases h.scope.symm.trans hs
    cases ho
  have hglobal : σ.lookup globalScope name = [globalScope].findSome? (σ.get? name) :=
    hlast.lookupWithin name (Nat.le_refl 1)
  rw [Store.lookup, (Chain.link h.scope rfl hlast).lookupWithin name (Nat.succ_lt_succ hpos),
    hglobal, List.findSome?_cons, get?_eq h.scope, Scope.get?]
  cases bs.lookup name <;> rfl

theorem InCall.argument (h : σ.InCall e bs) (hl : bs.lookup name = some v) :
    σ.lookup e name = some v := by
  rw [h.lookup, hl]

theorem InCall.primitive (h : σ.InCall e bs) (p : Primitive) (hl : bs.lookup p.name = none) :
    σ.lookup e p.name = some (.prim p) := by
  rw [h.lookup, hl]
  exact h.standard.primitive p

theorem InCall.function (h : σ.InCall e bs) (f : Function) (hf : f ∈ functions)
    (hl : bs.lookup f.name = none) :
    ∃ serial, σ.lookup e f.name =
      some (.closure serial globalScope (f.params.map .sym) f.body) := by
  rw [h.lookup, hl]
  exact h.standard.function f hf

end Store

end AmbLisp
