import AmbLisp.Proofs.Eval.Sound
import AmbLisp.Proofs.Search.Reaches
import AmbLisp.Proofs.Session.Pass

/-!
# Sessions are sound

A session is sound if its store is, has a global scope, and covers the current problem. A new
session is sound. To run an expression that is covered, and to try again, keeps a session sound, loses
none of its scopes and comes to a value that is covered: so the expressions of further requests may be
made of it.
-/

namespace AmbLisp

theorem Store.getElem?_primitives {i : Nat} {scope : Scope}
    (h : Store.primitives.scopes[i]? = some scope) :
    scope = { bindings := Primitive.all.map fun p => (p.name, .prim p) } := by
  obtain ⟨hi, rfl⟩ := Array.getElem?_eq_some_iff.1 h
  obtain rfl : i = 0 := Nat.lt_one_iff.1 hi
  rfl

theorem Store.binds_primitives {P : Value → Prop} (h : ∀ p, P (.prim p)) :
    Store.primitives.Binds P := by
  intro i scope hscope b hb
  rw [getElem?_primitives hscope] at hb
  obtain ⟨p, -, rfl⟩ := List.mem_map.1 hb
  exact h p

/-- The primitives are no closures, and the global scope has none around it. -/
theorem Store.sound_primitives : Store.primitives.Sound := by
  refine ⟨fun hscope ho => ?_, Store.binds_primitives fun _ => trivial⟩
  rw [getElem?_primitives hscope] at ho
  cases ho

/-- The forms of the prelude are read from its definitions. -/
theorem Prelude.exists_definition {v : Value} (h : v ∈ Prelude.forms) :
    ∃ source ∈ Prelude.definitions, Reader.parse source = .ok v := by
  obtain ⟨source, hmem, hsource⟩ := List.mem_filterMap.1 h
  refine ⟨source, hmem, ?_⟩
  cases hp : Reader.parse source with
  | error e =>
    rw [hp] at hsource
    cases hsource
  | ok u =>
    rw [hp] at hsource
    cases hsource
    rfl

theorem Prelude.readable_forms : ∀ v ∈ Prelude.forms, Readable v := by
  intro v hv
  obtain ⟨source, -, hsource⟩ := Prelude.exists_definition hv
  exact Reader.readable_of_parse hsource

/-- The store of a new session is what the definitions of the prelude leave behind. -/
theorem Store.initial_true :
    Store.initial true =
      ((Evaluator.all (evaluate Disk.empty 8) globalScope Prelude.forms).outcome
        { store := primitives }).2.store := by
  unfold Store.initial ExceptT.outcome
  rw [if_pos rfl]

theorem Store.sound_initial (prelude : Bool) :
    (Store.initial prelude).Sound ∧ 0 < (Store.initial prelude).scopes.size := by
  have hprimitives : World.Sound { store := Store.primitives } :=
    ⟨Store.sound_primitives, Trail.offers_new _⟩
  have hglobal : 0 < Store.primitives.scopes.size := Nat.one_pos
  cases prelude with
  | false => exact ⟨hprimitives.store, hglobal⟩
  | true =>
    obtain ⟨hsound, hgrew, -⟩ := evaluate_all_sound Disk.empty 8 (e := Store.globalScope)
      hprimitives hglobal fun v hv =>
        Value.within_of_closureFree (Prelude.readable_forms v hv).closureFree
    rw [Store.initial_true]
    exact ⟨hsound.store, Nat.lt_of_lt_of_le hglobal hgrew.1⟩

namespace Session

/-- The store is sound and has a global scope, and it covers the expression of the current problem
and the candidates of its trail. -/
structure Sound (s : Session) : Prop where
  store : s.store.Sound
  global : 0 < s.store.scopes.size
  problem : ∀ p, s.problem = some p →
    s.store.Covers p.expression ∧ p.trail.Offers s.store.Covers

/-- The session behind a request is sound, has lost nothing, and has covered results. -/
def Keeps {α : Type} (s : Session) (P : Store → α → Prop) (out : Except Fault α × Session) : Prop :=
  out.2.Sound ∧ s.store.Grew out.2.store ∧ ∀ a, out.1 = .ok a → P out.2.store a

theorem sound_initial (prelude : Bool) : (initial prelude).Sound :=
  ⟨(Store.sound_initial prelude).1, (Store.sound_initial prelude).2, fun _ h => by cases h⟩

/-! ## Searches -/

/-- What holds of the trail and the store between the passes of a search that began with some
scopes. -/
structure Searching (τ : Store) (t : Trail) (σ : Store) : Prop where
  grew : τ.Grew σ
  store : σ.Sound
  trail : t.Offers σ.Covers

variable {cfg : Setting} {expr : Value} {τ : Store} {s : Session}

theorem keeps_searching (cfg : Setting) (hglobal : 0 < τ.scopes.size) (hexpr : τ.Covers expr) :
    (searchFor cfg expr).Keeps (fun t s => Searching τ t s.store) fun v s => s.store.Covers v := by
  refine keeps_of_pass cfg expr (V := fun v σ => σ.Covers v) (fun t s h => ?_) fun t σ h => ?_
  · have hw : (s.passWorld t).Sound := ⟨h.store, h.trail⟩
    obtain ⟨hsound, hgrew, hv⟩ := evaluate_sound cfg.toHost cfg.depth hw
      (Nat.lt_of_lt_of_le hglobal h.grew.1) (h.grew.covers hexpr)
    exact ⟨⟨h.grew.trans hgrew, hsound.store, hsound.trail⟩, hv⟩
  · exact ⟨h.grew, h.store, h.trail.retry⟩

theorem keeps_settle {out : Except Fault Value × Option Trail × Session} (h : s.Sound)
    (hexpr : s.store.Covers expr)
    (hk : Search.Kept (fun t s' => Searching s.store t s'.store) (fun v s' => s'.store.Covers v)
      out) :
    s.Keeps Store.Covers (settle expr out) := by
  obtain ⟨⟨t, hI, ht⟩, hv⟩ := hk
  refine ⟨⟨hI.store, Nat.lt_of_lt_of_le h.global hI.grew.1, fun p hp => ?_⟩, hI.grew, hv⟩
  obtain ⟨t', ht', rfl⟩ := Option.map_eq_some_iff.1 hp
  obtain rfl := ht t' ht'
  exact ⟨hI.grew.covers hexpr, hI.trail⟩

/-- **To run an expression keeps a session sound.** -/
theorem keeps_run (h : s.Sound) (hexpr : s.store.Covers expr) :
    s.Keeps Store.Covers (run cfg expr s) := by
  have hsearching : Searching s.store {} s.store := ⟨.refl _, h.store, Trail.offers_new _⟩
  exact keeps_settle h hexpr ((keeps_searching cfg h.global hexpr).run _ hsearching)

/-- **To try again keeps a session sound.** -/
theorem keeps_tryAgain (h : s.Sound) : s.Keeps Store.Covers (tryAgain cfg s) := by
  unfold tryAgain
  split
  · exact ⟨h, .refl _, fun _ hv => by cases hv⟩
  · next p hp =>
    obtain ⟨hexpr, htrail⟩ := h.problem p hp
    have hsearching : Searching s.store p.trail s.store := ⟨.refl _, h.store, htrail⟩
    exact keeps_settle h hexpr ((keeps_searching cfg h.global hexpr).again _ hsearching)

end Session

end AmbLisp
