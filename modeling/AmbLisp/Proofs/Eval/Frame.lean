import AmbLisp.Proofs.Eval.Contract
import AmbLisp.Proofs.Store.Sound

/-!
# What evaluations leave alone

An evaluation binds names in its own scope and in those that are opened for it. All other scopes are
behind it as they were before, whether it comes to a value or to a fault: `evaluate_keeps`.
-/

namespace AmbLisp

namespace Store

/-- No scope and no closure is lost, and all scopes but one are as they were. -/
structure KeepsBut (e : Nat) (s s' : Store) : Prop where
  grew : s.Grew s'
  same : ∀ {i : Nat}, i < s.scopes.size → i ≠ e → s'.scopes[i]? = s.scopes[i]?

variable {e : Nat} {s s' s'' : Store}

theorem KeepsBut.refl : s.KeepsBut e s := ⟨.refl s, fun _ _ => rfl⟩

theorem KeepsBut.trans (h : s.KeepsBut e s') (h' : s'.KeepsBut e s'') : s.KeepsBut e s'' := by
  refine ⟨h.grew.trans h'.grew, fun hi hne => ?_⟩
  rw [h'.same (Nat.lt_of_lt_of_le hi h.grew.1) hne, h.same hi hne]

theorem keepsBut_define (s : Store) (e : Nat) (name : String) (v : Value) :
    s.KeepsBut e (s.define e name v) := by
  refine ⟨s.grew_define e name v, fun _ hne => ?_⟩
  rw [Store.define, Array.getElem?_modify, if_neg hne.symm]

theorem keepsBut_close (s : Store) (e o : Nat) (params : List Value) (body : Value) :
    s.KeepsBut e (s.close o params body).2 :=
  ⟨s.grew_close o params body, fun _ _ => rfl⟩

/-- What happens in a scope that is opened concerns none of the scopes before. -/
theorem KeepsBut.of_openScope {scope : Scope}
    (h : (s.openScope scope).2.KeepsBut s.scopes.size s') : s.KeepsBut e s' := by
  refine ⟨(s.grew_openScope scope).trans h.grew, fun hi _ => ?_⟩
  rw [h.same (Nat.lt_of_lt_of_le hi (s.grew_openScope scope).1) (Nat.ne_of_lt hi), Store.openScope,
    Array.getElem?_push, if_neg (Nat.ne_of_lt hi)]

/-- A relation between the stores around what is done in a scope, with which each single operation on
stores complies. What is done in a scope that is opened inside another one counts as done in that
one. -/
structure Frames (R : ScopeId → Store → Store → Prop) : Prop where
  refl : ∀ {e s}, R e s s
  trans : ∀ {e s s' s''}, R e s s' → R e s' s'' → R e s s''
  define : ∀ (s : Store) (e : ScopeId) (name : String) (v : Value), R e s (s.define e name v)
  close : ∀ (s : Store) (e : ScopeId) (params : List Value) (body : Value),
    R e s (s.close e params body).2
  enter : ∀ {e s scope o s'}, scope.outer = some o →
    R s.scopes.size (s.openScope scope).2 s' → R e s s'

theorem frames_keepsBut : Frames KeepsBut where
  refl := .refl
  trans := .trans
  define := keepsBut_define
  close s e := s.keepsBut_close e e
  enter _ := .of_openScope

end Store

namespace Contract

/-- Evaluations relate the stores around them. -/
def framing (R : ScopeId → Store → Store → Prop) : Contract where
  world _ := True
  code _ _ := True
  value _ _ := True
  scope _ _ := True
  step e w w' := R e w.store w'.store
  stop e w _ w' := R e w.store w'.store

theorem lawful_framing {R : ScopeId → Store → Store → Prop} (h : Store.Frames R) (host : Host) :
    (framing R).Lawful host where
  refl := h.refl
  trans hs hs' := h.trans hs hs'
  trans_stop hs hs' := h.trans hs hs'
  code_mono _ _ := trivial
  value_mono _ _ := trivial
  scope_mono _ _ := trivial
  fault _ _ := h.refl
  loadFault _ _ _ := h.refl
  nil := trivial
  quote _ := trivial
  eval _ _ _ := trivial
  items _ _ := trivial
  sequence _ := trivial
  closure _ := ⟨trivial, trivial⟩
  primitive _ _ := trivial
  file _ _ := trivial
  lookup _ _ _ := trivial
  note _ := ⟨trivial, h.refl⟩
  print _ := ⟨trivial, h.refl⟩
  define _ _ _ := ⟨trivial, h.define _ _ _ _⟩
  close {e w params body} _ _ _ _ := ⟨trivial, h.close w.store e params body, trivial⟩
  enter _ _ ho _ _ :=
    ⟨trivial, trivial, fun _ _ => trivial, fun _ hs => h.enter ho hs, fun _ _ hs => h.enter ho hs⟩
  choose _ _ _ := ⟨trivial, h.refl, trivial⟩
  noChoice _ _ _ := h.refl

theorem frames_of_met {R : ScopeId → Store → Store → Prop} {α : Type} {e : ScopeId} {w : World}
    {P : α → World → Prop} {out : Except Fault α × World} (h : (framing R).Met e w P out) :
    R e w.store out.2.store := by
  rcases out with ⟨fault | a, w'⟩
  · exact h
  · exact h.2.1

end Contract

/-- What all operations on stores comply with, every evaluation does. -/
theorem evaluate_frames {R : ScopeId → Store → Store → Prop} (h : Store.Frames R) (host : Host)
    (n : Nat) (expr : Value) (e : ScopeId) (w : World) :
    R e w.store ((evaluate host n expr e).outcome w).2.store :=
  Contract.frames_of_met ((Contract.lawful_framing h host).evaluate n trivial trivial trivial)

/-- A `let` changes none of the scopes that were there before, not even its own. -/
theorem let_keeps (host : Host) (n : Nat) (bindings : List Value) (body : Value) (o : Nat)
    (w : World) {i : Nat} (hi : i < w.store.scopes.size) :
    ((evaluate host (n + 1) (.list [.sym "let", .list bindings, body]) o).outcome
      w).2.store.scopes[i]? = w.store.scopes[i]? := by
  have h := Contract.lawful_framing Store.frames_keepsBut host
  have hev : (Contract.framing Store.KeepsBut).Complies (evaluate host n) := h.evaluate n
  -- what is done in the new scope, seen from one that is not there yet
  have hmet : (Contract.framing Store.KeepsBut).Kept w.store.scopes.size w
      ((evaluate host (n + 1) (.list [.sym "let", .list bindings, body]) o).outcome w) := by
    refine h.met_enter trivial trivial rfl trivial nofun fun inner w₁ hw₁ hin _ => ?_
    have hbindings : ∀ b ∈ bindings, True := fun _ _ => trivial
    refine h.met_bind (h.met_letBindings hev hw₁ hin hbindings) fun _ w₂ hw₂ _ _ => ?_
    exact hev hw₂ trivial trivial
  exact (Contract.frames_of_met hmet).same hi (Nat.ne_of_lt hi)

/-- **An evaluation changes no scope but its own** and those that are opened for it. -/
theorem evaluate_keeps (host : Host) (n : Nat) (expr : Value) (e : ScopeId) (w : World) :
    w.store.KeepsBut e ((evaluate host n expr e).outcome w).2.store :=
  evaluate_frames Store.frames_keepsBut host n expr e w

end AmbLisp
