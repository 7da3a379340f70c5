import AmbLisp.Proofs.Eval.Contract

/-!
# What only grows

Some parts of a world only grow: what a run finds there is still there behind it. Such a part is given
by the relation between the worlds before and behind (`World.Growth`); each operation on worlds has to
comply with it, and then evaluations do, and whatever the evaluator is made of (`Run.Grows`).
-/

namespace AmbLisp

variable {α β : Type} {R : World → World → Prop}

/-- A relation between a world and a later one, with which each operation on worlds complies but the
choices, since these may be made by any rule. -/
class World.Growth (R : World → World → Prop) : Prop where
  refl : ∀ w, R w w
  trans : ∀ {w w' w''}, R w w' → R w' w'' → R w w''
  store : ∀ (w : World) (σ : Store), R w { w with store := σ }
  note : ∀ (w : World) (event : Event), R w { w with journal := event :: w.journal }
  print : ∀ (w : World) (lines : List String), R w { w with printed := lines ++ w.printed }
  choose : ∀ (w : World) (cs : List Value), R w
    { w with
      trail := (w.trail.choose cs).2,
      journal := (w.trail.choiceEvent? cs).toList ++ w.journal }

namespace Contract

/-- Evaluations relate the worlds around them. -/
def growing (R : World → World → Prop) : Contract where
  world _ := True
  code _ _ := True
  value _ _ := True
  scope _ _ := True
  step _ w w' := R w w'
  stop _ w _ w' := R w w'

theorem lawful_growing [hR : World.Growth R] (host : Host) : (growing R).Lawful host where
  refl {_ w} := hR.refl w
  trans h h' := hR.trans h h'
  trans_stop h h' := hR.trans h h'
  code_mono _ _ := trivial
  value_mono _ _ := trivial
  scope_mono _ _ := trivial
  fault {_ w _} _ _ := hR.refl w
  loadFault {_ w _ _} _ _ _ := hR.refl w
  nil := trivial
  quote _ := trivial
  eval _ _ _ := trivial
  items _ _ := trivial
  sequence _ := trivial
  closure _ := ⟨trivial, trivial⟩
  primitive _ _ := trivial
  file _ _ := trivial
  lookup _ _ _ := trivial
  note {_ w event} _ := ⟨trivial, hR.note w event⟩
  print {_ w lines} _ := ⟨trivial, hR.print w lines⟩
  define {_ w _ _} _ _ _ := ⟨trivial, hR.store w _⟩
  close {_ w _ _} _ _ _ _ := ⟨trivial, hR.store w _, trivial⟩
  enter {_ w _ _} _ _ _ _ _ :=
    ⟨trivial, trivial, fun _ _ => trivial, fun _ h => hR.trans (hR.store w _) h,
      fun _ _ h => hR.trans (hR.store w _) h⟩
  choose {_ w cs v t} _ _ hc := by
    have h := hR.choose w cs
    rw [hc] at h
    exact ⟨trivial, h, trivial⟩
  noChoice {_ w cs t} _ _ hc := by
    have h := hR.choose w cs
    rw [hc] at h
    exact h

end Contract

/-- A run relates each world to the one that it leaves behind. -/
def Run.Grows (R : World → World → Prop) (act : Run α) : Prop :=
  ∀ w, R w (act.outcome w).2

namespace Run

variable [hR : World.Growth R]

theorem grows_pure (a : α) : Grows R (pure a) := hR.refl

theorem grows_throw (fault : Fault) : Grows R (throw fault : Run α) := hR.refl

theorem grows_define (e : ScopeId) (name : String) (v : Value) : Grows R (define e name v) :=
  fun w => hR.store w _

theorem grows_bind {act : Run α} {k : α → Run β} (ha : Grows R act) (hk : ∀ a, Grows R (k a)) :
    Grows R (act >>= k) := by
  intro w
  have h := ha w
  rw [ExceptT.outcome_bind]
  rcases hr : act.outcome w with ⟨fault | a, w'⟩ <;> rw [hr] at h
  · exact h
  · exact hR.trans h (hk a w')

omit hR in
theorem grows_of_met {act : Run α} {e : ScopeId} {P : α → World → Prop}
    (h : ∀ w, (Contract.growing R).Met e w P (act.outcome w)) : Grows R act := by
  intro w
  have hw := h w
  rcases hr : act.outcome w with ⟨fault | a, w'⟩ <;> rw [hr] at hw
  · exact hw
  · exact hw.2.1

/-! ## The evaluator -/

variable {ev : Evaluator} (hev : (Contract.growing R).Complies ev)

include hev

omit hR in
theorem grows_ev (v : Value) (e : ScopeId) : Grows R (ev v e) :=
  grows_of_met fun _ => hev (e := e) trivial trivial trivial

theorem grows_all (exprs : List Value) (e : ScopeId) : Grows R (ev.all e exprs) :=
  grows_of_met fun _ =>
    (Contract.lawful_growing Disk.empty).met_all hev trivial trivial fun _ _ => trivial

theorem grows_sequence (exprs : List Value) (v : Value) (e : ScopeId) :
    Grows R (ev.sequence e v exprs) :=
  grows_of_met fun _ =>
    (Contract.lawful_growing Disk.empty).met_sequence hev trivial trivial (fun _ _ => trivial) trivial

theorem grows_clauses (cls : List Value) (e : ScopeId) : Grows R (ev.clauses e cls) :=
  grows_of_met fun _ =>
    (Contract.lawful_growing Disk.empty).met_clauses hev trivial trivial fun _ _ => trivial

theorem grows_letBindings (bs : List Value) (e : ScopeId) : Grows R (ev.letBindings e bs) :=
  grows_of_met fun _ =>
    (Contract.lawful_growing Disk.empty).met_letBindings hev trivial trivial fun _ _ => trivial

theorem grows_apply {host : Host} (vs : List Value) : Grows R (ev.apply host vs) :=
  grows_of_met (e := Store.globalScope) fun _ =>
    (Contract.lawful_growing host).met_apply hev trivial trivial fun _ _ => trivial

theorem grows_load {host : Host} (path : String) (e : ScopeId) : Grows R (ev.load host e path) :=
  grows_of_met fun _ => (Contract.lawful_growing host).met_load hev trivial trivial trivial

omit hev in
theorem grows_evaluate (host : Host) (n : Nat) (v : Value) (e : ScopeId) :
    Grows R (evaluate host n v e) :=
  grows_ev ((Contract.lawful_growing host).evaluate n) v e

end Run

/-! ## What has been noted -/

/-- What has been noted in a world is so in a later one. -/
def World.Noted (w w' : World) : Prop :=
  w.journal <:+ w'.journal

instance World.growth_noted : World.Growth World.Noted where
  refl _ := List.suffix_rfl
  trans h h' := h.trans h'
  store _ _ := List.suffix_rfl
  note _ event := List.suffix_cons event _
  print _ _ := List.suffix_rfl
  choose _ _ := List.suffix_append _ _

end AmbLisp
