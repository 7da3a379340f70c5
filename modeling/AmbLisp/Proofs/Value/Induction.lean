import AmbLisp.Value.Equality
import AmbLisp.Value.Nesting
import AmbLisp.Value.Printer

/-!
# Induction over values

Values contain lists of values. `Value.induction` shows a property of all values from that of the
elements of each list, and of the parameters and the body of each closure.
-/

namespace AmbLisp.Value

/-- Induction over values, with a hypothesis for each value in a list. -/
@[elab_as_elim]
theorem induction {P : Value → Prop} (int : ∀ n, P (.int n)) (bool : ∀ b, P (.bool b))
    (sym : ∀ name, P (.sym name)) (str : ∀ text, P (.str text)) (nil : P .nil)
    (list : ∀ vs, (∀ v ∈ vs, P v) → P (.list vs)) (prim : ∀ p, P (.prim p))
    (closure : ∀ n e params body, (∀ v ∈ params, P v) → P body → P (.closure n e params body))
    (v : Value) : P v := by
  refine @Value.rec P (fun vs => ∀ v ∈ vs, P v) int bool sym str nil list prim closure ?_ ?_ v
  · exact List.forall_mem_nil P
  · exact fun v vs hv hvs => List.forall_mem_cons.2 ⟨hv, hvs⟩

theorem writeAll_eq_map (st : Style) (vs : List Value) : writeAll st vs = vs.map (write st) := by
  induction vs with
  | nil => rfl
  | cons v vs ih => rw [writeAll, ih, List.map_cons]

theorem nestingAll_map {f : Value → Value} {vs : List Value}
    (h : ∀ v ∈ vs, (f v).nesting = v.nesting) : nestingAll (vs.map f) = nestingAll vs := by
  induction vs with
  | nil => rfl
  | cons v vs ih =>
    rw [List.forall_mem_cons] at h
    rw [List.map_cons, nestingAll, nestingAll, h.1, ih h.2]

end AmbLisp.Value
