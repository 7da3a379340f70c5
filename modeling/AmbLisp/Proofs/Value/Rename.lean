import AmbLisp.Primitive.Apply
import AmbLisp.Proofs.Value.Induction
import AmbLisp.Proofs.Value.Readable

/-!
# Renaming scopes

Two passes over one expression open their scopes at different places of the store and count their
closures from different numbers. A `Renaming` maps the scopes and the closures of one store to those
of another. Nothing that a program can see of a value is changed by it: neither its text nor how it
compares to other values nor what a primitive computes from it.
-/

namespace AmbLisp

/-- A map of scopes that keeps their order, and a one-to-one map of the numbers of closures. -/
structure Renaming where
  scope : Nat → Nat
  serial : Nat → Nat
  mono : ∀ {i j}, i < j → scope i < scope j
  serial_injective : ∀ {m n}, serial m = serial n → m = n

theorem Renaming.injective (r : Renaming) {i j : Nat} (h : r.scope i = r.scope j) : i = j := by
  rcases Nat.lt_trichotomy i j with hlt | heq | hgt
  · exact absurd h (Nat.ne_of_lt (r.mono hlt))
  · exact heq
  · exact absurd h (Nat.ne_of_gt (r.mono hgt))

/-- All keep their names. -/
def Renaming.id : Renaming := ⟨fun i => i, fun n => n, fun h => h, fun h => h⟩

namespace Value

mutual

/-- A value with its closures renamed. -/
def rename (r : Renaming) : Value → Value
  | list vs => list (renameAll r vs)
  | closure n e params body =>
    closure (r.serial n) (r.scope e) (renameAll r params) (rename r body)
  | int n => int n
  | bool b => bool b
  | sym name => sym name
  | str text => str text
  | nil => nil
  | prim p => prim p

/-- Values with their closures renamed. -/
def renameAll (r : Renaming) : List Value → List Value
  | [] => []
  | v :: vs => rename r v :: renameAll r vs

end

mutual

/-- There is no closure in a value. -/
def closureFree : Value → Bool
  | list vs => closureFreeAll vs
  | closure .. => false
  | _ => true

/-- There is no closure in any of these values. -/
def closureFreeAll : List Value → Bool
  | [] => true
  | v :: vs => closureFree v && closureFreeAll vs

end

variable {r : Renaming}

theorem renameAll_eq_map (vs : List Value) : renameAll r vs = vs.map (rename r) := by
  induction vs with
  | nil => rfl
  | cons v vs ih => rw [renameAll, ih, List.map_cons]

theorem closureFreeAll_eq_all (vs : List Value) : closureFreeAll vs = vs.all closureFree := by
  induction vs with
  | nil => rfl
  | cons v vs ih => rw [closureFreeAll, ih, List.all_cons]

theorem closureFree_list {vs : List Value} :
    (list vs).closureFree = true ↔ ∀ v ∈ vs, v.closureFree = true := by
  rw [closureFree, closureFreeAll_eq_all, List.all_eq_true]

@[simp] theorem rename_int (n : Int) : (int n).rename r = int n := by rw [rename]

@[simp] theorem rename_bool (b : Bool) : (bool b).rename r = bool b := by rw [rename]

@[simp] theorem rename_sym (name : String) : (sym name).rename r = sym name := by rw [rename]

@[simp] theorem rename_str (text : String) : (str text).rename r = str text := by rw [rename]

@[simp] theorem rename_nil : nil.rename r = nil := by rw [rename]

@[simp] theorem rename_prim (p : Primitive) : (prim p).rename r = prim p := by rw [rename]

@[simp] theorem rename_list (vs : List Value) : (list vs).rename r = list (vs.map (rename r)) := by
  rw [rename, renameAll_eq_map]

@[simp] theorem rename_closure (n : Nat) (e : ScopeId) (params : List Value) (body : Value) :
    (closure n e params body).rename r =
      closure (r.serial n) (r.scope e) (params.map (rename r)) (body.rename r) := by
  rw [rename, renameAll_eq_map]

theorem rename_id (v : Value) : v.rename .id = v := by
  induction v using Value.induction with
  | int | bool | sym | str | nil | prim => simp
  | list vs ih => rw [rename_list, List.map_congr_left ih, List.map_id']
  | closure n e params body ih ihb =>
    rw [rename_closure, List.map_congr_left ih, List.map_id', ihb]
    rfl

theorem map_rename_of_fixed {vs : List Value} (h : ∀ v ∈ vs, v.rename r = v) :
    vs.map (rename r) = vs := by
  rw [List.map_congr_left h, List.map_id']

/-- What is so of each item is so of lists: the same under other names are the same. -/
theorem eq_of_map_rename_eq {vs ws : List Value}
    (hitems : ∀ v ∈ vs, ∀ w : Value, v.rename r = w.rename r → v = w)
    (h : vs.map (rename r) = ws.map (rename r)) : vs = ws := by
  induction vs generalizing ws with
  | nil => exact (List.map_eq_nil_iff.1 h.symm).symm
  | cons v vs ih =>
    obtain ⟨w, ws, rfl, hw, hws⟩ := List.map_eq_cons_iff.1 h.symm
    rw [List.forall_mem_cons] at hitems
    rw [hitems.1 w hw.symm, ih hitems.2 hws.symm]

theorem rename_injective {v w : Value} (h : v.rename r = w.rename r) : v = w := by
  induction v using Value.induction generalizing w with
  | int | bool | sym | str | nil | prim => cases w <;> simp_all
  | list vs ih =>
    cases w with
    | list ws =>
      rw [rename_list, rename_list] at h
      exact congrArg list (eq_of_map_rename_eq (fun v hv w => ih v hv) (Value.list.inj h))
    | _ => simp at h
  | closure n e params body ih ihb =>
    cases w with
    | closure m o params' body' =>
      rw [rename_closure, rename_closure] at h
      obtain ⟨hn, he, hp, hb⟩ := Value.closure.inj h
      have hparams := eq_of_map_rename_eq (fun v hv w => ih v hv) hp
      rw [r.serial_injective hn, r.injective he, hparams, ihb hb]
    | _ => simp at h

theorem rename_eq_list_iff {v : Value} {us : List Value} :
    v.rename r = .list us ↔ ∃ vs, v = .list vs ∧ vs.map (rename r) = us := by
  cases v <;> simp

theorem rename_eq_sym_iff {v : Value} {name : String} :
    v.rename r = .sym name ↔ v = .sym name := by
  cases v <;> simp

theorem rename_eq_pair {v a b : Value} (h : v.rename r = .list [a, b]) :
    ∃ x y, v = .list [x, y] ∧ x.rename r = a ∧ y.rename r = b := by
  obtain ⟨vs, rfl, hvs⟩ := rename_eq_list_iff.1 h
  obtain ⟨x, vs, rfl, hx, hvs⟩ := List.map_eq_cons_iff.1 hvs
  obtain ⟨y, vs, rfl, hy, hvs⟩ := List.map_eq_cons_iff.1 hvs
  obtain rfl := List.map_eq_nil_iff.1 hvs
  exact ⟨x, y, rfl, hx, hy⟩

/-! ## Values without closures -/

theorem rename_of_closureFree {v : Value} (h : v.closureFree = true) : v.rename r = v := by
  induction v using Value.induction with
  | int | bool | sym | str | nil | prim => simp
  | closure => cases h
  | list vs ih =>
    rw [closureFree_list] at h
    have hall : vs.map (rename r) = vs.map id :=
      List.map_congr_left fun v hv => ih v hv (h v hv)
    rw [rename_list, hall, List.map_id]

end Value

/-- What is read from a source text has no closures. -/
theorem Readable.closureFree {v : Value} (h : Readable v) : v.closureFree = true := by
  induction h with
  | int | bool | nil | str | sym => rfl
  | list h ih => exact Value.closureFree_list.2 ih

namespace Value

variable {r : Renaming}

/-! ## What can be seen of a value -/

@[simp] theorem symbol?_rename (v : Value) : (v.rename r).symbol? = v.symbol? := by
  cases v <;> simp [symbol?]

@[simp] theorem int?_rename (v : Value) : (v.rename r).int? = v.int? := by
  cases v <;> simp [int?]

@[simp] theorem isTrue_rename (v : Value) : (v.rename r).isTrue = v.isTrue := by
  cases v <;> simp [isTrue]

@[simp] theorem isAtom_rename (v : Value) : (v.rename r).isAtom = v.isAtom := by
  cases v <;> simp [isAtom]

theorem list?_rename (v : Value) : (v.rename r).list? = v.list?.map (·.map (rename r)) := by
  cases v <;> simp [list?]

theorem isQuotation_map_rename (vs : List Value) :
    isQuotation (vs.map (rename r)) = isQuotation vs := by
  rcases vs with _ | ⟨v, _ | ⟨u, _ | ⟨x, vs⟩⟩⟩
  · rfl
  · simp [isQuotation]
  · cases v <;> simp [isQuotation]
  · simp [isQuotation]

/-- A value has the same text under another name. -/
theorem write_rename (st : Style) (v : Value) : (v.rename r).write st = v.write st := by
  induction v using Value.induction generalizing st with
  | int | bool | sym | str | nil | prim => simp
  | list vs ih =>
    have hall : writeAll st (vs.map (rename r)) = writeAll st vs := by
      rw [writeAll_eq_map, writeAll_eq_map, List.map_map]
      exact List.map_congr_left fun v hv => ih v hv st
    simp only [rename_list, write, hall, isQuotation_map_rename]
  | closure n e params body ih _ =>
    have hall : writeAll st.ofParams (params.map (rename r)) = writeAll st.ofParams params := by
      rw [writeAll_eq_map, writeAll_eq_map, List.map_map]
      exact List.map_congr_left fun v hv => ih v hv _
    simp only [rename_closure, write, hall]

@[simp] theorem print_rename (v : Value) : (v.rename r).print = v.print :=
  write_rename _ v

/-- A value is nested as deeply under another name. -/
@[simp] theorem nesting_rename (v : Value) : (v.rename r).nesting = v.nesting := by
  induction v using Value.induction with
  | int | bool | sym | str | nil | prim => simp
  | list vs ih => rw [rename_list, nesting, nesting, nestingAll_map ih]
  | closure n e params body ih _ => rw [rename_closure, nesting, nesting, nestingAll_map ih]

/-- Two values compare as they do under other names. -/
theorem equal_rename (v w : Value) : (v.rename r).equal (w.rename r) = v.equal w := by
  induction v using Value.induction generalizing w with
  | int | bool | sym | str | nil | prim => cases w <;> simp [equal]
  | closure => cases w <;> simp [equal]
  | list vs ih =>
    cases w with
    | list ws =>
      rw [rename_list, rename_list, equal, equal]
      induction vs generalizing ws with
      | nil => cases ws <;> simp [equalAll]
      | cons v vs ih' =>
        rw [List.forall_mem_cons] at ih
        cases ws with
        | nil => simp [equalAll]
        | cons w ws => simp only [List.map_cons, equalAll, ih.1, ih' ih.2]
    | _ => simp [equal]

end Value

end AmbLisp
