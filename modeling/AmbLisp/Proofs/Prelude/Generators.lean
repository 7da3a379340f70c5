import AmbLisp.Proofs.Integer
import AmbLisp.Proofs.Session.Enumerating

/-!
# Generators

A generator of the prelude requires that a test is not true, and then offers one value or to go on. So
it walks a node that has this value on the left and the rest on the right; if the test is true, it
walks a node without subtrees (`InCall.walks_offering`, `InCall.walks_offering_end`). By induction
on what is left to offer, `an-element-of` walks a tree with the elements of a list as its leaves, and
`an-integer-between` one with the integers of an interval. The values of the two follow.
-/

namespace AmbLisp

open DecisionTree Prelude Prelude.Function Store

/-! ## The tree of a generator -/

namespace DecisionTree

variable {α : Type}

/-- A tree on the left and one on the right. -/
def fork (left right : DecisionTree α) : Fin 2 → DecisionTree α
  | 0 => left
  | 1 => right

/-- The tree that offers values one after the other: at each node one to take, or to go on; and what
comes when there are no more. -/
def offers (first rest : Value) (ending : DecisionTree α) : List α → DecisionTree α
  | [] => ending
  | v :: vs => node [first, rest] (fork (value v) (offers first rest ending vs))

variable (first rest : Value) (ending : DecisionTree α)

theorem leaves_fork (left right : DecisionTree α) :
    (node [first, rest] (fork left right)).leaves = branch 0 left.leaves ++ branch 1 right.leaves := by
  change branch 0 left.leaves ++ (branch 1 right.leaves ++ []) = _
  rw [List.append_nil]

theorem passes_offers (vs : List α) :
    (offers first rest ending vs).passes = 2 * vs.length + ending.passes := by
  induction vs with
  | nil => exact (Nat.zero_add _).symm
  | cons v vs ih =>
    change 1 + ((offers first rest ending vs).passes + 0) + 1 = _
    rw [ih, List.length_cons]
    omega

/-- Leaves of a subtree are answered as in the subtree, with longer paths. -/
theorem answers_branch (i : Nat) (ls : List (Leaf α)) :
    answers (branch i ls) = ((answers ls).1.map (fun v => (i :: v.1, v.2)), (answers ls).2) := by
  induction ls with
  | nil => rfl
  | cons l ls ih =>
    obtain ⟨path, fault | a⟩ := l
    · rfl
    · rw [branch, List.map_cons, ← branch]
      simp only [answers, ih, List.map_cons]

/-- The values that are offered are answered in their order, and then the ending. -/
theorem answers_offers (vs : List α) :
    (answers (offers first rest ending vs).leaves).1.map (·.2) =
        vs ++ (answers ending.leaves).1.map (·.2) ∧
      (answers (offers first rest ending vs).leaves).2 = (answers ending.leaves).2 := by
  induction vs with
  | nil => exact ⟨rfl, rfl⟩
  | cons v vs ih =>
    have hleaves : (offers first rest ending (v :: vs)).leaves =
        ([0], .ok v) :: branch 1 (offers first rest ending vs).leaves :=
      leaves_fork first rest (value v) _
    rw [hleaves, answers, answers_branch]
    dsimp only
    rw [List.map_cons, List.map_map]
    exact ⟨congrArg (v :: ·) ih.1, ih.2⟩

variable {ending}

theorem isOk_of_mem_leaves_offers (hending : ∀ l ∈ ending.leaves, l.2.isOk) (vs : List α) :
    ∀ l ∈ (offers first rest ending vs).leaves, l.2.isOk := by
  induction vs with
  | nil => exact hending
  | cons v vs ih =>
    intro l hl
    rw [offers, leaves_fork] at hl
    rcases List.mem_append.1 hl with hl | hl
    · obtain ⟨l', hl', rfl⟩ := List.mem_map.1 hl
      rw [leaves, List.mem_singleton] at hl'
      subst hl'
      rfl
    · obtain ⟨l', hl', rfl⟩ := List.mem_map.1 hl
      exact ih l' hl'

end DecisionTree

/-! ## What a generator requires and offers -/

section Offering

variable {host : Host} {σ : Store} {e : ScopeId} {n : Nat} {bs : List (String × Value)}

/-- Not the truth value of a test. -/
theorem Store.InCall.evaluates_not (h : σ.InCall e bs) (hbs : bs.lookup "not" = none) {d : Nat}
    {test : Value} {b : Bool} (htest : Evaluates host σ e (d + 2) test (.bool b)) :
    Evaluates host σ e (d + 3) (.call "not" [test]) (.bool !b) := by
  obtain ⟨serial, hl⟩ := h.function Function.not (by simp [functions]) hbs
  refine evaluates_call rfl hl (by omega) (htest.all_cons evaluatesAll_nil) fun n => ?_
  refine Run.gives_function h.standard rfl fun τ e' _ hcall => ?_
  have hx := hcall.evaluates_argument host "x" rfl
  refine (evaluates_cond (d := 1) ?_ n).imp (by omega)
  cases b with
  | true => exact hx.clause_true rfl (evaluates_bool false)
  | false => exact hx.clause_false rfl (clause_else (Nat.le_refl 1) (evaluates_bool true))

/-- What is required goes on if it is true. -/
theorem Store.InCall.evaluates_require (h : σ.InCall e bs) (hbs : bs.lookup "require" = none)
    {d : Nat} {test : Value} (htest : Evaluates host σ e (d + 2) test (.bool true)) :
    Evaluates host σ e (d + 3) (.call "require" [test]) (.bool true) := by
  obtain ⟨serial, hl⟩ := h.function require (by simp [functions]) hbs
  refine evaluates_call rfl hl (by omega) (htest.all_cons evaluatesAll_nil) fun n => ?_
  refine Run.gives_function h.standard rfl fun τ e' _ hcall => ?_
  have hp := hcall.evaluates_argument host "p" rfl
  refine (evaluates_cond (d := 1) ?_ n).imp (by omega)
  exact hp.clause_true rfl (evaluates_bool true)

/-- What is required has no alternatives if it is false. -/
theorem Store.InCall.walks_require (h : σ.InCall e bs) (hbs : bs.lookup "require" = none)
    {test : Value} (htest : Evaluates host σ e (n + 2) test (.bool false)) :
    (evaluate host (n + 3) (.call "require" [test]) e).Walks σ (.node [] nofun) := by
  obtain ⟨serial, hl⟩ := h.function require (by simp [functions]) hbs
  refine walks_call rfl hl (htest.all_cons evaluatesAll_nil) (by omega) (Nat.le_refl _) ?_
  refine Run.walks_function h.standard rfl fun τ e' _ hcall => ?_
  have hp := hcall.evaluates_argument host "p" rfl
  change (Evaluator.clauses (evaluate host (n + 1)) e' _).Walks τ _
  rw [Evaluator.clauses]
  refine (hp (n + 1)).bind_walks (by omega) ?_
  have hfalse : ¬ (Value.bool false).isTrue = true := Bool.false_ne_true
  rw [if_neg hfalse, Evaluator.clauses]
  refine (evaluates_bool true (n + 1)).bind_walks (by omega) ?_
  exact Run.walks_choose fun i => i.elim0

variable {test first rest : Value}

/-- A generator whose test is true has nothing to offer. -/
theorem Store.InCall.walks_offering_end (h : σ.InCall e bs) (hreq : bs.lookup "require" = none)
    (hnot : bs.lookup "not" = none) (htest : Evaluates host σ e 2 test (.bool true)) (hn : 5 ≤ n) :
    (evaluate host n (offering test first rest) e).Walks σ (.node [] nofun) := by
  obtain ⟨n, rfl⟩ : ∃ m, n = m + 4 := ⟨n - 4, by omega⟩
  have hrequire := h.evaluates_not (d := 0) hnot htest
  exact (h.walks_require hreq (hrequire.mono (by omega))).bind_nil

/-- A generator whose test is false offers a value or to go on. -/
theorem Store.InCall.walks_offering (h : σ.InCall e bs) (hreq : bs.lookup "require" = none)
    (hnot : bs.lookup "not" = none) (htest : Evaluates host σ e 2 test (.bool false)) (hn : 3 ≤ n)
    {left right : DecisionTree Value} (hleft : (evaluate host n first e).Walks σ left)
    (hright : (evaluate host n rest e).Walks σ right) :
    (evaluate host (n + 2) (offering test first rest) e).Walks σ
      (.node [first, rest] (fork left right)) := by
  have hrequire := h.evaluates_require (d := 1) hreq (h.evaluates_not (d := 0) hnot htest)
  refine (hrequire (n + 1)).bind_walks (by omega) ?_
  change ((evaluate host (n + 1) (.call "amb" [first, rest]) e) >>= pure).Walks σ _
  rw [bind_pure]
  refine Run.walks_choose fun i => ?_
  rcases i with ⟨_ | _ | k, hk⟩
  · exact hleft
  · exact hright
  · exact absurd hk (Nat.not_lt_of_le (Nat.le_add_left 2 k))

end Offering

/-! ## Requests for what is offered -/

section Requests

variable {cfg : Setting} {s : Session}

/-- Requests in a row for a call of a generator have what it offers, and then its ending. -/
theorem attempts_of_offers {name : String} {f : Value} {args us vs : List Value}
    {first rest : Value} {ending : DecisionTree Value} (fault : Fault)
    (hname : Keyword.ofName? name = none) (hf : s.store.lookup globalScope name = some f)
    (hargs : EvaluatesAll cfg.toHost s.store globalScope 1 args us) {n : Nat} (hn : 1 ≤ n)
    (hdepth : cfg.depth = n + 1)
    (happly : ((evaluate cfg.toHost n).apply cfg.toHost (f :: us)).Walks s.store
      (offers first rest ending vs))
    (hending : answers ending.leaves = ([], fault)) (hone : ending.passes = 1)
    (hpasses : 2 * vs.length + 1 ≤ cfg.passes) :
    let request := Session.run cfg (.call name args)
    let s' := Session.after cfg (vs.length + 1) request s
    Session.attempts cfg (vs.length + 1) request s =
        vs.map (fun v => (.ok v, true)) ++ [(.error fault, false)] ∧
      s.store.Extends s'.store ∧
      ((∀ l ∈ ending.leaves, l.2.isOk) → s'.passes = 2 * vs.length + 1) := by
  have hwalks := walks_call hname hf hargs (Nat.le_refl 1) hn happly
  rw [← hdepth] at hwalks
  have htree := passes_offers first rest ending vs
  obtain ⟨hvalues, hlast⟩ := answers_offers first rest ending vs
  rw [hending] at hvalues hlast
  rw [hone] at htree
  obtain ⟨hattempts, hext, hcount⟩ := Session.attempts_of_walks hwalks (htree ▸ hpasses)
    (hvalues.trans (List.append_nil vs)) hlast
  exact ⟨hattempts, hext, fun hok => htree ▸ hcount (isOk_of_mem_leaves_offers first rest hok vs)⟩

end Requests

/-! ## The elements of a list -/

section Elements

variable {host : Host} {cfg : Setting} {s : Session}

/-- What `an-element-of` walks when it is applied to a list: the tree of its elements. -/
def elements : List Value → DecisionTree Value :=
  offers (.call "car" [.sym "items"]) (.call "an-element-of" [.call "cdr" [.sym "items"]])
    (.node [] nofun)

theorem walks_elements (host : Host) {σ : Store} (hσ : σ.Standard) (serial : Nat)
    (xs : List Value) {n : Nat} (hn : 3 * xs.length + 5 ≤ n) :
    ((evaluate host n).apply host
      [.closure serial globalScope (anElementOf.params.map .sym) anElementOf.body, .list xs]).Walks σ
      (elements xs) := by
  induction xs generalizing σ serial n with
  | nil =>
    refine Run.walks_function hσ rfl fun τ e _ hcall => ?_
    have hnil := hcall.evaluates_isNil host "items" rfl rfl
    exact hcall.walks_offering_end rfl rfl hnil hn
  | cons x xs ih =>
    rw [List.length_cons] at hn
    obtain ⟨n, rfl⟩ : ∃ m, n = m + 3 := ⟨n - 3, by omega⟩
    refine Run.walks_function hσ rfl fun τ e hext hcall => ?_
    have hnil := hcall.evaluates_isNil host "items" rfl rfl
    have hcar := hcall.evaluates_car host "items" rfl rfl
    have hcdr := hcall.evaluates_cdr host "items" rfl rfl
    obtain ⟨serial', hl⟩ := hcall.function anElementOf (by simp [functions]) rfl
    have hrest := ih (hσ.extends hext) serial' (n := n) (by omega)
    refine hcall.walks_offering (n := n + 1) rfl rfl hnil (by omega) (hcar.walks (by omega)) ?_
    exact walks_call rfl hl (hcdr.all_cons evaluatesAll_nil) (by omega) (by omega) hrest

/-- **`an-element-of` enumerates its list.** In a session whose global scope binds what it binds in a
new one, and another name to a list, requests in a row have the elements of the list as they are, one
for each position, and then there are no more values, after two passes for each element and one more.
The scopes of the session are as they were. -/
theorem an_element_of_enumerates {l : String} {xs : List Value} (hs : s.store.Standard)
    (hl : s.store.lookup globalScope l = some (.list xs)) (hdepth : 3 * xs.length + 6 ≤ cfg.depth)
    (hpasses : 2 * xs.length + 1 ≤ cfg.passes) :
    let request := Session.run cfg (.call "an-element-of" [.sym l])
    let s' := Session.after cfg (xs.length + 1) request s
    Session.attempts cfg (xs.length + 1) request s =
        xs.map (fun x => (.ok x, true)) ++ [(.error .noMoreValues, false)] ∧
      s'.passes = 2 * xs.length + 1 ∧
      ∀ i, i < s.store.scopes.size → s'.store.scopes[i]? = s.store.scopes[i]? := by
  obtain ⟨n, hn⟩ : ∃ n, cfg.depth = n + 1 := ⟨cfg.depth - 1, by omega⟩
  obtain ⟨serial, hf⟩ := hs.function anElementOf (by simp [functions])
  have hargs : EvaluatesAll cfg.toHost s.store globalScope 1 [.sym l] [.list xs] :=
    (evaluates_sym hl).all_cons evaluatesAll_nil
  have hwalks := walks_elements cfg.toHost hs serial xs (n := n) (by omega)
  obtain ⟨hattempts, hext, hcount⟩ :=
    attempts_of_offers .noMoreValues rfl hf hargs (by omega) hn hwalks rfl rfl hpasses
  exact ⟨hattempts, hcount nofun, fun i hi => hext.same hi⟩

/-- A new session in which `l` is bound to a list with code, functions and equal values in it. -/
def listed : Session :=
  { store := (Store.initial true).define globalScope "l"
      (.list [.call "amb" [.int 1, .int 2], .prim .car, .prim .car]) }

theorem an_element_of_enumerates_code : listed.store.Standard ∧
    listed.store.lookup globalScope "l" =
      some (.list [.call "amb" [.int 1, .int 2], .prim .car, .prim .car]) ∧
    let request := Session.run { passes := 64 } (.call "an-element-of" [.sym "l"])
    let s' := Session.after { passes := 64 } 4 request listed
    Session.attempts { passes := 64 } 4 request listed =
        [(.ok (.call "amb" [.int 1, .int 2]), true), (.ok (.prim .car), true),
          (.ok (.prim .car), true), (.error .noMoreValues, false)] ∧
      s'.passes = 7 ∧
      ∀ i, i < listed.store.scopes.size → s'.store.scopes[i]? = listed.store.scopes[i]? := by
  have hnone : (Store.initial true).lookup globalScope "l" = none := by
    rw [lookup_initial (by decide +kernel), Store.initial, if_neg Bool.false_ne_true]
    decide +kernel
  have hs : listed.store.Standard ∧ listed.store.lookup globalScope "l" = _ :=
    standard_define_initial hnone _
  generalize listed = s at hs ⊢
  have h := @an_element_of_enumerates { passes := 64 } s _ _ hs.1 hs.2 (by decide) (by decide)
  exact ⟨hs.1, hs.2, h⟩

end Elements

/-! ## The integers of an interval -/

/-- The integers from one to another, in order. -/
def Integer.interval (low high : Int) : List Int :=
  (List.range (high + 1 - low).toNat).map fun i : Nat => low + i

theorem Integer.interval_of_lt {low high : Int} (h : high < low) : interval low high = [] := by
  have hnone : (high + 1 - low).toNat = 0 := by omega
  rw [interval, hnone]
  rfl

theorem Integer.interval_of_le {low high : Int} (h : low ≤ high) :
    interval low high = low :: interval (low + 1) high := by
  have hlength : (high + 1 - low).toNat = (high + 1 - (low + 1)).toNat + 1 := by omega
  rw [interval, interval, hlength, List.range_succ_eq_map, List.map_cons, List.map_map]
  refine List.cons_eq_cons.2 ⟨Int.add_zero low, List.map_congr_left fun i _ => ?_⟩
  rw [Function.comp_apply]
  omega

section Integers

open Integer (least greatest inRange interval)

variable {host : Host} {cfg : Setting} {s : Session} {σ : Store} {low high : Int}

/-- What comes behind the last integer of an interval: to go on from the greatest integer of all, one
would have to add to it. -/
def integersEnding (low high : Int) : DecisionTree Value :=
  if low ≤ high ∧ high = greatest then .failure .overflow (by decide) else .node [] nofun

/-- What `an-integer-between` walks when it is applied to two integers: the tree of their interval. -/
def integers (low high : Int) : DecisionTree Value :=
  offers (.sym "low") (.call "an-integer-between" [.call "+" [.sym "low", .int 1], .sym "high"])
    (integersEnding low high) ((interval low high).map .int)

theorem integers_of_lt (h : high < low) : integers low high = .node [] nofun := by
  have hnot : ¬ (low ≤ high ∧ high = greatest) := by omega
  rw [integers, Integer.interval_of_lt h, integersEnding, if_neg hnot]
  rfl

/-- The greatest integer of all is followed by a fault. -/
theorem integers_greatest : integers greatest greatest =
    .node [.sym "low", .call "an-integer-between" [.call "+" [.sym "low", .int 1], .sym "high"]]
      (fork (.value (.int greatest)) (.failure .overflow (by decide))) := by
  rw [integers, Integer.interval_of_le (Int.le_refl _), Integer.interval_of_lt (by decide),
    integersEnding, if_pos ⟨Int.le_refl _, rfl⟩]
  rfl

/-- Any other integer of an interval is followed by those behind it. -/
theorem integers_of_le (h : low ≤ high) (hne : low ≠ greatest) : integers low high =
    .node [.sym "low", .call "an-integer-between" [.call "+" [.sym "low", .int 1], .sym "high"]]
      (fork (.value (.int low)) (integers (low + 1) high)) := by
  have hiff : low ≤ high ∧ high = greatest ↔ low + 1 ≤ high ∧ high = greatest := by omega
  rw [integers, Integer.interval_of_le h, integers, integersEnding, integersEnding]
  simp only [hiff]
  rfl

theorem apply_add_one (low : Int) :
    Primitive.add.apply [.int low, .int 1] =
      if inRange (low + 1) then .ok (.int (low + 1)) else .error .overflow := by
  change (if inRange (0 + low + 1) then Except.ok (Value.int (0 + low + 1)) else _) = _
  rw [Int.zero_add]

/-- Whether the lower bound of an interval is above the upper one. -/
theorem Store.InCall.evaluates_greater {e : ScopeId} {bs : List (String × Value)} (h : σ.InCall e bs)
    (host : Host) (hbs : bs.lookup ">" = none) (hlow : bs.lookup "low" = some (.int low))
    (hhigh : bs.lookup "high" = some (.int high)) :
    Evaluates host σ e 2 (.call ">" [.sym "low", .sym "high"]) (.bool (decide (high < low))) :=
  h.evaluates_primitive .greater hbs (Nat.le_refl 1)
    ((h.evaluates_argument host "low" hlow).all_cons
      ((h.evaluates_argument host "high" hhigh).all_cons evaluatesAll_nil)) rfl rfl

theorem walks_integers (host : Host) (hσ : σ.Standard) (serial : Nat) {low high : Int}
    (hlow : inRange low = true) (hhigh : inRange high = true) {n : Nat}
    (hn : 3 * (interval low high).length + 5 ≤ n) :
    ((evaluate host n).apply host [.closure serial globalScope (anIntegerBetween.params.map .sym)
      anIntegerBetween.body, .int low, .int high]).Walks σ (integers low high) := by
  obtain ⟨k, hk⟩ : ∃ k, (high + 1 - low).toNat = k := ⟨_, rfl⟩
  induction k generalizing σ serial low n with
  | zero =>
    have hlt : high < low := by omega
    rw [integers_of_lt hlt]
    refine Run.walks_function hσ rfl fun τ e _ hcall => ?_
    have htest := hcall.evaluates_greater host rfl rfl rfl
    rw [decide_eq_true hlt] at htest
    exact hcall.walks_offering_end rfl rfl htest (by omega)
  | succ k ih =>
    have hle : low ≤ high := by omega
    rw [Integer.interval_of_le hle, List.length_cons] at hn
    obtain ⟨n, rfl⟩ : ∃ m, n = m + 3 := ⟨n - 3, by omega⟩
    refine Run.walks_function hσ rfl fun τ e hext hcall => ?_
    have htest := hcall.evaluates_greater host rfl rfl rfl
    rw [decide_eq_false (Int.not_lt.2 hle)] at htest
    have hvalue := hcall.evaluates_argument host "low" rfl
    have hlast := hcall.evaluates_argument host "high" rfl
    have hsum : EvaluatesAll host τ e 1 [.sym "low", .int 1] [.int low, .int 1] :=
      hvalue.all_cons ((evaluates_int 1).all_cons evaluatesAll_nil)
    obtain ⟨serial', hl⟩ := hcall.function anIntegerBetween (by simp [functions]) rfl
    by_cases hne : low = greatest
    · -- there is nothing behind the greatest integer, not even to compare with
      obtain rfl : high = greatest := by
        have hmax := (Integer.inRange_iff.1 hhigh).2
        omega
      subst hne
      rw [integers_greatest]
      refine hcall.walks_offering (n := n + 1) rfl rfl htest (by omega) (hvalue.walks (by omega)) ?_
      refine walks_call_failure rfl hl (by omega) ?_
      obtain ⟨n, rfl⟩ : ∃ m, n = m + 1 := ⟨n - 1, by omega⟩
      refine walks_call rfl (hcall.primitive .add rfl) hsum (Nat.le_refl 1) (by omega) ?_
      exact Run.walks_primitive_error (apply_add_one greatest) (by decide)
    · have hnext : inRange (low + 1) = true := by
        have hmin := Integer.inRange_iff.1 hlow
        have hmax := Integer.inRange_iff.1 hhigh
        exact Integer.inRange_iff.2 ⟨by omega, by omega⟩
      have hadd : Evaluates host τ e 2 (.call "+" [.sym "low", .int 1]) (.int (low + 1)) := by
        refine hcall.evaluates_primitive .add rfl (Nat.le_refl 1) hsum ?_ rfl
        rw [apply_add_one, if_pos hnext]
      have hargs := hadd.all_cons ((hlast.mono (by decide)).all_cons evaluatesAll_nil)
      have hrest := ih (hσ.extends hext) serial' hnext (n := n) (by omega) (by omega)
      rw [integers_of_le hle hne]
      refine hcall.walks_offering (n := n + 1) rfl rfl htest (by omega) (hvalue.walks (by omega)) ?_
      exact walks_call rfl hl hargs (by omega) (by omega) hrest

/-- **`an-integer-between` enumerates its interval**, up to the greatest integer of all. In a session
whose global scope binds what it binds in a new one, requests in a row have the integers of the
interval, and then there are no more values; but if the interval ends with the greatest integer, then
the sum that would follow it overflows. -/
theorem an_integer_between_enumerates {low high : Int} (hs : s.store.Standard)
    (hlow : inRange low = true) (hhigh : inRange high = true)
    (hdepth : 3 * (interval low high).length + 6 ≤ cfg.depth)
    (hpasses : 2 * (interval low high).length + 1 ≤ cfg.passes) :
    Session.attempts cfg ((interval low high).length + 1)
        (Session.run cfg (.call "an-integer-between" [.int low, .int high])) s =
      (interval low high).map (fun i => (.ok (.int i), true)) ++
        [(.error (if low ≤ high ∧ high = greatest then .overflow else .noMoreValues), false)] := by
  obtain ⟨n, hn⟩ : ∃ n, cfg.depth = n + 1 := ⟨cfg.depth - 1, by omega⟩
  obtain ⟨serial, hf⟩ := hs.function anIntegerBetween (by simp [functions])
  have hargs : EvaluatesAll cfg.toHost s.store globalScope 1 [.int low, .int high]
      [.int low, .int high] :=
    (evaluates_int low).all_cons ((evaluates_int high).all_cons evaluatesAll_nil)
  have hwalks := walks_integers cfg.toHost hs serial hlow hhigh (n := n) (by omega)
  have hending : answers (integersEnding low high).leaves =
      ([], if low ≤ high ∧ high = greatest then .overflow else .noMoreValues) := by
    unfold integersEnding
    split <;> rfl
  have hone : (integersEnding low high).passes = 1 := by
    unfold integersEnding
    split <;> rfl
  rw [← List.length_map Value.int] at hpasses ⊢
  have hattempts := (attempts_of_offers _ rfl hf hargs (by omega) hn hwalks hending hone hpasses).1
  rw [List.map_map] at hattempts
  exact hattempts

theorem an_integer_between_enumerates_four : (Session.initial true).store.Standard ∧
    let request := Session.run { passes := 64 } (.call "an-integer-between" [.int 2, .int 5])
    Session.attempts { passes := 64 } 5 request (Session.initial true) =
      [(.ok (.int 2), true), (.ok (.int 3), true), (.ok (.int 4), true), (.ok (.int 5), true),
        (.error .noMoreValues, false)] := by
  have hs := standard_session
  generalize Session.initial true = s at hs ⊢
  have h := @an_integer_between_enumerates { passes := 64 } s 2 5 hs rfl rfl (by decide) (by decide)
  exact ⟨hs, h⟩

/-- Behind the greatest integer the search does not end for want of values. -/
theorem an_integer_between_overflows :
    let request :=
      Session.run { passes := 64 } (.call "an-integer-between" [.int greatest, .int greatest])
    Session.attempts { passes := 64 } 2 request (Session.initial true) =
      [(.ok (.int greatest), true), (.error .overflow, false)] := by
  have hs := standard_session
  generalize Session.initial true = s at hs ⊢
  obtain ⟨serial, hf⟩ := hs.function anIntegerBetween (by simp [functions])
  have hargs : EvaluatesAll Disk.empty s.store globalScope 1 [.int greatest, .int greatest]
      [.int greatest, .int greatest] :=
    (evaluates_int greatest).all_cons ((evaluates_int greatest).all_cons evaluatesAll_nil)
  have hone : (interval greatest greatest).length = 1 := by
    rw [Integer.interval_of_le (Int.le_refl _), Integer.interval_of_lt (by decide)]
    rfl
  have hgreatest : inRange greatest = true := rfl
  have hwalks := walks_integers Disk.empty hs serial hgreatest hgreatest (n := 255)
    (by rw [hone]; decide)
  rw [integers_greatest] at hwalks
  have hoffers : ((evaluate Disk.empty 255).apply Disk.empty _).Walks s.store
      (offers _ _ (.failure .overflow (by decide)) [.int greatest]) := hwalks
  have h := @attempts_of_offers { passes := 64 } s _ _ _ _ _ _ _ _ .overflow rfl hf hargs 255
    (by decide) rfl hoffers rfl rfl (by decide)
  exact h.1

end Integers

end AmbLisp
