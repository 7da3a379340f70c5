import AmbLisp.Store

/-!
# The scope of a call

What `Scope.ofParams` makes of parameters and arguments: a scope inside the one that it is given,
which binds names to arguments and to nothing else. It makes one of as many arguments as parameters if
all parameters are symbols (`isOk_ofParams`), and of several parameters with one name the last one
counts (`get?_ofParams`).
-/

namespace AmbLisp

/-- A binding is one of those before, or it has the new value. -/
theorem Bindings.mem_set {name : String} {v : Value} {b : String × Value} :
    ∀ {bs : List (String × Value)}, b ∈ Bindings.set name v bs → b.2 = v ∨ b ∈ bs
  | [], h => .inl (by rw [Bindings.set, List.mem_singleton] at h; rw [h])
  | (n, w) :: bs, h => by
    rw [Bindings.set] at h
    split at h
    · rcases List.mem_cons.1 h with rfl | h
      · exact .inl rfl
      · exact .inr (List.mem_cons_of_mem _ h)
    · rcases List.mem_cons.1 h with rfl | h
      · exact .inr List.mem_cons_self
      · exact (mem_set h).imp id (List.mem_cons_of_mem _)

/-- Binding one name after another adds no values but the given ones. -/
theorem Bindings.mem_foldl_set {b : String × Value} {new : List (String × Value)} :
    ∀ {bs : List (String × Value)},
      b ∈ new.foldl (fun bs b => Bindings.set b.1 b.2 bs) bs → b.2 ∈ new.map (·.2) ∨ b ∈ bs := by
  induction new with
  | nil => exact .inr
  | cons p new ih =>
    intro bs h
    rcases ih h with h | h
    · exact .inl (List.mem_cons_of_mem _ h)
    · rcases Bindings.mem_set h with h | h
      · exact .inl (h ▸ List.mem_cons_self)
      · exact .inr h

/-- Binding one name after another, the last of the new values of a name counts. -/
theorem Bindings.lookup_foldl_set (name : String) (new : List (String × Value)) :
    ∀ bs : List (String × Value),
      (new.foldl (fun bs b => Bindings.set b.1 b.2 bs) bs).lookup name =
        (new.reverse.lookup name).or (bs.lookup name) := by
  induction new with
  | nil =>
    intro bs
    rfl
  | cons b new ih =>
    intro bs
    obtain ⟨k, v⟩ := b
    rw [List.foldl_cons, ih, Bindings.lookup_set, List.reverse_cons, List.lookup_append,
      Option.or_assoc]
    by_cases h : name = k
    · simp [h]
    · simp [h, List.lookup_cons, beq_false_of_ne h]

/-- In a list that is searched from its end, a name has its value at its last position. -/
theorem Bindings.lookup_reverse_eq_some {name : String} {v : Value} {bs : List (String × Value)} :
    bs.reverse.lookup name = some v ↔
      ∃ i : Nat, bs[i]? = some (name, v) ∧
        ∀ (j : Nat) (w : Value), i < j → bs[j]? ≠ some (name, w) := by
  rw [List.lookup_eq_some_iff]
  constructor
  · rintro ⟨later, sooner, hbs, hlater⟩
    obtain rfl : bs = sooner.reverse ++ (name, v) :: later.reverse := by
      rw [← List.reverse_reverse bs, hbs]
      simp
    refine ⟨sooner.reverse.length, by simp, fun j w hj hjw => ?_⟩
    obtain ⟨k, rfl⟩ := Nat.exists_eq_add_of_lt hj
    rw [Nat.add_assoc, List.getElem?_append_right (Nat.le_add_right _ _), Nat.add_sub_cancel_left,
      List.getElem?_cons_succ] at hjw
    have hmem : (name, w) ∈ later := List.mem_reverse.1 (List.mem_of_getElem? hjw)
    simpa using hlater _ hmem
  · rintro ⟨i, hi, hlast⟩
    obtain ⟨hlt, hget⟩ := List.getElem?_eq_some_iff.1 hi
    have hsplit : bs.take i ++ (name, v) :: bs.drop (i + 1) = bs := by
      rw [← hget, List.getElem_cons_drop, List.take_append_drop]
    refine ⟨(bs.drop (i + 1)).reverse, (bs.take i).reverse, ?_, ?_⟩
    · simpa using (congrArg List.reverse hsplit).symm
    · intro p hp
      obtain ⟨k, hk⟩ := List.getElem?_of_mem (List.mem_reverse.1 hp)
      rw [List.getElem?_drop] at hk
      have hne : name ≠ p.1 := by
        rintro rfl
        exact hlast (i + 1 + k) p.2 (by omega) hk
      exact bne_iff_ne.2 hne

/-- Values are the symbols of these names. -/
theorem Value.mapM_symbol?_eq_some {vs : List Value} {names : List String} :
    vs.mapM symbol? = some names ↔ vs = names.map sym := by
  induction vs generalizing names with
  | nil => cases names <;> simp
  | cons v vs ih =>
    rw [List.mapM_cons]
    constructor
    · intro h
      obtain ⟨name, hname, h⟩ := Option.bind_eq_some_iff.1 h
      obtain ⟨rest, hrest, h⟩ := Option.bind_eq_some_iff.1 h
      obtain rfl : name :: rest = names := Option.some.inj h
      cases v with
      | sym n =>
        obtain rfl : n = name := Option.some.inj hname
        rw [List.map_cons, ← ih.1 hrest]
      | _ => cases hname
    · intro h
      cases names with
      | nil => cases h
      | cons name rest =>
        rw [List.map_cons, List.cons.injEq] at h
        rw [h.1, ih.2 h.2]
        rfl

theorem Value.exists_eq_map_sym {vs : List Value} :
    (∃ names : List String, vs = names.map sym) ↔ ∀ v ∈ vs, ∃ name, v = sym name := by
  induction vs with
  | nil => exact ⟨fun _ => nofun, fun _ => ⟨[], rfl⟩⟩
  | cons v vs ih =>
    rw [List.forall_mem_cons, ← ih]
    constructor
    · rintro ⟨names, h⟩
      cases names with
      | nil => cases h
      | cons name names =>
        rw [List.map_cons, List.cons.injEq] at h
        exact ⟨⟨name, h.1⟩, names, h.2⟩
    · rintro ⟨⟨name, rfl⟩, names, rfl⟩
      exact ⟨name :: names, rfl⟩

namespace Scope

variable {outer : Option ScopeId} {params args : List Value} {call : Scope}

/-- What `ofParams` makes, and of what. -/
theorem ofParams_eq_ok :
    ofParams outer params args = .ok call ↔
      params.length = args.length ∧ ∃ names : List String, params = names.map .sym ∧
        call = ⟨(names.zip args).foldl (fun bs b => Bindings.set b.1 b.2 bs) [], outer⟩ := by
  unfold ofParams
  by_cases hlen : params.length = args.length
  · rw [if_neg (not_not_intro hlen)]
    cases hnames : params.mapM Value.symbol? with
    | none =>
      refine ⟨nofun, fun ⟨_, names, hparams, _⟩ => ?_⟩
      rw [Value.mapM_symbol?_eq_some.2 hparams] at hnames
      cases hnames
    | some names =>
      constructor
      · intro h
        exact ⟨hlen, names, Value.mapM_symbol?_eq_some.1 hnames, (Except.ok.inj h).symm⟩
      · rintro ⟨-, names', hparams, rfl⟩
        obtain rfl : names = names' :=
          Option.some.inj (hnames.symm.trans (Value.mapM_symbol?_eq_some.2 hparams))
        rfl
  · rw [if_pos hlen]
    exact ⟨nofun, fun h => absurd h.1 hlen⟩

theorem outer_ofParams (h : ofParams outer params args = .ok call) : call.outer = outer := by
  obtain ⟨-, names, -, rfl⟩ := ofParams_eq_ok.1 h
  rfl

theorem mem_ofParams (h : ofParams outer params args = .ok call) :
    ∀ b ∈ call.bindings, b.2 ∈ args := by
  obtain ⟨-, names, -, rfl⟩ := ofParams_eq_ok.1 h
  intro b hb
  rcases Bindings.mem_foldl_set hb with hb | hb
  · obtain ⟨p, hp, hb⟩ := List.mem_map.1 hb
    exact hb ▸ (List.of_mem_zip hp).2
  · cases hb

/-- **There is a scope of a call** if there are as many arguments as parameters and all parameters
are symbols. -/
theorem isOk_ofParams :
    (ofParams outer params args).isOk ↔
      params.length = args.length ∧ ∀ p ∈ params, ∃ name, p = .sym name := by
  constructor
  · intro h
    cases hcall : ofParams outer params args with
    | error fault =>
      rw [hcall] at h
      cases h
    | ok call =>
      obtain ⟨hlen, names, hparams, -⟩ := ofParams_eq_ok.1 hcall
      exact ⟨hlen, Value.exists_eq_map_sym.1 ⟨names, hparams⟩⟩
  · rintro ⟨hlen, hsym⟩
    obtain ⟨names, hparams⟩ := Value.exists_eq_map_sym.2 hsym
    rw [ofParams_eq_ok.2 ⟨hlen, names, hparams, rfl⟩]
    rfl

/-- **The scope of a call** binds each name to the argument at its last position among the
parameters. -/
theorem get?_ofParams (h : ofParams outer params args = .ok call) {name : String} {v : Value} :
    call.get? name = some v ↔
      ∃ i : Nat, params[i]? = some (.sym name) ∧ args[i]? = some v ∧
        ∀ j : Nat, i < j → params[j]? ≠ some (.sym name) := by
  obtain ⟨hlen, names, rfl, rfl⟩ := ofParams_eq_ok.1 h
  rw [get?, Bindings.lookup_foldl_set, List.lookup_nil, Option.or_none,
    Bindings.lookup_reverse_eq_some]
  rw [List.length_map] at hlen
  simp only [List.getElem?_zip_eq_some, List.getElem?_map, Option.map_eq_some_iff,
    Value.sym.injEq, exists_eq_right, and_assoc, ne_eq]
  refine exists_congr fun i => and_congr_right fun _ => and_congr_right fun _ => ?_
  refine forall_congr' fun j => ⟨fun h hij hj => ?_, fun h w hij hj => h hij hj.1⟩
  -- where there is a name there is an argument
  have hlt : j < args.length := hlen ▸ (List.getElem?_eq_some_iff.1 hj).1
  exact h args[j] hij ⟨hj, List.getElem?_eq_getElem hlt⟩

end Scope

end AmbLisp
