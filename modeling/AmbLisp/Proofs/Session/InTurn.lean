import AmbLisp.Proofs.Eval.Choosing
import AmbLisp.Proofs.Eval.InStep
import AmbLisp.Proofs.Loader.Splicing
import AmbLisp.Proofs.Session.Solving

/-!
# Forms together and in turn

Forms may be run as one problem, their sequence, or each as a problem of its own. Where their evaluation
meets no `amb` this makes no difference (`forms_in_turn`): an evaluation that chooses nothing neither
reads nor changes the trail, so the forms come one after the other to the same results in the same
scopes, whether along one trail or each along a new one. Each problem is then over with its only pass.
-/

namespace AmbLisp

namespace Session

/-- Runs forms as problems in turn, up to the first that fails; the value is that of the last one, or
`v` if there is none. -/
def runInTurn (cfg : Setting) (v : Value) : List Value → Request Value
  | [] => return v
  | form :: forms => do
    let v ← run cfg form
    runInTurn cfg v forms

/-- The first pass of the problem of an expression. -/
def firstPass (cfg : Setting) (expr : Value) (s : Session) : Except Fault Value × World :=
  (evaluate cfg.toHost cfg.depth expr Store.globalScope).outcome
    (({ s with passes := 0 } : Session).passWorld {})

/-- The evaluation of an expression meets no `amb`, and it does not reach the bound on nesting. -/
structure Straight (cfg : Setting) (expr : Value) (s : Session) : Prop where
  unmet : (firstPass cfg expr s).2.trail.currentDepth = 0
  shallow : (firstPass cfg expr s).1 ≠ .error .tooDeep

/-- Behind a problem that took one pass, and that has no other value if it has one. -/
structure Single (cfg : Setting) (out : Except Fault Value × Session) : Prop where
  passes : out.2.passes = 1
  last : ∀ v, out.1 = .ok v → ((tryAgain cfg).outcome out.2).1 = .error .noMoreValues

/-- A request came to the same result as an evaluation, with the same scopes and the same output. -/
structure ComesTo (behind : Except Fault Value × Session) (out : Except Fault Value × World) : Prop where
  result : behind.1 = out.1
  store : behind.2.store = out.2.store
  printed : behind.2.printed = out.2.printed

variable {cfg : Setting} {expr : Value} {s : Session}

/-! ## One problem -/

theorem Straight.trail (h : Straight cfg expr s) :
    (firstPass cfg expr s).2.trail = {} ∧ (firstPass cfg expr s).1 ≠ .error .noChoice := by
  have hchooses := evaluate_chooses cfg.toHost cfg.depth expr Store.globalScope
    (({ s with passes := 0 } : Session).passWorld {})
  obtain ⟨htrail, hlacks⟩ := hchooses.eq_of_currentDepth (Nat.le_of_eq h.unmet)
  refine ⟨htrail, fun hfault => ?_⟩
  change lacksChoice (firstPass cfg expr s).1 = false at hlacks
  rw [hfault] at hlacks
  cases hlacks

/-- Where nothing was chosen there is no other value. -/
theorem tryAgain_over (cfg : Setting) (expr v : Value) (s : Session) :
    ((tryAgain cfg).outcome (settle expr (.ok v, some {}, s)).2).1 = .error .noMoreValues := by
  have hagain : tryAgain cfg (settle expr (.ok v, some {}, s)).2 =
    settle expr ((searchFor cfg expr).again cfg.passes {} s) := tryAgain_settle
  exact congrArg Prod.fst hagain

/-- A problem whose evaluation meets no `amb` is over with its first pass. -/
theorem Straight.run (h : Straight cfg expr s) (hp : 0 < cfg.passes) :
    ComesTo ((run cfg expr).outcome s) (firstPass cfg expr s) ∧
      Single cfg ((run cfg expr).outcome s) := by
  obtain ⟨n, hn⟩ := Nat.exists_eq_add_one.2 hp
  have hrun : (Session.run cfg expr).outcome s =
      settle expr ((searchFor cfg expr).run (n + 1) {} { s with passes := 0 }) := by
    rw [← hn]
    rfl
  have hpass : (searchFor cfg expr).pass {} { s with passes := 0 } =
      ((firstPass cfg expr s).1, (firstPass cfg expr s).2.trail,
        ({ s with passes := 0 } : Session).behind (firstPass cfg expr s).2) := rfl
  obtain ⟨htrail, hchoice⟩ := h.trail
  rw [htrail] at hpass
  cases hresult : (firstPass cfg expr s).1 with
  | error fault =>
    rw [hresult] at hpass hchoice
    rw [hrun, Search.run_fault hpass fun hfault => hchoice (congrArg _ hfault)]
    exact ⟨⟨hresult.symm, rfl, rfl⟩, rfl, nofun⟩
  | ok v =>
    rw [hresult] at hpass
    rw [hrun, Search.run_value hpass]
    exact ⟨⟨hresult.symm, rfl, rfl⟩, rfl, fun _ _ => tryAgain_over cfg expr v _⟩

/-! ## Problems in turn -/

section Sequence

variable {n : Nat} (hn : n ≤ cfg.depth) (hp : 0 < cfg.passes)

include hn hp

/-- A form of a sequence, as a problem of its own. The bound on nesting may be lower in the sequence. -/
theorem run_in_sequence {form : Value} {w : World} {out : Except Fault Value × World}
    (hform : (evaluate cfg.toHost n form Store.globalScope).outcome w = out)
    (hw : World.UpToJournal w (s.passWorld {})) (hunmet : out.2.trail.currentDepth = 0)
    (hshallow : out.1 ≠ .error .tooDeep) :
    ComesTo ((run cfg form).outcome s) out ∧ Single cfg ((run cfg form).outcome s) ∧
      out.2.trail = {} := by
  subst hform
  have hstart : World.UpToJournal w (({ s with passes := 0 } : Session).passWorld {}) :=
    ⟨hw.store, hw.trail, hw.printed⟩
  obtain ⟨hresult, hbehind⟩ := evaluate_upToJournal cfg.toHost hn form Store.globalScope w _ hstart
    fun fault hfault hdeep => hshallow (hdeep ▸ hfault)
  have hstraight : Straight cfg form s := ⟨hbehind.trail ▸ hunmet, hresult ▸ hshallow⟩
  obtain ⟨hrun, hsingle⟩ := hstraight.run hp
  exact ⟨⟨hrun.result.trans hresult, hrun.store.trans hbehind.store,
    hrun.printed.trans hbehind.printed⟩, hsingle, hbehind.trail.symm.trans hstraight.trail.1⟩

/-- **Forms in turn come to what their sequence comes to**, from the same scopes. -/
theorem runInTurn_sequence (forms : List Value) (v : Value) (w : World) (s : Session)
    (hw : World.UpToJournal w (s.passWorld {})) :
    let out := ((evaluate cfg.toHost n).sequence Store.globalScope v forms).outcome w
    out.2.trail.currentDepth = 0 → out.1 ≠ .error .tooDeep →
      ComesTo ((runInTurn cfg v forms).outcome s) out ∧
        (forms ≠ [] → Single cfg ((runInTurn cfg v forms).outcome s)) := by
  induction forms generalizing v w s with
  | nil => exact fun _ _ => ⟨⟨rfl, hw.store, hw.printed⟩, fun h => absurd rfl h⟩
  | cons form forms ih =>
    rw [Evaluator.sequence, runInTurn, ExceptT.outcome_bind, ExceptT.outcome_bind]
    rcases hform : (evaluate cfg.toHost n form Store.globalScope).outcome w with ⟨fault | a, w₁⟩
    · intro _ hunmet hshallow
      obtain ⟨hrun, hsingle, -⟩ := run_in_sequence hn hp hform hw hunmet hshallow
      rcases hbehind : (run cfg form).outcome s with ⟨result, s₁⟩
      rw [hbehind] at hrun hsingle
      obtain rfl : result = .error fault := hrun.result
      exact ⟨hrun, fun _ => hsingle⟩
    · intro out hunmet hshallow
      -- the forms behind the first one meet no fewer choices
      have hrest := (sequence_chooses cfg.toHost n forms a Store.globalScope w₁).le_currentDepth
      have hfirst : w₁.trail.currentDepth = 0 := Nat.le_zero.1 (hunmet ▸ hrest)
      have hok : (.ok a : Except Fault Value) ≠ .error .tooDeep := by simp
      obtain ⟨hrun, hsingle, htrail⟩ := run_in_sequence hn hp hform hw hfirst hok
      rcases hbehind : (run cfg form).outcome s with ⟨result, s₁⟩
      rw [hbehind] at hrun hsingle
      obtain rfl : result = .ok a := hrun.result
      have hnext : World.UpToJournal w₁ (s₁.passWorld {}) :=
        ⟨hrun.store, htrail.symm, hrun.printed⟩
      obtain ⟨hturn, hlast⟩ := ih a w₁ s₁ hnext hunmet hshallow
      refine ⟨hturn, fun _ => ?_⟩
      cases forms with
      | nil => exact hsingle
      | cons => exact hlast (List.cons_ne_nil _ _)

end Sequence

/-- The first forms of a sequence meet no more choices than all, and where they fail all fail. -/
theorem sequence_prefix (host : Host) (n : Nat) (forms rest : List Value) (v : Value) (e : ScopeId)
    (w : World) :
    (((evaluate host n).sequence e v forms).outcome w).2.trail.currentDepth ≤
        (((evaluate host n).sequence e v (forms ++ rest)).outcome w).2.trail.currentDepth ∧
      ∀ fault, (((evaluate host n).sequence e v forms).outcome w).1 = .error fault →
        (((evaluate host n).sequence e v (forms ++ rest)).outcome w).1 = .error fault := by
  rw [Evaluator.sequence_append, ExceptT.outcome_bind]
  rcases ((evaluate host n).sequence e v forms).outcome w with ⟨fault | a, w'⟩
  · exact ⟨Nat.le_refl _, fun _ => id⟩
  · exact ⟨(sequence_chooses host n rest a e w').le_currentDepth, nofun⟩

/-! ## Source texts and files -/

theorem outcome_runSource {source : String} {forms : List Value}
    (hnesting : Value.nestingAll forms ≤ cfg.readable)
    (hforms : Reader.parseProgram source = .ok forms) (hlen : 2 ≤ forms.length) (s : Session) :
    (runSource cfg source).outcome s = (run cfg (.sequence forms)).outcome s := by
  rw [runSource, ExceptT.outcome_bind, outcome_readProgram,
    Loader.programForms_eq_ok.2 ⟨hforms, hnesting⟩]
  match forms, hlen with
  | _ :: _ :: _, _ => rfl

theorem outcome_runFile {path : String} {forms : List Value}
    (hforms : Loader.fileForms cfg.toHost path = .ok forms) (s : Session) :
    (fileProgram cfg path >>= run cfg).outcome s = (run cfg (.sequence forms)).outcome s := by
  rw [ExceptT.outcome_bind, outcome_fileProgram, hforms]

end Session

open Session

/-- **Forms run together or one by one.** Where the evaluation of two or more forms meets no `amb`,
below the bound on nesting, it makes no difference whether a text or a file with these forms is run, the
sequence of the forms, or each form as a problem in turn, up to the first that fails: the last value or
the fault is the same, all scopes bind the same, and the same is printed. Together they are one problem
of one pass, in turn each is one, and behind a value none of these problems has another one. -/
theorem forms_in_turn {cfg : Setting} {forms : List Value} {s : Session} (hp : 0 < cfg.passes)
    (hlen : 2 ≤ forms.length) (h : Straight cfg (.sequence forms) s) :
    let together := (run cfg (.sequence forms)).outcome s
    let inTurn := (runInTurn cfg .nil forms).outcome s
    (Value.nestingAll forms ≤ cfg.readable → ∀ source, Reader.parseProgram source = .ok forms →
      (runSource cfg source).outcome s = together) ∧
    (∀ path, Loader.fileForms cfg.toHost path = .ok forms →
      (fileProgram cfg path >>= run cfg).outcome s = together) ∧
    inTurn.1 = together.1 ∧ inTurn.2.store = together.2.store ∧
    inTurn.2.printed = together.2.printed ∧
    Single cfg together ∧ ∀ k, 1 ≤ k → Single cfg ((runInTurn cfg .nil (forms.take k)).outcome s) := by
  intro together inTurn
  obtain ⟨n, hn⟩ : ∃ n, cfg.depth = n + 1 := by
    refine Nat.exists_eq_add_one.2 (Nat.pos_of_ne_zero fun hzero => h.shallow ?_)
    rw [firstPass, hzero]
    rfl
  have hle : n ≤ cfg.depth := hn ▸ Nat.le_succ n
  let w : World := ({ s with passes := 0 } : Session).passWorld {}
  have hw : World.UpToJournal w (s.passWorld {}) := ⟨rfl, rfl, rfl⟩
  have hpass : firstPass cfg (.sequence forms) s =
      ((evaluate cfg.toHost n).sequence Store.globalScope .nil forms).outcome w := by
    rw [firstPass, hn]
    rfl
  have hunmet := h.unmet
  have hshallow := h.shallow
  obtain ⟨htogether, hsingle⟩ := h.run hp
  rw [hpass] at htogether hunmet hshallow
  obtain ⟨hturn, -⟩ := runInTurn_sequence hle hp forms .nil w s hw hunmet hshallow
  refine ⟨fun hnesting source hforms => outcome_runSource hnesting hforms hlen s,
    fun path hforms => outcome_runFile hforms s, hturn.result.trans htogether.result.symm,
    hturn.store.trans htogether.store.symm, hturn.printed.trans htogether.printed.symm, hsingle,
    fun k hk => ?_⟩
  obtain ⟨hdepth, hfault⟩ := sequence_prefix cfg.toHost n (forms.take k) (forms.drop k) .nil
    Store.globalScope w
  rw [List.take_append_drop] at hdepth hfault
  obtain ⟨-, hlast⟩ := runInTurn_sequence hle hp (forms.take k) .nil w s hw
    (Nat.le_zero.1 (hunmet ▸ hdepth)) fun hdeep => hshallow (hfault _ hdeep)
  refine hlast fun hnil => ?_
  have htake := congrArg List.length hnil
  rw [List.length_take, List.length_nil] at htake
  omega

/-- A function that sees a later definition, and a form that fails before the last one. -/
theorem forms_in_turn_fault :
    let forms : List Value :=
      [.list [.sym "define", .sym "f", .list [.sym "lambda", .list [], .sym "y"]],
        .list [.sym "define", .sym "y", .int 2], .list [.sym "println", .list [.sym "f"]],
        .list [.sym "car", .sym "y"], .list [.sym "println", .sym "f"]]
    let cfg : Setting := { depth := 8, passes := 1 }
    let s : Session := { store := Store.primitives }
    let together := (run cfg (.sequence forms)).outcome s
    let inTurn := (runInTurn cfg .nil forms).outcome s
    together.1.isOk = false ∧ together.2.printed = ["2\n"] ∧
      inTurn.1 = together.1 ∧ inTurn.2.store = together.2.store ∧
      inTurn.2.printed = together.2.printed ∧ Single cfg together ∧ Single cfg inTurn := by
  intro forms cfg s
  obtain ⟨fault, hfault, hkind⟩ : ∃ fault, (firstPass cfg (.sequence forms) s).1 = .error fault ∧
      fault.kind = .wrongType := exists_error_of_kind (by decide +kernel)
  have hstraight : Straight cfg (.sequence forms) s := by
    refine ⟨by decide +kernel, fun hdeep => ?_⟩
    rw [hfault] at hdeep
    cases hdeep
    cases hkind
  obtain ⟨-, -, hvalue, hstore, hprinted, hsingle, heach⟩ :=
    forms_in_turn (by decide) (by decide) hstraight
  have hlast := heach 5 (by decide)
  rw [show forms.take 5 = forms from rfl] at hlast
  exact ⟨by decide +kernel, by decide +kernel, hvalue, hstore, hprinted, hsingle, hlast⟩

end AmbLisp
