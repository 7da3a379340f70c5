import AmbLisp.Proofs.Eval.InStep
import AmbLisp.Proofs.Session.Adequacy

/-!
# Passes choose among the alternatives at hand

At a point that an earlier pass has made, a pass chooses among the candidates of the point, and not
among the alternatives that it has itself at hand. That makes no difference as long as passes leave
the global scope alone and have no closure of their own in the alternatives at hand: then each point
holds just these alternatives, and each value is that of a single fresh pass along the numbers of the
points (`passes_choose_at_hand`). With `eval`, a closure that a pass has made can become an
alternative, and then it makes a difference: a later pass gets the closure of an earlier one, over the
scopes of that one (`leftover_closure`).
-/

namespace AmbLisp

open DecisionTree

/-! ## Recording a pass -/

/-- A trail, and the same one with the alternatives at hand noted at the points passed: what these have
in common, the candidates of the first trail have too. -/
structure Trail.Notes (P : Value → Prop) (t t' : Trail) : Prop where
  depth : t'.passed.length = t.passed.length
  ahead : t'.ahead = t.ahead
  offersAhead : ∀ p ∈ t.ahead, ∀ c ∈ p.candidates, P c
  offers : (∀ p ∈ t'.passed, ∀ c ∈ p.candidates, P c) → ∀ p ∈ t.passed, ∀ c ∈ p.candidates, P c

namespace Trail

variable {P : Value → Prop} {t t' : Trail}

theorem Notes.refl (h : ∀ p ∈ t.ahead, ∀ c ∈ p.candidates, P c) : t.Notes P t := ⟨rfl, rfl, h, id⟩

/-- **One choice**, as ever and with the alternatives at hand noted: the point that is passed is a new
one, with these alternatives, or it lay ahead. -/
theorem Notes.choose (h : t.Notes P t') (cs : List Value) :
    t'.choiceEvent? cs = t.choiceEvent? cs ∧ (t'.record cs).1 = (t.choose cs).1 ∧
      (t.choose cs).2.Notes P (t'.record cs).2 := by
  have hahead := h.offersAhead
  constructor
  · unfold choiceEvent? currentDepth
    rw [h.ahead, h.depth]
  · unfold record Trail.choose
    rw [h.ahead]
    rcases ha : t.ahead with _ | ⟨p, _ | ⟨q, rest⟩⟩ <;> rw [ha] at hahead
    · refine ⟨rfl, congrArg (· + 1) h.depth, rfl, List.forall_mem_nil _, fun hpassed => ?_⟩
      obtain ⟨hnew, hpassed⟩ := List.forall_mem_cons.1 hpassed
      exact List.forall_mem_cons.2 ⟨hnew, h.offers hpassed⟩
    · refine ⟨rfl, congrArg (· + 1) h.depth, rfl, List.forall_mem_nil _, fun hpassed => ?_⟩
      obtain ⟨-, hpassed⟩ := List.forall_mem_cons.1 hpassed
      exact List.forall_mem_cons.2 ⟨hahead p List.mem_cons_self, h.offers hpassed⟩
    · obtain ⟨hp, hrest⟩ := List.forall_mem_cons.1 hahead
      refine ⟨rfl, congrArg (· + 1) h.depth, rfl, hrest, fun hpassed => ?_⟩
      obtain ⟨-, hpassed⟩ := List.forall_mem_cons.1 hpassed
      exact List.forall_mem_cons.2 ⟨hp, h.offers hpassed⟩

end Trail

namespace Session

variable (cfg : Setting) (expr : Value) (s : Session)

/-- No pass for the values of an expression has at hand, at an `amb` that it meets, an alternative with a
closure that was made by one of these passes. -/
def MeetsCovered : Prop :=
  ∀ t s', (searchFor cfg expr).Reaches {} { s with passes := 0 } t s' →
    ∀ p ∈ (passBy cfg expr Trail.record t s').2.trail.passed, ∀ c ∈ p.candidates, s.store.Covers c

/-- The values that are obtained when an expression is run and then tried again, each with the
session behind it. -/
inductive Obtains : Value → Session → Prop
  | run {v : Value} (h : (Session.run cfg expr s).1 = .ok v) : Obtains v (Session.run cfg expr s).2
  | tryAgain {v v' : Value} {s' : Session} (h : Obtains v s')
      (hagain : (Session.tryAgain cfg s').1 = .ok v') : Obtains v' (Session.tryAgain cfg s').2

/-- A single pass in the scopes of a session in which each successive `amb` takes, of the alternatives
at hand, the one with the next number. -/
def fresh (ks : List Int) : Except Fault Value × Trail :=
  let out := (evaluateBy Trail.take cfg.toHost cfg.depth expr Store.globalScope).outcome
    { store := s.store, trail := Trail.ofNumbers ks }
  (out.1, out.2.trail)

variable {cfg expr s}

/-- To record a pass changes nothing but what its points hold. -/
theorem record_in_step {P : Value → Prop} {t : Trail}
    (h : ∀ p ∈ t.ahead, ∀ c ∈ p.candidates, P c) (s' : Session) :
    (passBy cfg expr Trail.record t s').1 = (passBy cfg expr Trail.choose t s').1 ∧
      World.Beside (Trail.Notes P) (passBy cfg expr Trail.choose t s').2
        (passBy cfg expr Trail.record t s').2 := by
  have hrule : ∀ cs, (Run.chooseBy Trail.choose cs).InStep (World.Beside (Trail.Notes P))
      (Run.chooseBy Trail.record cs) :=
    fun cs => Run.inStep_chooseBy fun _ _ hnotes => hnotes.choose cs
  exact inStep_evaluateBy (World.congruence_beside _) hrule cfg.toHost cfg.depth expr
    Store.globalScope (s'.passWorld t) (s'.passWorld t) ⟨rfl, rfl, rfl, .refl h⟩

/-- What the candidates of a trail and the alternatives at hand have in common, the candidates behind a
pass have too. -/
theorem offers_of_record {P : Value → Prop} {t : Trail} {s' : Session} (ht : t.Offers P)
    (hmeets : ∀ p ∈ (passBy cfg expr Trail.record t s').2.trail.passed, ∀ c ∈ p.candidates, P c) :
    (passBy cfg expr Trail.choose t s').2.trail.Offers P := by
  obtain ⟨-, hbeside⟩ := record_in_step (Trail.offers_iff.1 ht).2 s'
  exact Trail.offers_iff.2 ⟨hbeside.trail.offers hmeets, hbeside.trail.offersAhead⟩

/-- **The trails of all passes** have no closures of these passes if the alternatives at hand have none.
-/
theorem offers_of_reaches (hmeets : MeetsCovered cfg expr s) {t : Trail} {s' : Session}
    (h : (searchFor cfg expr).Reaches {} { s with passes := 0 } t s') :
    t.Offers s.store.Covers := by
  induction h with
  | start => exact Trail.offers_new _
  | @next t t₁ t₂ s₁ s₂ s₃ result hreach hp _ hretry ih =>
    have hpass := offers_of_record ih (hmeets t s₁ hreach)
    rw [pass_eq_passBy] at hp
    cases hp
    have hback := hpass.retry
    rwa [(retry_eq cfg expr hretry).1] at hback

theorem MeetsCovered.chooses (hmeets : MeetsCovered cfg expr s) : ChoosesCovered cfg expr s := by
  intro t s' hreach
  have hoffers := offers_of_record (offers_of_reaches hmeets hreach) (hmeets t s' hreach)
  rw [pass_eq_passBy]
  exact (Trail.offers_iff.1 hoffers).1

/-! ## Values -/

/-- A value that is obtained is that of a pass, whose trail is kept. -/
theorem Obtains.exists_pass {v : Value} {s' : Session} (h : Obtains cfg expr s v s') :
    ∃ t₁ s₁ t₂ s₂, (searchFor cfg expr).Reaches {} { s with passes := 0 } t₁ s₁ ∧
      (searchFor cfg expr).pass t₁ s₁ = (.ok v, t₂, s₂) ∧
      s' = (settle expr (.ok v, some t₂, s₂)).2 := by
  -- what a request answers that goes on with a pass of the search
  have hrun : ∀ {t₀ s₀ v}, (searchFor cfg expr).Reaches {} { s with passes := 0 } t₀ s₀ →
      (settle expr ((searchFor cfg expr).run cfg.passes t₀ s₀)).1 = .ok v →
      ∃ t₁ s₁ t₂ s₂, (searchFor cfg expr).Reaches {} { s with passes := 0 } t₁ s₁ ∧
        (searchFor cfg expr).pass t₁ s₁ = (.ok v, t₂, s₂) ∧
        (settle expr ((searchFor cfg expr).run cfg.passes t₀ s₀)).2 =
          (settle expr (.ok v, some t₂, s₂)).2 := by
    intro t₀ s₀ v hreach hsettle
    rcases hreach.run_cases cfg.passes with ⟨t₁, s₁, a, t₂, s₂, hreach₁, hp, heq⟩ | ⟨_, _, heq⟩
    · rw [heq] at hsettle ⊢
      cases hsettle
      exact ⟨t₁, s₁, t₂, s₂, hreach₁, hp, rfl⟩
    · rw [heq] at hsettle
      cases hsettle
  induction h with
  | run h => exact hrun .start h
  | tryAgain _ hagain ih =>
    obtain ⟨t₁, s₁, t₂, s₂, hreach, hp, rfl⟩ := ih
    rw [tryAgain_settle, Search.again] at hagain ⊢
    split at hagain
    · next t₃ s₃ hretry => exact hrun (hreach.next hp (fun _ h => by cases h) hretry) hagain
    · cases hagain

/-- A fresh pass along numbers that lead to a value of the branching evaluation. -/
theorem fresh_of_descends (hs : s.Sound) (hexpr : s.store.Covers expr) {ks : List Int} {v : Value}
    {τ : Store} {t : Trail}
    (hd : (Reference.evaluate cfg.toHost cfg.depth expr Store.globalScope s.store).Descends Trail.take
      (Trail.ofNumbers ks) (.ok (v, τ)) t) :
    fresh cfg expr s ks = (.ok v, t) := by
  let w : World := { store := s.store, trail := Trail.ofNumbers ks }
  have hrel : Reference.Related .id w s.store := by
    have hrenames := Store.renames_shift hs.store (.refl s.store) fun _ _ => rfl
    rw [Renaming.shift_self] at hrenames
    exact ⟨hrenames, hs.store⟩
  have hmirrors := Reference.evaluateBy_mirrors ChoiceRule.extends_take cfg.toHost .id cfg.depth hrel
    hs.global hexpr
  have hagrees := hmirrors _ _ hd (.inl fun _ _ c _ => Value.rename_id c)
  rw [Value.rename_id] at hagrees
  obtain ⟨out, hout⟩ : ∃ out, (evaluateBy Trail.take cfg.toHost cfg.depth expr
    Store.globalScope).outcome w = out := ⟨_, rfl⟩
  have hfresh : fresh cfg expr s ks = (out.1, out.2.trail) :=
    congrArg (fun out => (out.1, out.2.trail)) hout
  replace hagrees : Reference.Agrees .id s.store (Reference.Same .id) out (.ok (v, τ), t) :=
    hout ▸ hagrees
  rw [hfresh]
  rcases out with ⟨fault | u, w'⟩
  · exact hagrees.elim
  · obtain ⟨rfl, -, -, rfl, -⟩ := hagrees
    rw [Value.rename_id]

section

variable (hs : s.Sound) (hexpr : s.store.Covers expr) (hglobal : BindsNothing cfg expr s)
  (hmeets : MeetsCovered cfg expr s)

include hs hexpr hglobal hmeets

/-- Each pass begins where the scopes of the search are still there, on its way through the tree of the
branching evaluation. -/
theorem exploring_of_reaches {t : Trail} {s' : Session}
    (h : (searchFor cfg expr).Reaches {} { s with passes := 0 } t s') :
    let T := Reference.texts cfg.toHost cfg.depth expr s.store
    Exploring cfg expr s t s' ∧ T.Follows t ∧ ∃ ls m, T.Advances t ls m := by
  have hexplores := explores hs hexpr hglobal hmeets.chooses
  have hexploring : Exploring cfg expr s {} { s with passes := 0 } :=
    ⟨.start, .refl _, fun _ _ => rfl⟩
  exact hexplores.reaches (counts_searchFor cfg expr) hexploring ⟨rfl, traces_nil _⟩
    (advances_fresh _ {} rfl) h

/-- A rule that leads down the tree like the one of the evaluator comes to the same. -/
theorem agrees_of_descends {rule : ChoiceRule} (hx : rule.Extends)
    (hrule : ∀ {T : DecisionTree (Value × Store)} {t result t'}, T.Descends Trail.choose t result t' →
      T.Descends rule t result t')
    {t : Trail} {s' : Session}
    (h : (searchFor cfg expr).Reaches {} { s with passes := 0 } t s') :
    let r := Renaming.shift s.store s'.store
    Reference.Agrees r s.store (Reference.Same r) (passBy cfg expr rule t s')
      ((Reference.evaluate cfg.toHost cfg.depth expr Store.globalScope s.store).walk t) := by
  intro r
  obtain ⟨hexploring, hfollows, -⟩ := exploring_of_reaches hs hexpr hglobal hmeets h
  have hchooses := hmeets.chooses
  have htrail := (choose_agrees hs hexpr hchooses hexploring hfollows).trail
  have hpass := hchooses t s' h
  rw [pass_eq_passBy] at hpass
  refine pass_agrees hx hs hexpr hexploring (hrule (Traces.of_bind hfollows.2).descends) (.inl ?_)
  rw [← htrail]
  exact portable_of_covers hpass

/-- **A pass has at hand what its points hold**: to record it changes nothing. -/
theorem record_eq {t : Trail} {s' : Session}
    (h : (searchFor cfg expr).Reaches {} { s with passes := 0 } t s') :
    passBy cfg expr Trail.record t s' = passBy cfg expr Trail.choose t s' := by
  have hchoose := agrees_of_descends hs hexpr hglobal hmeets ChoiceRule.extends_choose id h
  have hrecord :=
    agrees_of_descends hs hexpr hglobal hmeets ChoiceRule.extends_record (·.record) h
  have htrail := hrecord.trail.trans hchoose.trail.symm
  obtain ⟨hresult, hstore, hprinted, hjournal, -⟩ :=
    record_in_step (Trail.offers_iff.1 (offers_of_reaches hmeets h)).2 s'
  rcases hc : passBy cfg expr Trail.choose t s' with ⟨result, w⟩
  rcases hr : passBy cfg expr Trail.record t s' with ⟨result', w'⟩
  rw [hc, hr] at htrail hresult hstore hprinted hjournal
  cases w
  cases w'
  cases htrail
  cases hresult
  cases hstore
  cases hprinted
  cases hjournal
  rfl

/-- **A pass chooses among the alternatives at hand**: to choose among these comes to the same. -/
theorem chooseAtHand_eq {t : Trail} {s' : Session}
    (h : (searchFor cfg expr).Reaches {} { s with passes := 0 } t s') :
    (passBy cfg expr Trail.chooseAtHand t s').1 = (passBy cfg expr Trail.choose t s').1 ∧
      (passBy cfg expr Trail.chooseAtHand t s').2.trail =
        (passBy cfg expr Trail.choose t s').2.trail := by
  have hchoose := agrees_of_descends hs hexpr hglobal hmeets ChoiceRule.extends_choose id h
  have hatHand :=
    agrees_of_descends hs hexpr hglobal hmeets ChoiceRule.extends_chooseAtHand (·.atHand) h
  exact ⟨hchoose.result_eq hatHand, hatHand.trail.trans hchoose.trail.symm⟩

/-- A pass with a value has gone down the tree of the branching evaluation, to the end of its trail. -/
theorem descends_of_pass {t t' : Trail} {s₁ s₂ : Session} {v : Value}
    (h : (searchFor cfg expr).Reaches {} { s with passes := 0 } t s₁)
    (hp : (searchFor cfg expr).pass t s₁ = (.ok v, t', s₂)) :
    ∃ u τ, (Reference.evaluate cfg.toHost cfg.depth expr Store.globalScope s.store).Descends
        Trail.choose t (.ok (u, τ)) t' ∧
      u.print = v.print ∧ t.passed = [] ∧ t'.ahead = [] := by
  obtain ⟨-, hfollows, ls, m, found, ps, ls', m', hwalk, -⟩ :=
    exploring_of_reaches hs hexpr hglobal hmeets h
  have hd := (Traces.of_bind hfollows.2).descends
  have hagrees := agrees_of_descends hs hexpr hglobal hmeets ChoiceRule.extends_choose id h
  rw [pass_eq_passBy] at hp
  rw [Reference.texts, walk_map] at hwalk
  rcases hc : passBy cfg expr Trail.choose t s₁ with ⟨fault | v', w⟩ <;>
    rw [hc] at hp hagrees <;> cases hp
  rcases hw : (Reference.evaluate cfg.toHost cfg.depth expr Store.globalScope s.store).walk t with
    ⟨fault | ⟨u, τ⟩, t₁⟩ <;> rw [hw] at hd hagrees hwalk
  · exact hagrees.elim
  · obtain ⟨rfl, -, -, rfl, -⟩ := hagrees
    refine ⟨u, τ, hd, (Value.print_rename u).symm, hfollows.1, ?_⟩
    exact congrArg (fun found => found.2.ahead) hwalk

/-- **A value is that of a fresh pass** along the numbers of the points that have led to it. -/
theorem fresh_of_obtains {v : Value} {s' : Session} (h : Obtains cfg expr s v s') :
    ∃ p, s'.problem = some p ∧
      let out := fresh cfg expr s (p.trail.points.map (·.cursor))
      out.1.map Value.print = .ok v.print ∧ out.2.points = p.trail.points := by
  obtain ⟨t, s₁, t', s₂, hreach, hp, rfl⟩ := h.exists_pass
  refine ⟨{ expression := expr, trail := t' }, rfl, ?_⟩
  obtain ⟨u, τ, hd, hprint, hpassed, hahead⟩ :=
    descends_of_pass hs hexpr hglobal hmeets hreach hp
  obtain ⟨ps, hps, htake⟩ := hd.take
  have hpoints : t'.points = ps := by
    simp [Trail.points, hps, hpassed, hahead]
  have hnumbers : (Trail.ofNumbers (ps.map (·.cursor))).ahead =
      ps.map (fun p => { cursor := p.cursor }) ++ [] := by
    simp [Trail.ofNumbers]
  rw [hpoints, fresh_of_descends hs hexpr (htake _ [] hnumbers)]
  exact ⟨congrArg Except.ok hprint, by simp [Trail.points, Trail.ofNumbers]⟩

end

/-- **Code that is read and does not use `eval`** has no closure at all in the alternatives at hand. -/
theorem meetsCovered_of_avoidsEval (hdisk : cfg.toHost.AvoidsEval)
    (hstore : s.store.Binds Value.BodiesAvoidEval) (hexpr : expr.avoidsEval = true) :
    MeetsCovered cfg expr s := by
  intro t s' hreach p hp c hc
  have hbefore :=
    (keeps_avoidsEval hdisk hexpr).reaches hreach ⟨hstore, Trail.offers_new _⟩
  have hw : (s'.passWorld t).AvoidsEval := ⟨hbefore.1, hbefore.2⟩
  have hbehind : (passBy cfg expr Trail.record t s').2.AvoidsEval :=
    evaluateBy_avoidsEval (fun h hcs => h.record hcs) hdisk cfg.depth Store.globalScope hw hexpr
  have hcandidates := (Trail.offers_iff.1 hbehind.trail).1 p hp c hc
  exact Value.within_of_closureFree (Value.closureFree_of_avoidsEval hcandidates)

/-- **No leftovers of earlier passes.** Let no pass change the global scope, and let no pass have at
hand, at an `amb` that it meets, an alternative with a closure that one of these passes has made. Then
the points of each pass hold the alternatives that this pass has at hand, so that to note these changes
nothing, and to take the one with the number of the point comes to the same result along the same
trail. And each value that is obtained has the text of that of a single fresh pass in which each
successive `amb` takes the alternative with the number of its point, and this pass meets the same
points. Code that is read and does not use `eval` has no closure in an alternative. -/
theorem passes_choose_at_hand (cfg : Setting) {expr : Value} {s : Session} (hs : s.Sound)
    (hexpr : s.store.Covers expr) :
    (BindsNothing cfg expr s → MeetsCovered cfg expr s →
        (∀ t s', (searchFor cfg expr).Reaches {} { s with passes := 0 } t s' →
          let out := (evaluate cfg.toHost cfg.depth expr Store.globalScope).outcome (s'.passWorld t)
          let atHand := passBy cfg expr Trail.chooseAtHand t s'
          passBy cfg expr Trail.record t s' = out ∧
            (atHand.1, atHand.2.trail) = (out.1, out.2.trail)) ∧
        ∀ v s', Obtains cfg expr s v s' → ∃ p, s'.problem = some p ∧
          let out := fresh cfg expr s (p.trail.points.map (·.cursor))
          out.1.map Value.print = .ok v.print ∧ out.2.points = p.trail.points) ∧
      (cfg.toHost.AvoidsEval → s.store.Binds Value.BodiesAvoidEval → expr.avoidsEval = true →
        MeetsCovered cfg expr s) := by
  refine ⟨fun hglobal hmeets => ⟨fun t s' hreach => ?_, fun v s' hv => ?_⟩,
    meetsCovered_of_avoidsEval⟩
  · have hrecord := record_eq hs hexpr hglobal hmeets hreach
    obtain ⟨hresult, htrail⟩ := chooseAtHand_eq hs hexpr hglobal hmeets hreach
    rw [← evaluateBy_choose]
    exact ⟨hrecord, Prod.ext hresult htrail⟩
  · exact fresh_of_obtains hs hexpr hglobal hmeets hv

theorem passes_choose_at_hand_ambOf :
    let cfg : Setting := { depth := 2, passes := 8 }
    let s := initial false
    s.Sound ∧ s.store.Covers (ambOf [1, 2]) ∧ BindsNothing cfg (ambOf [1, 2]) s ∧
      MeetsCovered cfg (ambOf [1, 2]) s ∧ ∃ s' p, Obtains cfg (ambOf [1, 2]) s (.int 2) s' ∧
        s'.problem = some p ∧ p.trail.points.map (·.cursor) = [1] ∧
        (fresh cfg (ambOf [1, 2]) s [1]).1.map Value.print = .ok "2" := by
  intro cfg s
  have hs : s.Sound := sound_initial false
  have hexpr : s.store.Covers (ambOf [1, 2]) := Value.within_of_closureFree rfl
  have hglobal : BindsNothing cfg (ambOf [1, 2]) s := bindsNothing_ambOf cfg rfl [1, 2] s
  obtain ⟨hpasses, hmeets⟩ := passes_choose_at_hand cfg hs hexpr
  have hmeets : MeetsCovered cfg (ambOf [1, 2]) s :=
    hmeets (Host.avoidsEval_of_empty rfl) (Store.binds_primitives fun _ => trivial) rfl
  have hfirst : Obtains cfg (ambOf [1, 2]) s (.int 1) (run cfg (ambOf [1, 2]) s).2 := .run rfl
  have hsecond := hfirst.tryAgain rfl
  obtain ⟨p, hp, hfresh, -⟩ := (hpasses hglobal hmeets).2 _ _ hsecond
  have hnumbers : (tryAgain cfg (run cfg (ambOf [1, 2]) s).2).2.problem.map
      (fun p => p.trail.points.map (·.cursor)) = some [1] := by decide +kernel
  rw [hp] at hnumbers
  replace hnumbers : p.trail.points.map (·.cursor) = [1] := Option.some.inj hnumbers
  rw [hnumbers] at hfresh
  exact ⟨hs, hexpr, hglobal, hmeets, _, p, hsecond, hp, hnumbers, hfresh⟩

/-! ## A closure of an earlier pass -/

/-- A problem whose expression is a `let` does not change the global scope. -/
theorem bindsNothing_let {n : Nat} (hn : cfg.depth = n + 1) {bindings : List Value} {body : Value}
    (hs : s.Sound) (hexpr : s.store.Covers (.list [.sym "let", .list bindings, body])) :
    BindsNothing cfg (.list [.sym "let", .list bindings, body]) s := by
  intro t s' hreach
  have hsearching := (keeps_searching cfg hs.global hexpr).reaches hreach
    ⟨.refl _, hs.store, Trail.offers_new _⟩
  have hglobal : Store.globalScope < s'.store.scopes.size :=
    Nat.lt_of_lt_of_le hs.global hsearching.grew.1
  rw [pass_eq, hn]
  exact let_keeps cfg.toHost n bindings body Store.globalScope (s'.passWorld t) hglobal

/-- `(let ((g (eval (list (quote amb) (lambda () x)))) (x (amb 1 2))) (g))` -/
def leftover : Value :=
  let closure : Value := .list [.sym "lambda", .list [], .sym "x"]
  let code : Value := .list [.sym "list", .list [.sym "quote", .sym "amb"], closure]
  .list [.sym "let",
    .list [.list [.sym "g", .list [.sym "eval", code]], .list [.sym "x", ambOf [1, 2]]],
    .list [.sym "g"]]

/-- The second pass gets the closure of the first one, over a scope in which `x` is 1. -/
theorem leftover_closure :
    let cfg : Setting := { depth := 8, passes := 8 }
    let s := initial false
    s.Sound ∧ s.store.Covers leftover ∧ BindsNothing cfg leftover s ∧
      ∃ v s', Obtains cfg leftover s v s' ∧ v.print = "1" ∧
        s'.problem.map (fun p => p.trail.points.map (·.cursor)) = some [0, 1] ∧
        ((fresh cfg leftover s [0, 1]).1.map Value.print).toOption = some "2" := by
  intro cfg s
  have hs : s.Sound := sound_initial false
  have hexpr : s.store.Covers leftover := Value.within_of_closureFree rfl
  have hglobal : BindsNothing cfg leftover s := bindsNothing_let rfl hs hexpr
  obtain ⟨u, hfirst, -⟩ : ∃ u, (run cfg leftover s).1 = .ok u ∧ u.print = "1" :=
    exists_ok_of_print (by decide +kernel)
  obtain ⟨v, hsecond, hprint⟩ :
      ∃ v, (tryAgain cfg (run cfg leftover s).2).1 = .ok v ∧ v.print = "1" :=
    exists_ok_of_print (by decide +kernel)
  have hnumbers : (tryAgain cfg (run cfg leftover s).2).2.problem.map
      (fun p => p.trail.points.map (·.cursor)) = some [0, 1] := by decide +kernel
  have hfresh : ((fresh cfg leftover s [0, 1]).1.map Value.print).toOption = some "2" := by
    decide +kernel
  exact ⟨hs, hexpr, hglobal, v, _, .tryAgain (.run hfirst) hsecond, hprint, hnumbers, hfresh⟩

end Session

end AmbLisp
