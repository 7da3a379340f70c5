import AmbLisp.Proofs.Eval.Alike
import AmbLisp.Proofs.Search.Abreast
import AmbLisp.Proofs.Session.Atoms

/-!
# What is answered

`Session.responses` is all that can be seen of a session that is asked for values, time and again: each
value in print or the fault, and after each request the output, the events, the number of passes, and
the choice points with their numbers. Two sessions that bind the words of a vocabulary alike answer
alike when they are asked in these words (`Session.Alike.responses`), as long as no file is read.
-/

namespace AmbLisp

/-- A request for a value: for the first one of an expression, or for the next one. -/
inductive Ask where
  | run (code : Value)
  | again

namespace Ask

def request (cfg : Setting) : Ask → Request Value
  | run code => Session.run cfg code
  | again => Session.tryAgain cfg

/-- The code that is handed in. -/
def code? : Ask → Option Value
  | run code => some code
  | again => none

/-- The same request, for code with its closures renamed. -/
def rename (r : Renaming) : Ask → Ask
  | run code => run (code.rename r)
  | again => again

end Ask

/-- What can be seen of a request, and of the session behind it. -/
structure Response where
  /-- The value in print. -/
  result : Except Fault String
  output : String
  events : List Event
  passes : Nat
  /-- Of each choice point of the current problem, the number of the candidate that is chosen, and the
  candidates in print. -/
  points : Option (List (Int × List String))

namespace Session

/-- The answer to a request that has left this session behind. -/
def response (s : Session) (result : Except Fault Value) : Response where
  result := result.map Value.print
  output := s.output
  events := s.events
  passes := s.passes
  points := s.problem.map fun p => p.trail.points.map fun q => (q.cursor, q.candidates.map Value.print)

/-- The answers to requests in a row. -/
def responses (cfg : Setting) : List Ask → Session → List Response
  | [], _ => []
  | ask :: asks, s =>
    let (result, s) := ask.request cfg s
    s.response result :: responses cfg asks s

theorem responses_cons (cfg : Setting) (ask : Ask) (asks : List Ask) (s : Session) :
    responses cfg (ask :: asks) s =
      (ask.request cfg s).2.response (ask.request cfg s).1 ::
        responses cfg asks (ask.request cfg s).2 := rfl

/-! ## Sessions that are alike -/

variable {words : String → Prop} {m : Nat} {cfg : Setting} {s s' : Session}

/-- The world of a session, along a trail. -/
def world (t : Trail) (s : Session) : World :=
  { store := s.store, trail := t, printed := s.printed, journal := s.journal }

/-- Two sessions, each along a trail, that have taken the same number of passes and whose worlds are
alike. -/
structure Pairs (words : String → Prop) (m : Nat) (t : Trail) (s : Session) (t' : Trail)
    (s' : Session) : Prop where
  world : (s.world t).Alike words m (s'.world t')
  passes : s'.passes = s.passes

/-- Two sessions that bind the words of a vocabulary alike, in the second of which `m` more closures
have been made. What they show is the same, and their current problem, which is spelled in these
words. -/
structure Alike (words : String → Prop) (m : Nat) (s s' : Session) : Prop where
  pairs : Pairs words m {} s {} s'
  problem : s'.problem =
    s.problem.map fun p => ⟨p.expression.rename (.later m), p.trail.rename (.later m)⟩
  spelled : ∀ p, s.problem = some p →
    p.expression.SpelledIn words ∧ p.trail.Offers (·.SpelledIn words)

/-- New sessions are alike if their stores are. -/
theorem alike_new {σ τ : Store} (h : σ.Alike words m τ) (hσ : σ.Binds (·.SpelledIn words)) :
    ({ store := σ } : Session).Alike words m { store := τ } where
  pairs := ⟨⟨h, rfl, rfl, rfl, hσ, Trail.offers_new _⟩, rfl⟩
  problem := rfl
  spelled := nofun

variable {expr : Value}

/-- The searches for the values of an expression go abreast, as long as the first one reads no file. -/
theorem abreast_searchFor (hdo : words Keyword.sequence.name) (hexpr : expr.SpelledIn words) :
    (searchFor cfg expr).Abreast (searchFor cfg (expr.rename (.later m))) (Pairs words m)
      (Value.Later words m) fun s => Unread words s.journal where
  pass {t s t' s'} h hunread := by
    have hbegin : (s.passWorld t).Alike words m (s'.passWorld t') := by
      obtain rfl : t' = t.rename (.later m) := h.world.trail
      have hnote := h.world.note (.pass (s.passes + 1) t.totalDepth)
      rw [passWorld, passWorld, h.passes, Trail.totalDepth_rename]
      exact hnote
    obtain ⟨hresult, hbehind⟩ :=
      evaluate_alike hdo cfg.toHost cfg.depth expr Store.globalScope hexpr _ _ hbegin hunread
    exact ⟨hresult, hbehind, congrArg (· + 1) h.passes⟩
  retry {t s t' s'} h := by
    obtain rfl : t' = t.rename (.later m) := h.world.trail
    have hback := h.world.along h.world.spelled.trail.retry
    unfold Search.retry
    rw [Trail.retry_rename, Trail.retryEvent?_rename]
    refine ⟨rfl, ?_⟩
    cases t.retryEvent? with
    | none => exact ⟨hback, h.passes⟩
    | some event => exact ⟨hback.note event, h.passes⟩
  note event h := ⟨h.world.note event, h.passes⟩
  count h := h.passes
  fine_of_pass {t s} hunread := by
    have hnoted : World.Noted (s.passWorld t) _ :=
      Run.grows_evaluate cfg.toHost cfg.depth expr Store.globalScope (s.passWorld t)
    exact hunread.of_suffix ((List.suffix_cons _ _).trans hnoted)
  fine_of_note hunread := hunread.of_suffix (List.suffix_cons _ _)

theorem alike_settle (hexpr : expr.SpelledIn words)
    {out out' : Except Fault Value × Option Trail × Session}
    (h : Search.EndAbreast (Pairs words m) (Value.Later words m) out out') :
    Except.Related (Value.Later words m) (settle expr out).1
        (settle (expr.rename (.later m)) out').1 ∧
      Alike words m (settle expr out).2 (settle (expr.rename (.later m)) out').2 := by
  cases h with
  | @value v v' t s t' s' hv hpairs =>
    obtain rfl : t' = t.rename (.later m) := hpairs.world.trail
    refine ⟨.ok hv, ⟨hpairs.world.along (Trail.offers_new _), hpairs.passes⟩, rfl, ?_⟩
    rintro _ ⟨⟩
    exact ⟨hexpr, hpairs.world.spelled.trail⟩
  | fault fault hpairs =>
    exact ⟨.error fault, ⟨hpairs.world.along (Trail.offers_new _), hpairs.passes⟩, rfl, nofun⟩

namespace Alike

variable (h : s.Alike words m s')

include h

/-- A request to both sessions keeps them alike, and has the same value or fault. -/
theorem request (hdo : words Keyword.sequence.name) {ask : Ask}
    (hask : ∀ code ∈ ask.code?, code.SpelledIn words)
    (hunread : Unread words (ask.request cfg s).2.journal) :
    Except.Related (Value.Later words m) (ask.request cfg s).1
        ((ask.rename (.later m)).request cfg s').1 ∧
      (ask.request cfg s).2.Alike words m ((ask.rename (.later m)).request cfg s').2 := by
  cases ask with
  | run code =>
    have hcode := hask code rfl
    have hpairs : Pairs words m {} { s with passes := 0 } {} { s' with passes := 0 } :=
      ⟨h.pairs.world, rfl⟩
    exact alike_settle hcode ((abreast_searchFor hdo hcode).run cfg.passes hpairs hunread)
  | again =>
    simp only [Ask.request, Ask.rename, tryAgain, h.problem] at hunread ⊢
    cases hp : s.problem with
    | none => exact ⟨.error _, h⟩
    | some p =>
      obtain ⟨hexpr, htrail⟩ := h.spelled p hp
      have hpairs : Pairs words m p.trail s (p.trail.rename (.later m)) s' :=
        ⟨h.pairs.world.along htrail, h.pairs.passes⟩
      rw [hp] at hunread
      exact alike_settle hexpr ((abreast_searchFor hdo hexpr).again cfg.passes hpairs hunread)

/-- Sessions that are alike show the same. -/
theorem response_eq {result result' : Except Fault Value}
    (hresult : Except.Related (Value.Later words m) result result') :
    s'.response result' = s.response result := by
  have hprint : result'.map Value.print = result.map Value.print := by
    cases hresult with
    | error fault => rfl
    | ok hv => exact congrArg Except.ok (hv.1 ▸ Value.print_rename _)
  have hpoint : ∀ q : ChoicePoint,
      ((q.rename (.later m)).cursor, (q.rename (.later m)).candidates.map Value.print) =
        (q.cursor, q.candidates.map Value.print) := by
    intro q
    simp only [ChoicePoint.rename, List.map_map, Prod.mk.injEq, true_and]
    exact List.map_congr_left fun v _ => Value.print_rename v
  have hprinted : s'.printed = s.printed := h.pairs.world.printed
  have hjournal : s'.journal = s.journal := h.pairs.world.journal
  simp only [response, hprint, output, events, hprinted, hjournal, h.pairs.passes, h.problem,
    Option.map_map]
  congr 2
  funext p
  simp only [Function.comp_apply, Trail.points_rename, List.map_map]
  exact List.map_congr_left fun q _ => hpoint q

end Alike

/-- **Sessions that are alike answer alike**, when they are asked in the words that both bind alike, as
long as the first one reads no file. -/
theorem Alike.responses (h : s.Alike words m s') (hdo : words Keyword.sequence.name) {asks : List Ask}
    (hasks : ∀ ask ∈ asks, ∀ code ∈ ask.code?, code.SpelledIn words)
    (hunread : ∀ a ∈ responses cfg asks s, Unread words a.events) :
    responses cfg (asks.map (Ask.rename (.later m))) s' = responses cfg asks s := by
  induction asks generalizing s s' with
  | nil => rfl
  | cons ask asks ih =>
    rw [responses_cons, List.forall_mem_cons] at hunread
    have hjournal : Unread words (ask.request cfg s).2.journal :=
      fun hload path forms hmem => hunread.1 hload path forms (List.mem_reverse.2 hmem)
    obtain ⟨hresult, hbehind⟩ :=
      h.request hdo (hasks ask List.mem_cons_self) hjournal
    rw [List.map_cons, responses_cons, responses_cons]
    exact congr (congrArg List.cons (hbehind.response_eq hresult))
      (ih hbehind (fun ask hask => hasks ask (List.mem_cons_of_mem _ hask)) hunread.2)

end Session

end AmbLisp
