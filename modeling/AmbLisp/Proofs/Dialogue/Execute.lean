import AmbLisp.Proofs.Dialogue.Answer
import AmbLisp.Proofs.Session.Printing

/-!
# All values of a source text

To execute a source text for all its values is to print the answer to it and then the answers to
further requests until no problem is open. What is printed is a listing, and before each of its lines
the texts of the passes for it (`completes_sayAll`). At a line that cannot be printed the listing breaks
off. An expression is listed with its own values. But a text that cannot be read leaves the problem open
that was open before, and so its remaining values are listed as well (`execute_lists`).
-/

namespace AmbLisp

namespace Dialogue

open Session

/-- The lines that list values and say why there are no more. -/
def listing (vs : List Value) (fault : Fault) : List String :=
  vs.map Value.print ++ [closingText fault]

/-- The same lines, or why they cannot be printed. -/
def lines (host : Host) (vs : List Value) (fault : Fault) : List (Except Fault String) :=
  vs.map (fun v => host.print .readable v >>= host.encode) ++ [host.encode (closingText fault)]

/-- All lines can be printed. -/
structure Shows (host : Host) (vs : List Value) (fault : Fault) : Prop where
  nesting : ∀ v ∈ vs, v.nesting ≤ host.printable
  writes : ∀ text ∈ listing vs fault, host.Writes text

/-- Pages with a line behind each. -/
def interleave (pages : List (List String)) (lines : List String) : List String :=
  (List.zipWith (fun page line => page ++ [line ++ "\n"]) pages lines).flatten

/-- Pages with a line behind each. At a line that cannot be printed they break off, and this is the
result. -/
def listed : List (List String) → List (Except Fault String) → Except Fault Unit × List String
  | page :: pages, .ok line :: lines =>
    ((listed pages lines).1, page ++ [line ++ "\n"] ++ (listed pages lines).2)
  | page :: _, .error fault :: _ => (.error fault, page)
  | _, _ => (.ok (), [])

/-- A request of a session has this result and has printed these texts. If it comes to an end, no problem
is open. -/
structure Completes (s : Session) (shown : Except Fault Unit × List String)
    (out : Except Fault Unit × Session) : Prop where
  result : out.1 = shown.1
  problem : out.1 = .ok () → out.2.problem = none
  printed : out.2.printed.reverse = s.printed.reverse ++ shown.2

/-- Prints the answer to a line, and then at most `n` further values of the problem that is open. -/
def sayAll (cfg : Setting) (line : String) (n : Nat) : Request Unit := do
  sayAnswer cfg.toHost (← answer cfg line)
  if (← get).problem.isSome then exhaust cfg n

variable {cfg : Setting} {line : String} {s s' : Session} {n : Nat}

theorem exhaust_succ (cfg : Setting) (n : Nat) :
    exhaust cfg (n + 1) = sayAll cfg tryAgainCommand n := rfl

theorem outcome_sayAll {text : String}
    (h : (answer cfg line).outcome s = (.ok (some text), s')) :
    (sayAll cfg line n).outcome s =
      match cfg.encode text with
      | .ok _ =>
        if s'.problem.isSome then (exhaust cfg n).outcome (said text s') else (.ok (), said text s')
      | .error fault => (.error fault, s') := by
  have hsay := outcome_say cfg.toHost text s'
  rw [sayAll, ExceptT.outcome_bind, h]
  dsimp only
  rw [sayAnswer, ExceptT.outcome_bind, hsay]
  cases cfg.encode text with
  | error fault => rfl
  | ok _ =>
    change (if s'.problem.isSome then exhaust cfg n else pure ()).outcome (said text s') = _
    split <;> rfl

theorem outcome_execute {source : String} (h : Text.trim source ≠ "") (s : Session) :
    (execute cfg source true).outcome s = (sayAll cfg source cfg.passes).outcome s := by
  have hanswer := outcome_answer cfg s h
  have hne := answerTo_ne_none cfg (request cfg (Text.trim source) s).1
  rcases hr : (answer cfg source).outcome s with ⟨fault | _ | text, s'⟩ <;> rw [hr] at hanswer
  · rw [execute, sayAll, ExceptT.outcome_bind, ExceptT.outcome_bind, hr]
  · exact absurd (congrArg Prod.fst hanswer).symm hne
  · have hsay := outcome_say cfg.toHost text s'
    rw [outcome_sayAll hr, execute, ExceptT.outcome_bind, hr]
    dsimp only
    rw [sayAnswer, ExceptT.outcome_bind, hsay]
    cases cfg.encode text with
    | error fault => rfl
    | ok _ =>
      change (if s'.problem.isSome then exhaust cfg cfg.passes else pure ()).outcome
        (said text s') = _
      split <;> rfl

/-- A request with a value has its line printed, and then comes what else there is. -/
theorem outcome_sayAll_ok {v : Value} (hline : Text.trim line ≠ "")
    (h : request cfg (Text.trim line) s = (.ok v, s')) (hproblem : s'.problem.isSome) :
    (sayAll cfg line n).outcome s =
      match cfg.print .readable v >>= cfg.encode with
      | .ok text => (exhaust cfg n).outcome (said text s')
      | .error fault => (.error fault, s') := by
  have hanswer : (answer cfg line).outcome s = ((cfg.print .readable v).map some, s') := by
    rw [outcome_answer _ _ hline, h]
    rfl
  cases hprint : cfg.print .readable v with
  | error fault =>
    rw [hprint] at hanswer
    rw [sayAll, ExceptT.outcome_bind, hanswer]
    rfl
  | ok text =>
    rw [hprint] at hanswer
    change _ = match cfg.encode text with
      | .ok text => (exhaust cfg n).outcome (said text s')
      | .error fault => (.error fault, s')
    rw [outcome_sayAll hanswer]
    cases hencode : cfg.encode text with
    | error fault => rfl
    | ok text' =>
      rw [Host.eq_of_encode hencode]
      exact if_pos hproblem

/-- A fault that ends a search has the last line printed. -/
theorem outcome_sayAll_error {fault : Fault} (hline : Text.trim line ≠ "")
    (h : request cfg (Text.trim line) s = (.error fault, s')) (hproblem : s'.problem.isSome = false)
    (hends : fault.EndsSearch) (hkind : fault.kind ≠ .outside) :
    (sayAll cfg line n).outcome s =
      match cfg.encode (closingText fault) with
      | .ok text => (.ok (), said text s')
      | .error why => (.error why, s') := by
  have hanswer : (answer cfg line).outcome s = (.ok (some (closingText fault)), s') := by
    rw [outcome_answer _ _ hline, h]
    dsimp only
    rw [answerTo_error hends, closing, if_neg hkind]
  rw [outcome_sayAll hanswer]
  cases hencode : cfg.encode (closingText fault) with
  | error why => rfl
  | ok text =>
    rw [Host.eq_of_encode hencode, hproblem]
    rfl

/-! ## Listings -/

theorem lines_nil (host : Host) (fault : Fault) :
    lines host [] fault = [host.encode (closingText fault)] := rfl

theorem lines_cons (host : Host) (v : Value) (vs : List Value) (fault : Fault) :
    lines host (v :: vs) fault =
      (host.print .readable v >>= host.encode) :: lines host vs fault := rfl

theorem interleave_cons (page : List String) (text : String) (pages : List (List String))
    (lines : List String) :
    interleave (page :: pages) (text :: lines) = page ++ [text ++ "\n"] ++ interleave pages lines := rfl

/-- Where all lines can be printed, all pages are. -/
theorem listed_map_ok (pages : List (List String)) (texts : List String) :
    listed pages (texts.map .ok) = (.ok (), interleave pages texts) := by
  induction texts generalizing pages with
  | nil => cases pages <;> rfl
  | cons text texts ih =>
    cases pages with
    | nil => rfl
    | cons page pages => rw [List.map_cons, listed, ih, interleave_cons]

theorem Shows.lines_eq {host : Host} {vs : List Value} {fault : Fault} (h : Shows host vs fault) :
    lines host vs fault = (listing vs fault).map .ok := by
  have hvalues : ∀ v ∈ vs, (host.print .readable v >>= host.encode) = .ok v.print := by
    intro v hv
    have htext : v.print ∈ listing vs fault := List.mem_append_left _ (List.mem_map_of_mem hv)
    rw [Host.print_of_nesting (h.nesting v hv)]
    exact Host.encode_of_writes (h.writes _ htext)
  have hlast : host.encode (closingText fault) = .ok (closingText fault) :=
    Host.encode_of_writes (h.writes _ (List.mem_append_right _ (List.mem_singleton_self _)))
  rw [lines, listing, hlast, List.map_append, List.map_map, List.map_congr_left hvalues]
  rfl

theorem printed_said (text : String) (s : Session) :
    (said text s).printed.reverse = s.printed.reverse ++ [text ++ "\n"] := by
  rw [said, List.reverse_cons]

/-- What is printed behind a request comes behind the texts of the request. -/
theorem printed_behind {req : Request Value} {result : Except Fault Value}
    (hignores : IgnoresPrinted req) (h : req s = (result, s')) :
    s'.printed.reverse = s.printed.reverse ++ texts req s := by
  have hprinted : (req s).2.printed = (texts req s).reverse ++ s.printed := hignores.printed s
  rw [h] at hprinted
  rw [hprinted, List.reverse_append, List.reverse_reverse]

/-- **What is printed for all values**: their listing, and before each line what the request for it has
printed. -/
theorem completes_sayAll {req : Request Value} {vs : List Value} {fault : Fault}
    (hline : Text.trim line ≠ "") (hreq : request cfg (Text.trim line) = req)
    (hignores : IgnoresPrinted req) (hproblem : (req s).2.problem.isSome = (req s).1.isOk)
    (hends : ∀ fault, (req s).1 = .error fault → fault.EndsSearch)
    (hdelivers : Delivers (valuesFrom cfg req) s vs (some fault)) (hkind : fault.kind ≠ .outside)
    (hn : vs.length ≤ n) :
    Completes s (listed (pages cfg (vs.length + 1) req s) (lines cfg.toHost vs fault))
      ((sayAll cfg line n).outcome s) := by
  induction vs generalizing line req s n with
  | nil =>
    have hresult := delivers_nil.1 hdelivers
    rcases hr : req s with ⟨result, s'⟩
    rw [hr] at hproblem hends hresult
    obtain rfl : result = .error fault := hresult
    have hnone : s'.problem = none :=
      Option.isNone_iff_eq_none.1 (Option.isSome_eq_false_iff.1 hproblem)
    have hprinted := printed_behind hignores hr
    rw [outcome_sayAll_error hline (hreq ▸ hr) hproblem (hends fault rfl) hkind, List.length_nil,
      pages_error hr, lines_nil]
    cases cfg.encode (closingText fault) with
    | error why => exact ⟨rfl, nofun, hprinted⟩
    | ok text =>
      refine ⟨rfl, fun _ => hnone, ?_⟩
      rw [printed_said, hprinted, List.append_assoc]
      simp only [listed, List.append_nil]
  | cons v vs ih =>
    obtain ⟨hresult, hrest⟩ := delivers_cons.1 hdelivers
    rcases hr : req s with ⟨result, s'⟩
    rw [hr] at hproblem hresult hrest
    obtain rfl : result = .ok v := hresult
    have hprinted := printed_behind hignores hr
    obtain ⟨n, rfl⟩ := Nat.exists_eq_add_one.2 (Nat.lt_of_lt_of_le (Nat.succ_pos _) hn)
    rw [outcome_sayAll_ok hline (hreq ▸ hr) hproblem, List.length_cons, pages_ok hr, lines_cons]
    cases cfg.print .readable v >>= cfg.encode with
    | error why => exact ⟨rfl, nofun, hprinted⟩
    | ok text =>
      obtain ⟨p, hp⟩ : ∃ p, (said text s').problem = some p := Option.isSome_iff_exists.1 hproblem
      -- the line that was printed in between is not seen by what follows
      have hagain := ignoresPrinted_tryAgain cfg
      have hunprinted : s'.unprinted = (said text s').unprinted := rfl
      have hbehind := ih (trim_tryAgain_ne trim_tryAgain) request_tryAgain hagain
        (problem_tryAgain cfg _) (fun _ => endsSearch_tryAgain hp)
        (delivers_congr hagain hunprinted hrest) (Nat.le_of_succ_le_succ hn)
      rw [← pages_congr hagain hunprinted] at hbehind
      dsimp only
      rw [exhaust_succ]
      refine ⟨hbehind.result, hbehind.problem, hbehind.printed.trans ?_⟩
      rw [printed_said, hprinted]
      simp only [listed, List.append_assoc]

/-- These pages are what requests in a row for these values print, request by request; the last one is
that of the request behind the values. -/
def Paged (values : Nat → Request (List Value)) (s : Session) (vs : List Value)
    (pages : List (List String)) : Prop :=
  pages.length = vs.length + 1 ∧
    ∀ n, n ≤ vs.length + 1 → ((values n).outcome s).2.printed.reverse =
      s.printed.reverse ++ (pages.take n).flatten

theorem paged_pages {req : Request Value} {vs : List Value} {fault : Fault} (h : IgnoresPrinted req)
    (hdelivers : Delivers (valuesFrom cfg req) s vs (some fault)) :
    Paged (valuesFrom cfg req) s vs (pages cfg (vs.length + 1) req s) := by
  refine ⟨length_pages hdelivers, fun n hn => ?_⟩
  rw [take_pages hn, printed_valuesFrom h, List.reverse_append, List.reverse_reverse]

/-! ## Source texts -/

section

variable {source : String} {unread : Fault} (hsource : Text.trim source ≠ "")
  (hne : Text.trim source ≠ tryAgainCommand)

include hsource hne

/-- A text that cannot be read is answered, and then comes what there is of the problem that is open.
-/
theorem outcome_execute_unread (h : Loader.form cfg.toHost (Text.trim source) = .error unread)
    (hplain : unread.IsPlain) :
    (execute cfg source true).outcome s =
      match cfg.encode ("Error: " ++ unread.message) with
      | .ok text =>
        if s.problem.isSome then (exhaust cfg cfg.passes).outcome (said text s)
        else (.ok (), said text s)
      | .error fault => (.error fault, s) := by
  have hanswer : (answer cfg source).outcome s = (.ok (some ("Error: " ++ unread.message)), s) := by
    rw [outcome_answer cfg s hsource, request_unread hne h]
    dsimp only
    rw [answerTo_plain hplain]
  rw [outcome_execute hsource, outcome_sayAll hanswer]
  cases hencode : cfg.encode ("Error: " ++ unread.message) with
  | error fault => rfl
  | ok text => rw [Host.eq_of_encode hencode]

/-- There is no answer to a text with a numeral that is too long. -/
theorem outcome_execute_outside (h : Loader.form cfg.toHost (Text.trim source) = .error unread)
    (hkind : unread.kind = .outside) :
    (execute cfg source true).outcome s = (.error unread, s) := by
  have hanswer : (answer cfg source).outcome s = (.error unread, s) := by
    rw [outcome_answer cfg s hsource, request_unread hne h]
    dsimp only
    rw [answerTo_error (.inr (.inr hkind)), closing, if_pos hkind]
  rw [execute, ExceptT.outcome_bind, hanswer]

theorem completes_execute {expr : Value} {vs : List Value} {fault : Fault}
    (hread : Loader.form cfg.toHost (Text.trim source) = .ok expr)
    (hdelivers : Delivers (solve cfg expr) s vs (some fault)) (hkind : fault.kind ≠ .outside)
    (hn : vs.length ≤ cfg.passes) :
    ∃ pages, Paged (solve cfg expr) s vs pages ∧
      Completes s (listed pages (lines cfg.toHost vs fault)) ((execute cfg source true).outcome s) := by
  have hreq : request cfg (Text.trim source) = run cfg expr := funext fun s => request_form hne hread
  have hignores := ignoresPrinted_run cfg expr
  rw [outcome_execute hsource]
  exact ⟨_, paged_pages hignores hdelivers, completes_sayAll hsource hreq hignores
    (problem_run cfg expr s) (fun _ => endsSearch_run) hdelivers hkind hn⟩

end

/-- What remains of the problem that is open is listed as if no line had been printed before. -/
theorem completes_exhaust {vs : List Value} {fault : Fault} (text : String)
    (hproblem : s.problem.isSome)
    (hdelivers : Delivers (valuesFrom cfg (tryAgain cfg)) s vs (some fault))
    (hkind : fault.kind ≠ .outside) (hn : vs.length < n) :
    ∃ pages, Paged (valuesFrom cfg (tryAgain cfg)) s vs pages ∧
      Completes s (listed ([] :: pages) (.ok text :: lines cfg.toHost vs fault))
        ((exhaust cfg n).outcome (said text s)) := by
  obtain ⟨n, rfl⟩ := Nat.exists_eq_add_one.2 (Nat.lt_of_le_of_lt (Nat.zero_le _) hn)
  obtain ⟨p, hp⟩ : ∃ p, (said text s).problem = some p := Option.isSome_iff_exists.1 hproblem
  have hignores := ignoresPrinted_tryAgain cfg
  have hunprinted : s.unprinted = (said text s).unprinted := rfl
  have hall := completes_sayAll (trim_tryAgain_ne trim_tryAgain) request_tryAgain hignores
    (problem_tryAgain cfg _) (fun _ => endsSearch_tryAgain hp)
    (delivers_congr hignores hunprinted hdelivers) hkind (Nat.le_of_lt_succ hn)
  rw [← pages_congr hignores hunprinted] at hall
  refine ⟨_, paged_pages hignores hdelivers, hall.result, hall.problem, hall.printed.trans ?_⟩
  rw [printed_said]
  simp only [listed, List.nil_append, List.append_assoc]

/-- **All values of a source text.** An expression whose search ends is listed with its own values and
what closes them, and no problem is open any more. A text that cannot be read takes one line if no
problem is open; but if one is, all that remains of it is listed behind this line. There is no line for a
numeral that is too long to be converted. A listing is complete if its values are not nested too deeply
and the output takes its characters; otherwise it breaks off at the first line that cannot be printed.
-/
theorem execute_lists (cfg : Setting) (s : Session) (source : String)
    (hsource : Text.trim source ≠ "") (hne : Text.trim source ≠ tryAgainCommand) :
    (∀ expr vs fault, Loader.form cfg.toHost (Text.trim source) = .ok expr →
      Delivers (solve cfg expr) s vs (some fault) → fault.kind ≠ .outside → vs.length ≤ cfg.passes →
      ∃ pages, Paged (solve cfg expr) s vs pages ∧
        Completes s (listed pages (lines cfg.toHost vs fault))
          ((execute cfg source true).outcome s)) ∧
    (∀ unread, Loader.form cfg.toHost (Text.trim source) = .error unread →
      (unread.kind = .outside → (execute cfg source true).outcome s = (.error unread, s)) ∧
      (unread.kind ≠ .outside → s.problem = none →
        (execute cfg source true).outcome s =
          (say cfg.toHost ("Error: " ++ unread.message)).outcome s) ∧
      ∀ vs fault, unread.kind ≠ .outside → s.problem.isSome →
        Delivers (valuesFrom cfg (tryAgain cfg)) s vs (some fault) → fault.kind ≠ .outside →
        vs.length < cfg.passes →
        ∃ pages, Paged (valuesFrom cfg (tryAgain cfg)) s vs pages ∧
          Completes s
            (listed ([] :: pages)
              (cfg.encode ("Error: " ++ unread.message) :: lines cfg.toHost vs fault))
            ((execute cfg source true).outcome s)) ∧
    ∀ pages vs fault, Shows cfg.toHost vs fault →
      listed pages (lines cfg.toHost vs fault) = (.ok (), interleave pages (listing vs fault)) := by
  refine ⟨fun _ _ _ => completes_execute hsource hne, fun unread hread => ⟨?_, ?_, ?_⟩,
    fun pages vs fault hshows => ?_⟩
  · exact outcome_execute_outside hsource hne hread
  · intro hkind hproblem
    have hplain := Loader.plain_form hread hkind
    have hsay := outcome_say cfg.toHost ("Error: " ++ unread.message) s
    rw [outcome_execute_unread hsource hne hread hplain, hproblem, hsay]
    cases hencode : cfg.encode ("Error: " ++ unread.message) with
    | error fault => rfl
    | ok text =>
      rw [Host.eq_of_encode hencode]
      rfl
  · intro vs fault hkind hproblem hdelivers hends hn
    have hplain := Loader.plain_form hread hkind
    rw [outcome_execute_unread hsource hne hread hplain]
    cases hencode : cfg.encode ("Error: " ++ unread.message) with
    | error why =>
      obtain ⟨pages, hpaged, -⟩ := completes_exhaust "" hproblem hdelivers hends hn
      exact ⟨pages, hpaged, rfl, nofun, (List.append_nil _).symm⟩
    | ok text =>
      dsimp only
      rw [if_pos hproblem]
      exact completes_exhaust text hproblem hdelivers hends hn
  · rw [hshows.lines_eq, listed_map_ok]

theorem after_form {expr : Value} (hne : Text.trim line ≠ tryAgainCommand)
    (hread : Loader.form cfg.toHost (Text.trim line) = .ok expr) :
    ((answer cfg line).outcome s).2 = (run cfg expr s).2 := by
  rw [outcome_answer cfg s (ne_blank_of_form hread), request_form hne hread]

/-- All values of `(amb 1 2)`; a text that cannot be read, in a new session; and the same text while the
second value is still to come. -/
theorem execute_lists_amb :
    let cfg : Setting := { depth := 8, passes := 8 }
    let s := initial false
    let s' := ((answer cfg "(amb 1 2)").outcome s).2
    (∃ expr vs fault pages, vs.map Value.print = ["1", "2"] ∧ Paged (solve cfg expr) s vs pages ∧
      Completes s (.ok (), interleave pages (listing vs fault))
        ((execute cfg "(amb 1 2)" true).outcome s)) ∧
    ∃ unread : Fault,
      (execute cfg ")" true).outcome s =
        (say cfg.toHost ("Error: " ++ unread.message)).outcome s ∧
      ∃ vs fault pages, vs.map Value.print = ["2"] ∧
        Paged (valuesFrom cfg (tryAgain cfg)) s' vs pages ∧
        Completes s'
          (.ok (), ["Error: " ++ unread.message ++ "\n"] ++ interleave pages (listing vs fault))
          ((execute cfg ")" true).outcome s') := by
  intro cfg s s'
  obtain ⟨expr, hread, -⟩ : ∃ expr, Loader.form cfg.toHost (Text.trim "(amb 1 2)") = .ok expr ∧
      expr.print = "(amb 1 2)" := exists_ok_of_print (by decide +kernel)
  obtain ⟨unread, hunread, hparse⟩ : ∃ unread,
      Loader.form cfg.toHost (Text.trim ")") = .error unread ∧ unread.kind = .parse :=
    exists_error_of_kind (by decide +kernel)
  have hne : Text.trim "(amb 1 2)" ≠ tryAgainCommand := by decide +kernel
  have hs' : s' = (run cfg expr s).2 := after_form hne hread
  obtain ⟨v, hv, hv1⟩ : ∃ v, (request cfg (Text.trim "(amb 1 2)") s).1 = .ok v ∧
      (v.print, v.nesting) = ("1", 0) := Except.exists_ok_of_map (by decide +kernel)
  obtain ⟨w, hw, hw2⟩ : ∃ w, (tryAgain cfg s').1 = .ok w ∧ (w.print, w.nesting) = ("2", 0) :=
    Except.exists_ok_of_map (by decide +kernel)
  obtain ⟨hv1, hvn⟩ := Prod.mk.inj hv1
  obtain ⟨hw2, hwn⟩ := Prod.mk.inj hw2
  obtain ⟨fault, hfault, hkind⟩ : ∃ fault, (tryAgain cfg (tryAgain cfg s').2).1 = .error fault ∧
      fault.kind = .noMoreValues := exists_error_of_kind (by decide +kernel)
  have hproblem : s'.problem.isSome := by decide +kernel
  have hnot : fault.kind ≠ .outside := fun h => nomatch hkind.symm.trans h
  have hread' : unread.kind ≠ .outside := fun h => nomatch hparse.symm.trans h
  rw [request_form hne hread] at hv
  have hrest : Delivers (valuesFrom cfg (tryAgain cfg)) s' [w] (some fault) :=
    delivers_cons.2 ⟨hw, delivers_nil.2 hfault⟩
  have hall : Delivers (solve cfg expr) s [v, w] (some fault) :=
    delivers_cons.2 ⟨hv, hs' ▸ hrest⟩
  -- the output takes all characters, and numbers are not nested
  have hshows : ∀ vs : List Value, (∀ v ∈ vs, v.nesting = 0) → Shows cfg.toHost vs fault :=
    fun vs hvs => ⟨fun v hv => hvs v hv ▸ Nat.zero_le _, fun _ _ _ _ => rfl⟩
  obtain ⟨hlists, -, hlisted⟩ := execute_lists cfg s "(amb 1 2)" (by decide +kernel) hne
  obtain ⟨-, hfresh, -⟩ := execute_lists cfg s ")" (by decide +kernel) (by decide +kernel)
  obtain ⟨-, hopen, -⟩ := execute_lists cfg s' ")" (by decide +kernel) (by decide +kernel)
  refine ⟨?_, unread, (hfresh unread hunread).2.1 hread' rfl, ?_⟩
  · obtain ⟨pages, hpaged, hcompletes⟩ :=
      hlists expr [v, w] fault hread hall hnot (show 2 ≤ 8 by decide)
    rw [hlisted pages [v, w] fault (hshows _ (by simp [hvn, hwn]))] at hcompletes
    exact ⟨expr, [v, w], fault, pages, by rw [List.map_cons, List.map_cons, hv1, hw2]; rfl, hpaged,
      hcompletes⟩
  · obtain ⟨pages, hpaged, hcompletes⟩ :=
      (hopen unread hunread).2.2 [w] fault hread' hproblem hrest hnot (show 1 < 8 by decide)
    have hencode : cfg.encode ("Error: " ++ unread.message) = .ok ("Error: " ++ unread.message) :=
      Host.encode_of_writes fun _ _ => rfl
    rw [hencode, listed, hlisted pages [w] fault (hshows _ (by simp [hwn]))] at hcompletes
    exact ⟨[w], fault, pages, by rw [List.map_cons, hw2]; rfl, hpaged, hcompletes⟩

/-- A text that cannot be read does not always take just one line, even if the output takes every
character: while a problem is open, the remaining values of that problem follow. -/
theorem execute_unread_continues :
    ¬ ∀ (cfg : Setting) (line source : String), (∀ c, cfg.encodes c = true) →
      Text.trim source ≠ "" → Text.trim source ≠ tryAgainCommand →
      (Reader.parse (Text.trim source)).isOk = false →
      let s := ((answer cfg line).outcome (initial false)).2
      ((execute cfg source true).outcome s).1 = .ok () →
      ((execute cfg source true).outcome s).2.printed.length = s.printed.length + 1 := by
  intro h
  let cfg : Setting := { depth := 8, passes := 8 }
  obtain ⟨u, hok, -⟩ : ∃ u : Unit,
      ((execute cfg ")" true).outcome ((answer cfg "(amb 1 2)").outcome (initial false)).2).1 = .ok u ∧
        u = () := Except.exists_ok_of_map (f := id) (by decide +kernel)
  have hone := h cfg "(amb 1 2)" ")" (fun _ => rfl) (by decide +kernel) (by decide +kernel)
    (by decide +kernel) hok
  revert hone
  decide +kernel

end Dialogue

end AmbLisp
