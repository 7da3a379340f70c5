import AmbLisp.Dialogue
import AmbLisp.Proofs.Session.Delivery

/-!
# What a line is answered

The answer to a line is the answer to the result of one request (`outcome_answer`), which
`request_tryAgain`, `request_form` and `request_unread` tell apart. A value is answered with its text, if
it has one on the host. A fault that ends a search is answered with the same words as ever, with its
message, or not at all (`answerTo_error`). What is said is written as it is, if the output takes all its
characters (`outcome_say`).
-/

namespace AmbLisp

namespace Host

variable {host : Host} {text text' : String} {v : Value}

/-- The output can take all characters of a text. -/
def Writes (host : Host) (text : String) : Prop :=
  ∀ c ∈ text.toList, host.encodes c = true

theorem encode_of_writes (h : host.Writes text) : host.encode text = .ok text := by
  have hfind : text.toList.find? (!host.encodes ·) = none := by
    refine List.find?_eq_none.2 fun c hc => ?_
    rw [h c hc]
    exact Bool.false_ne_true
  rw [encode, hfind]

/-- A text is written as it is. -/
theorem eq_of_encode (h : host.encode text = .ok text') : text' = text := by
  rcases encode_cases host text with hencode | ⟨c, -, hencode⟩
  · exact Except.ok.inj (h.symm.trans hencode)
  · cases h.symm.trans hencode

theorem print_of_nesting {st : Style} (h : v.nesting ≤ host.printable) :
    host.print st v = .ok (v.write st) := if_pos h

end Host

namespace Dialogue

open Session

/-- The answer to the result of a request. -/
def answerTo (cfg : Setting) : Except Fault Value → Except Fault (Option String)
  | .ok v => (cfg.print .readable v).map some
  | .error fault =>
    match reply? fault with
    | some text => .ok (some text)
    | none => .error fault

/-- The text behind the last value, which says why there are no more. -/
def closingText (fault : Fault) : String :=
  if fault = .noMoreValues then "No more values" else "Error: " ++ fault.message

/-- The answer to a fault that ends a search. -/
def closing (fault : Fault) : Except Fault (Option String) :=
  if fault.kind = .outside then .error fault else .ok (some (closingText fault))

/-- The session after a line was printed. -/
def said (text : String) (s : Session) : Session :=
  { s with printed := (text ++ "\n") :: s.printed }

variable {cfg : Setting} {line : String} {s : Session}

theorem answerTo_plain {fault : Fault} (h : fault.IsPlain) :
    answerTo cfg (.error fault) = .ok (some ("Error: " ++ fault.message)) := by
  have hreply : reply? fault = some ("Error: " ++ fault.message) := by
    unfold Fault.IsPlain at h
    unfold reply?
    split <;> rename_i hk <;> first | rfl | rw [hk] at h; cases h
  rw [answerTo, hreply]

theorem answerTo_error {fault : Fault} (h : fault.EndsSearch) :
    answerTo cfg (.error fault) = closing fault := by
  rcases h with rfl | h | h
  · rfl
  · rw [answerTo_plain h, closing, if_neg h.not_outside, closingText, if_neg h.ne_noMoreValues]
  · have hreply : reply? fault = none := by rw [reply?, h]
    rw [closing, if_pos h, answerTo, hreply]

/-- Only a blank line has no answer. -/
theorem answerTo_ne_none (cfg : Setting) (result : Except Fault Value) :
    answerTo cfg result ≠ .ok none := by
  cases result with
  | ok v =>
    rw [answerTo]
    cases cfg.print .readable v <;> exact nofun
  | error fault =>
    rw [answerTo]
    split <;> exact nofun

theorem outcome_answer_blank (h : Text.trim line = "") :
    (answer cfg line).outcome s = (.ok none, s) := by
  rw [answer, if_pos h]
  rfl

/-- **The answer to a line** that is not blank is the answer to the result of its request. -/
theorem outcome_answer (cfg : Setting) (s : Session) (h : Text.trim line ≠ "") :
    (answer cfg line).outcome s =
      let out := request cfg (Text.trim line) s
      (answerTo cfg out.1, out.2) := by
  rw [answer, if_neg h]
  dsimp only
  rw [ExceptT.outcome_bind, Session.outcome_attempt]
  rcases request cfg (Text.trim line) s with ⟨fault | v, s'⟩
  · dsimp only
    rw [answerTo]
    cases reply? fault <;> rfl
  · dsimp only
    rw [answerTo]
    cases hprint : cfg.print .readable v <;> rw [ExceptT.outcome_bind] <;> rfl

theorem trim_tryAgain : Text.trim tryAgainCommand = tryAgainCommand := by decide

theorem trim_tryAgain_ne (h : Text.trim line = tryAgainCommand) : Text.trim line ≠ "" := by
  rw [h]
  decide

theorem request_tryAgain : request cfg tryAgainCommand = Session.tryAgain cfg := if_pos rfl

theorem request_form {expr : Value} (hne : line ≠ tryAgainCommand)
    (h : Loader.form cfg.toHost line = .ok expr) : request cfg line s = Session.run cfg expr s := by
  rw [request, if_neg hne]
  change (readForm line cfg.toHost >>= Session.run cfg).outcome s = _
  rw [ExceptT.outcome_bind, outcome_readForm, h]
  rfl

/-- A blank line is no form. -/
theorem ne_blank_of_form {expr : Value} (h : Loader.form cfg.toHost line = .ok expr) :
    line ≠ "" := by
  rintro rfl
  have hblank : (Reader.parse "").isOk = false := by decide +kernel
  rw [(Loader.form_eq_ok.1 h).1] at hblank
  cases hblank

theorem request_unread {fault : Fault} (hne : line ≠ tryAgainCommand)
    (h : Loader.form cfg.toHost line = .error fault) : request cfg line s = (.error fault, s) := by
  rw [request, if_neg hne]
  change (readForm line cfg.toHost >>= Session.run cfg).outcome s = _
  rw [ExceptT.outcome_bind, outcome_readForm, h]

/-! ## What is said -/

theorem outcome_say (host : Host) (text : String) (s : Session) :
    (say host text).outcome s =
      match host.encode text with
      | .ok _ => (.ok (), said text s)
      | .error fault => (.error fault, s) := by
  rw [say, ExceptT.outcome_bind]
  cases hencode : host.encode text with
  | error fault => rfl
  | ok text' =>
    rw [Host.eq_of_encode hencode]
    rfl

end Dialogue

end AmbLisp
