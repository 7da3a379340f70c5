import AmbLisp.Proofs.Token.Tiling

/-!
# A text that goes on

A line feed behind a text ends whatever a comment or a word in it could have gone on with. So if all
strings of the text are closed, then its tokens are followed by those of the next text alone, so many
lines further down (`tokens_append_line`).
-/

namespace AmbLisp

/-! ## Further down -/

/-- The token, so many lines further down. -/
def Token.below (k : Nat) (t : Token) : Token :=
  { t with pos := t.pos.below k }

@[simp] theorem Token.kind_below (k : Nat) (t : Token) : (t.below k).kind = t.kind := rfl

/-- The error, so many lines further down. -/
def ReadError.below (k : Nat) (e : ReadError) : ReadError :=
  { e with pos := e.pos.below k }

/-- What reading comes to so many lines further down, if `f` says what it returns there. -/
def lowered {α β : Type} (k : Nat) (f : α → β) : Except ReadError α → Except ReadError β
  | .ok a => .ok (f a)
  | .error e => .error (e.below k)

theorem Position.afterAll_below (k : Nat) (p : Position) (cs : List Char) :
    (p.below k).afterAll cs = (p.afterAll cs).below k := by
  induction cs generalizing p with
  | nil => rfl
  | cons c cs ih => rw [afterAll_cons, after_below, ih, afterAll_cons]

namespace Cursor

variable {c d : Cursor} {k n : Nat} {gap cs : List Char}

/-- The same text lies ahead, so many lines further down. -/
structure Lower (k : Nat) (c d : Cursor) : Prop where
  rest : d.rest = c.rest
  pos : d.pos = c.pos.below k

theorem Lower.past (h : Lower k c d) (piece rest : List Char) :
    Lower k (c.past piece rest) (d.past piece rest) := by
  refine ⟨rfl, ?_⟩
  simp only [Cursor.past, h.pos, Position.afterAll_below]

/-- The next token is the same, further down. -/
theorem Lower.next (h : Lower k c d) :
    d.next.1 = lowered k (Token.below k) c.next.1 ∧ Lower k c.next.2 d.next.2 := by
  have hnext := next_spec c
  generalize c.next = out at hnext
  cases hnext with
  | @token gap lexeme rest t hrest hgap hlex hpos =>
    have hpos' : (t.below k).pos = d.pos.afterAll gap := by
      rw [h.pos, Position.afterAll_below, ← hpos]
      rfl
    have hd := Next.token (h.rest.trans hrest) hgap (hlex.moved _) hpos'
    rw [hd.next_eq]
    exact ⟨rfl, h.past _ _⟩
  | @endOfText b hgap =>
    have hd := Next.endOfText (c := d) (b := b) (by rw [h.rest]; exact hgap)
    rw [hd.next_eq, h.rest, h.pos, Position.afterAll_below]
    exact ⟨rfl, h.past _ _⟩
  | unterminated hrest hgap hopen =>
    have hd := Next.unterminated (h.rest.trans hrest) hgap hopen
    rw [hd.next_eq, h.rest, h.pos, Position.afterAll_below]
    exact ⟨rfl, h.past _ _⟩

theorem Lower.tokensWithin (h : Lower k c d) (n : Nat) :
    d.tokensWithin n = (c.tokensWithin n).map (lowered k (Token.below k)) := by
  induction n generalizing c d with
  | zero => rfl
  | succ n ih =>
    obtain ⟨hresult, hbehind⟩ := h.next
    rcases hc : c.next with ⟨x, c'⟩
    rcases hd : d.next with ⟨y, d'⟩
    rw [hc, hd] at hresult hbehind
    obtain rfl := hresult
    rcases end_or_more x with ⟨t, rfl, ht⟩ | hx
    · rw [tokensWithin_end hc ht, tokensWithin_end (t := t.below k) hd ht]
      rfl
    · have hy : ∀ t, lowered k (Token.below k) x = .ok t → t.kind ≠ .endOfText := by
        rcases x with e | t
        · nofun
        · exact not_end_of_ok (hx t rfl)
      rw [tokensWithin_next hc hx, tokensWithin_next hd hy, ih hbehind, List.map_cons]

theorem Lower.tokens (h : Lower k c d) :
    d.tokens = c.tokens.map (lowered k (Token.below k)) := by
  rw [Cursor.tokens, Cursor.tokens, h.rest, h.tokensWithin]

/-! ## Behind a line feed -/

theorem tokensWithin_succ (h : c.rest.length < n) : c.tokensWithin (n + 1) = c.tokensWithin n := by
  induction n generalizing c with
  | zero => exact absurd h (Nat.not_lt_zero _)
  | succ n ih =>
    rcases hn : c.next with ⟨x, c'⟩
    rcases end_or_more x with ⟨t, rfl, ht⟩ | hx
    · rw [tokensWithin_end hn ht, tokensWithin_end hn ht]
    · have hlt := length_next hn hx
      rw [tokensWithin_next hn hx, tokensWithin_next hn hx, ih (by omega)]

/-- More tokens than there are ahead are not found. -/
theorem tokensWithin_of_lt (h : c.rest.length < n) : c.tokensWithin n = c.tokens := by
  induction h with
  | refl => rfl
  | step h ih => rw [tokensWithin_succ h, ih]

theorem tokens_of_next {t : Token} (h : c.next = (.ok t, d)) (ht : t.kind ≠ .endOfText) :
    c.tokens = .ok t :: d.tokens := by
  rw [tokens, tokensWithin_next h (not_end_of_ok ht),
    tokensWithin_of_lt (length_next h (not_end_of_ok ht))]

/-- A gap ahead makes no difference to the tokens behind it. -/
theorem tokens_past_gap (hgap : Gap false gap false) (hrest : c.rest = gap ++ cs) :
    c.tokens = (c.past gap cs).tokens := by
  have hskip : c.skipGap = (c.past gap cs).skipGap := by
    simp only [skipGap, hrest, splitGap_behind hgap, past_past]
    rfl
  have hnext : c.next = (c.past gap cs).next := by
    unfold next
    rw [hskip]
  have hlen : (c.past gap cs).rest.length < c.rest.length + 1 := by
    rw [hrest, List.length_append, show (c.past gap cs).rest = cs from rfl]
    omega
  rw [← tokensWithin_of_lt hlen, tokens, tokensWithin, tokensWithin, hnext]

end Cursor

/-- Any row of blanks and comments is ended by a line feed. -/
theorem Gap.lineFeed_behind {b b' : Bool} {gap : List Char} (h : Gap b gap b') :
    Gap b (gap ++ ['\n']) false := by
  induction h with
  | nil b =>
    cases b with
    | false => exact .blank (.inl rfl) (.nil false)
    | true => exact .lineFeed (.nil false)
  | blank hc _ ih => exact .blank hc ih
  | semicolon _ ih => exact .semicolon ih
  | comment hc _ ih => exact .comment hc ih
  | lineFeed _ ih => exact .lineFeed ih

theorem EndsWord.lineFeed_behind {rest : List Char} (h : EndsWord rest) (cs : List Char) :
    EndsWord (rest ++ '\n' :: cs) := by
  cases rest with
  | nil => exact endsWord_cons rfl cs
  | cons c rest => exact endsWord_cons (h c rfl) _

namespace Cursor

variable {c d : Cursor} {cs : List Char} {ts : List Token} {last : Token}

/-- The tokens of a text are found again in front of a line feed, and what comes behind the line feed
is tokenized from there on. -/
theorem tokens_of_lineFeed (hrest : d.rest = c.rest ++ '\n' :: cs) (hpos : d.pos = c.pos) {n : Nat}
    (h : c.tokensWithin n = ts.map .ok ++ [.ok last]) (hlast : last.kind = .endOfText) :
    d.tokens = ts.map .ok ++ (d.past (c.rest ++ ['\n']) cs).tokens := by
  induction n generalizing c d ts with
  | zero => simp [tokensWithin] at h
  | succ n ih =>
    have hnext := next_spec c
    rw [tokensWithin] at h
    generalize c.next = out at hnext h
    cases hnext with
    | @token gap lexeme rest t hc hgap hlex htpos =>
      simp only [if_neg hlex.kind_ne_end] at h
      cases ts with
      | nil =>
        obtain ⟨rfl, -⟩ : t = last ∧ _ := by simpa using h
        exact absurd hlast hlex.kind_ne_end
      | cons u ts =>
        obtain ⟨rfl, htail⟩ : t = u ∧ _ := by simpa using h
        have hdrest : d.rest = gap ++ (lexeme ++ (rest ++ '\n' :: cs)) := by
          rw [hrest, hc]
          simp only [List.append_assoc]
        have hd := (Next.token hdrest hgap (hlex.before fun hends => hends.lineFeed_behind cs)
          (by rw [hpos, htpos])).next_eq
        have hbehind : (d.past (gap ++ lexeme) (rest ++ '\n' :: cs)).pos =
            (c.past (gap ++ lexeme) rest).pos := by
          simp only [past, hpos]
        have hlater := ih (d := d.past (gap ++ lexeme) (rest ++ '\n' :: cs)) rfl hbehind htail
        rw [tokens_of_next hd hlex.kind_ne_end, hlater, past_past]
        simp only [past, hc, List.append_assoc, List.map_cons, List.cons_append]
    | endOfText hgap =>
      obtain rfl : ts = [] := by
        cases ts with
        | nil => rfl
        | cons u ts => simp at h
      exact tokens_past_gap hgap.lineFeed_behind (by rw [hrest]; simp)
    | unterminated => cases ts <;> simp at h

end Cursor

/-- **A text that a line feed ends is tokenized on its own**, and the next text too, further down. -/
theorem tokens_append_line {s : String} {ts : List Token} {last : Token}
    (h : tokenize s = .ok (ts ++ [last])) (hlast : last.kind = .endOfText) (s' : String) :
    (Cursor.ofSource (s ++ "\n" ++ s')).tokens = ts.map .ok ++
      (Cursor.ofSource s').tokens.map (lowered (s.toList.count '\n' + 1)
        (Token.below (s.toList.count '\n' + 1))) := by
  have htokens : (Cursor.ofSource s).tokens = ts.map .ok ++ [.ok last] := by
    rw [tokenize_eq_ok.1 h, List.map_append, List.map_singleton]
  have htext : (s ++ "\n" ++ s').toList = s.toList ++ '\n' :: s'.toList := by simp
  have hbehind := Cursor.tokens_of_lineFeed (c := .ofSource s) (d := .ofSource (s ++ "\n" ++ s')) htext
    rfl htokens hlast
  rw [hbehind]
  congr 1
  apply Cursor.Lower.tokens
  exact ⟨rfl, (Position.afterAll_origin _).trans (Position.behind_line s.toList)⟩

end AmbLisp
