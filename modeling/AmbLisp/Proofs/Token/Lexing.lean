import AmbLisp.Proofs.Token.Pieces

/-!
# Reading tokens off a text

`Cursor.Next` says what comes next in a text without the lexer, and the lexer comes to exactly that
(`next_spec`, `Next.next_eq`), so that a property of all tokens is shown by the cases of `Next`.
`Reads` puts several tokens in a row, and `Reads.tokens` says that then they are the tokens of the
text.
-/

namespace AmbLisp

/-- The kind of a token, and its text. -/
abbrev Lexeme := TokenKind × String

/-- What a token is apart from its position. -/
def Token.lexeme (t : Token) : Lexeme :=
  (t.kind, t.text)

namespace Cursor

variable {c c' : Cursor} {gap lexeme rest cs : List Char} {x : Except ReadError Token} {t : Token}

theorem past_past (c : Cursor) (xs ys cs ds : List Char) :
    (c.past xs cs).past ys ds = c.past (xs ++ ys) ds := by
  simp [past, Position.afterAll_append]

theorem skipGap_of (hrest : c.rest = gap ++ cs) (hgap : Gap false gap false) {ch : Char}
    {ds : List Char} (hcs : cs = ch :: ds) (hch : opensGap ch = false) :
    c.skipGap = c.past gap cs := by
  subst hcs
  rw [skipGap, hrest, splitGap_behind_of hgap hch]

/-! ## The next token -/

/-- What the next token of a text comes to, and where the cursor stands behind it. -/
inductive Next (c : Cursor) : Except ReadError Token × Cursor → Prop
  | token {gap lexeme rest : List Char} {t : Token} (hrest : c.rest = gap ++ (lexeme ++ rest))
      (hgap : Gap false gap false) (hlex : t.Lexes lexeme rest)
      (hpos : t.pos = c.pos.afterAll gap) : Next c (.ok t, c.past (gap ++ lexeme) rest)
  | endOfText {b : Bool} (hgap : Gap false c.rest b) :
      Next c (.ok ⟨.endOfText, "", c.pos.afterAll c.rest⟩, c.past c.rest [])
  | unterminated {gap cs : List Char} (hrest : c.rest = gap ++ '"' :: cs)
      (hgap : Gap false gap false) (hopen : ¬ Closes cs) :
      Next c (.error ⟨.unterminatedString, c.pos.afterAll gap⟩, c.past c.rest [])

theorem Next.next_eq {out : Except ReadError Token × Cursor} (h : c.Next out) : c.next = out := by
  cases h with
  | @token gap lexeme rest t hrest hgap hlex hpos =>
    obtain ⟨ch, ds, hbegins, hch⟩ := hlex.begins
    have hskip : c.skipGap = c.past gap (lexeme ++ rest) :=
      skipGap_of hrest hgap (by rw [hbegins, List.cons_append]) hch
    unfold next
    simp only [hskip]
    rw [← past_past c gap lexeme (lexeme ++ rest)]
    cases hlex with
    | punctuation hc p =>
      obtain rfl : p = c.pos.afterAll gap := hpos
      simp only [past, List.singleton_append, hc, advance, List.take_one, List.head?_cons,
        Option.toList_some, List.drop_one, List.tail_cons]
    | @string inside content h p =>
      obtain rfl : p = c.pos.afterAll gap := hpos
      have hbody := stringBody?_of_unescapes h rest
      simp only [past, List.cons_append, List.append_assoc, List.nil_append, readString,
        show punctuation? '"' = none from rfl, if_true, List.drop_one, List.tail_cons, hbody,
        List.take_one, List.head?_cons, Option.toList_some]
    | word hne hw hends p =>
      obtain rfl : p = c.pos.afterAll gap := hpos
      subst hbegins
      have hword := hw ch List.mem_cons_self
      have hquote : ch ≠ '"' := by
        rintro rfl
        exact absurd hword (by decide)
      have hsplit := splitWord_append_of hw hends
      rw [List.cons_append] at hsplit
      simp only [past, List.cons_append, punctuation?_of_isWordChar hword, if_neg hquote, readWord,
        hsplit]
  | endOfText hgap =>
    unfold next
    simp only [skipGap, splitGap_gap hgap]
    rfl
  | @unterminated gap cs hrest hgap hopen =>
    have hskip := skipGap_of hrest hgap rfl (show opensGap '"' = false from rfl)
    unfold next
    simp only [hskip]
    rw [hrest, ← past_past c gap ('"' :: cs) ('"' :: cs)]
    simp only [past, show punctuation? '"' = none from rfl, if_true, readString, List.drop_one,
      List.tail_cons, stringBody?_eq_none_iff.2 hopen]

/-- **The lexer comes to the next token** of a text. -/
theorem next_spec (c : Cursor) : c.Next c.next := by
  have hsplit := splitGap_append false c.rest
  obtain ⟨b, hgap, hend⟩ := gap_splitGap false c.rest
  generalize (splitGap false c.rest).1 = gap, (splitGap false c.rest).2 = cs at hsplit hgap hend
  cases cs with
  | nil =>
    rw [List.append_nil] at hsplit
    subst hsplit
    have hnext := Next.endOfText hgap
    rwa [hnext.next_eq]
  | cons ch cs =>
    obtain ⟨rfl, hch⟩ := hend ch rfl
    rcases exists_lexes_or_open hch cs (c.pos.afterAll gap) with
      ⟨t, lexeme, rest, hcs, hlex, hpos⟩ | ⟨rfl, hopen⟩
    · have hnext := Next.token (hsplit.symm.trans (by rw [hcs])) hgap hlex hpos
      rwa [hnext.next_eq]
    · have hnext := Next.unterminated hsplit.symm hgap hopen
      rwa [hnext.next_eq]

theorem not_end_of_ok (ht : t.kind ≠ .endOfText) :
    ∀ u, (.ok t : Except ReadError Token) = .ok u → u.kind ≠ .endOfText := by
  rintro _ ⟨⟩
  exact ht

theorem end_or_more (x : Except ReadError Token) :
    (∃ t, x = .ok t ∧ t.kind = .endOfText) ∨ ∀ t, x = .ok t → t.kind ≠ .endOfText := by
  rcases x with e | t
  · exact .inr nofun
  · by_cases ht : t.kind = .endOfText
    · exact .inl ⟨t, rfl, ht⟩
    · exact .inr (not_end_of_ok ht)

/-- Everything but the end of a text takes up some of it. -/
theorem length_next (h : c.next = (x, c')) (hx : ∀ t, x = .ok t → t.kind ≠ .endOfText) :
    c'.rest.length < c.rest.length := by
  have hnext := next_spec c
  rw [h] at hnext
  cases hnext with
  | token hrest _ hlex =>
    obtain ⟨ch, ds, rfl, -⟩ := hlex.begins
    simp only [hrest, past, List.length_append, List.length_cons]
    omega
  | endOfText => exact absurd rfl (hx _ rfl)
  | unterminated hrest =>
    simp only [hrest, past, List.length_append, List.length_cons, List.length_nil]
    omega

theorem tokensWithin_next (h : c.next = (x, c')) (hx : ∀ t, x = .ok t → t.kind ≠ .endOfText)
    (n : Nat) : c.tokensWithin (n + 1) = x :: c'.tokensWithin n := by
  rw [tokensWithin, h]
  cases x with
  | error e => rfl
  | ok t => exact if_neg (hx t rfl)

theorem tokensWithin_end (h : c.next = (.ok t, c')) (ht : t.kind = .endOfText) (n : Nat) :
    c.tokensWithin (n + 1) = [.ok t] := by
  rw [tokensWithin, h]
  exact if_pos ht

/-! ## A token in sight -/

/-- This text lies ahead, behind no more than a gap. -/
def Sees (c : Cursor) (cs : List Char) : Prop :=
  (splitGap false c.rest).2 = cs

theorem sees_of_not {ch : Char} (hc : c.rest = ch :: cs) (h : opensGap ch = false) :
    c.Sees (ch :: cs) := by
  rw [Sees, hc, splitGap_of_not h]

theorem Sees.exists_gap (h : c.Sees cs) :
    ∃ gap b, Gap false gap b ∧ c.rest = gap ++ cs ∧ (cs ≠ [] → b = false) := by
  have hsplit := splitGap_append false c.rest
  obtain ⟨b, hgap, hend⟩ := gap_splitGap false c.rest
  rw [show (splitGap false c.rest).2 = cs from h] at hsplit hend
  refine ⟨_, b, hgap, hsplit.symm, fun hne => ?_⟩
  obtain ⟨ch, ds, rfl⟩ := List.exists_cons_of_ne_nil hne
  exact (hend ch rfl).1

theorem next_lexeme (h : c.Sees (lexeme ++ rest)) (hlex : t.Lexes lexeme rest) :
    ∃ p c', c.next = (.ok { t with pos := p }, c') ∧ c'.rest = rest := by
  obtain ⟨gap, b, hgap, hrest, hend⟩ := h.exists_gap
  obtain ⟨ch, ds, rfl, -⟩ := hlex.begins
  obtain rfl := hend (List.cons_ne_nil _ _)
  exact ⟨_, _, (Next.token hrest hgap (hlex.moved _) rfl).next_eq, rfl⟩

theorem next_punctuation {ch : Char} {kind : TokenKind} (h : c.Sees (ch :: rest))
    (hp : punctuation? ch = some kind) :
    ∃ p c', c.next = (.ok ⟨kind, String.singleton ch, p⟩, c') ∧ c'.rest = rest :=
  next_lexeme (show c.Sees ([ch] ++ rest) from h) (.punctuation hp c.pos rest)

theorem next_end (h : c.Sees []) : ∃ p c', c.next = (.ok ⟨.endOfText, "", p⟩, c') := by
  obtain ⟨gap, b, hgap, hrest, -⟩ := h.exists_gap
  rw [List.append_nil] at hrest
  exact ⟨_, _, (Next.endOfText (hrest ▸ hgap)).next_eq⟩

/-! ## Tokens in a row -/

/-- These tokens lie between two cursors. -/
inductive Reads : Cursor → List Lexeme → Cursor → Prop
  | nil (c : Cursor) : Reads c [] c
  | cons {c c₁ c₂ : Cursor} {t : Token} {ls : List Lexeme} (h : c.next = (.ok t, c₁))
      (ht : t.kind ≠ .endOfText) (h' : Reads c₁ ls c₂) : Reads c (t.lexeme :: ls) c₂

theorem Reads.one {t : Token} (h : c.next = (.ok t, c')) (ht : t.kind ≠ .endOfText) :
    c.Reads [t.lexeme] c' :=
  .cons h ht (.nil c')

theorem Reads.append {c₁ : Cursor} {ls ls' : List Lexeme} (h : c.Reads ls c₁)
    (h' : c₁.Reads ls' c') : c.Reads (ls ++ ls') c' := by
  induction h with
  | nil => exact h'
  | cons hn ht _ ih => exact .cons hn ht (ih h')

theorem Reads.length_le {ls : List Lexeme} (h : c.Reads ls c') :
    ls.length + c'.rest.length ≤ c.rest.length := by
  induction h with
  | nil => simp
  | cons hn ht _ ih =>
    have := length_next hn (not_end_of_ok ht)
    rw [List.length_cons]
    omega

theorem Reads.tokensWithin {ls : List Lexeme} (h : c.Reads ls c') :
    ∀ n, ∃ ts : List Token, ts.map Token.lexeme = ls ∧
      c.tokensWithin (ls.length + n) = ts.map .ok ++ c'.tokensWithin n := by
  induction h with
  | nil c => exact fun n => ⟨[], rfl, by simp⟩
  | @cons c c₁ c₂ t ls hn ht _ ih =>
    intro n
    obtain ⟨ts, hts, htok⟩ := ih n
    refine ⟨t :: ts, by rw [List.map_cons, hts], ?_⟩
    rw [List.length_cons, Nat.add_right_comm, tokensWithin_next hn (not_end_of_ok ht), htok,
      List.map_cons, List.cons_append]

/-- The tokens up to the end of a text are all its tokens. -/
theorem Reads.tokens {ls : List Lexeme} (h : c.Reads ls c') (hend : c'.Sees []) :
    ∃ (ts : List Token) (last : Token), ts.map Token.lexeme = ls ∧ last.kind = .endOfText ∧
      c.tokens = ts.map .ok ++ [.ok last] := by
  have hlen := h.length_le
  obtain ⟨n, hn⟩ : ∃ n, c.rest.length + 1 = ls.length + (n + 1) :=
    ⟨c.rest.length - ls.length, by omega⟩
  obtain ⟨ts, hts, htok⟩ := h.tokensWithin (n + 1)
  obtain ⟨p, c₂, hnext⟩ := next_end hend
  refine ⟨ts, ⟨.endOfText, "", p⟩, hts, rfl, ?_⟩
  rw [Cursor.tokens, hn, htok, tokensWithin_end hnext rfl]

end Cursor

end AmbLisp
