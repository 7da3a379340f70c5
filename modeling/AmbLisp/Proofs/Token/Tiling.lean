import AmbLisp.Proofs.Position
import AmbLisp.Proofs.Token.Pieces
import AmbLisp.Proofs.Token.Stream

/-!
# Tokens tile a text

Token by token a text is used up: `tokens_tile_source` says that it consists of lexemes and the gaps
between them, and that every position is the one that the text before it counts up to, behind any
operations of the lexer.
-/

namespace AmbLisp

/-- From a place on, a text consists of these tokens and of a rest. Each token has a gap in front of
it, and it stands where its lexeme begins. -/
inductive Tiles : List Char → List Char → List Token → List Char → Prop
  | nil (before rest : List Char) : Tiles before rest [] rest
  | cons {before gap lexeme ahead rest : List Char} {t : Token} {ts : List Token}
      (hgap : Gap false gap false) (hlex : t.Lexes lexeme ahead)
      (hpos : t.pos = Position.behind (before ++ gap))
      (h : Tiles (before ++ (gap ++ lexeme)) ahead ts rest) :
      Tiles before (gap ++ (lexeme ++ ahead)) (t :: ts) rest

theorem Tiles.kind_ne_end {before cs rest : List Char} {ts : List Token}
    (h : Tiles before cs ts rest) : ∀ t ∈ ts, t.kind ≠ .endOfText := by
  induction h with
  | nil => exact List.forall_mem_nil _
  | cons _ hlex _ _ ih => exact List.forall_mem_cons.2 ⟨hlex.kind_ne_end, ih⟩

namespace Cursor

variable {c c' : Cursor} {gap cs : List Char}

/-! ## Places -/

/-- A cursor stands in a text, at the position that the text before it counts up to. -/
structure At (source : List Char) (c : Cursor) : Prop where
  text : c.text = source
  pos : c.pos = Position.behind c.behind.reverse

theorem at_ofSource (source : String) : At source.toList (ofSource source) := ⟨rfl, rfl⟩

theorem At.past {source piece rest : List Char} (h : At source c) (hrest : c.rest = piece ++ rest) :
    At source (c.past piece rest) := by
  constructor
  · rw [text_past, ← hrest]
    exact h.text
  · simp only [Cursor.past, List.reverse_append, List.reverse_reverse, ← Position.afterAll_behind,
      h.pos]

/-- An operation of the lexer. -/
inductive Call where
  | advance | skipGap | readString | readWord | next

/-- What an operation comes to, if it is one that reads, and where the cursor stands behind it. -/
def call (c : Cursor) : Call → Option (Except ReadError Token) × Cursor
  | .advance => (none, c.advance)
  | .skipGap => (none, c.skipGap)
  | .readString => (some c.readString.1, c.readString.2)
  | .readWord => (some (.ok c.readWord.1), c.readWord.2)
  | .next => (some c.next.1, c.next.2)

/-- The cursor behind operations in a row. An error does not end them. -/
def after (c : Cursor) (calls : List Call) : Cursor :=
  calls.foldl (fun c k => (c.call k).2) c

/-- An operation moves the cursor over a piece of the text ahead, be there an error or not. -/
theorem call_past (c : Cursor) (k : Call) :
    ∃ piece rest, c.rest = piece ++ rest ∧ (c.call k).2 = c.past piece rest := by
  cases k with
  | advance => exact ⟨_, _, (List.take_append_drop 1 c.rest).symm, rfl⟩
  | skipGap => exact ⟨_, _, (splitGap_append false c.rest).symm, rfl⟩
  | readString =>
    simp only [call, readString]
    split
    · next body hbody =>
      refine ⟨_, _, ?_, rfl⟩
      rw [List.append_assoc, written_append_rest hbody, List.take_append_drop]
    · exact ⟨_, _, (List.append_nil c.rest).symm, rfl⟩
  | readWord => exact ⟨_, _, (splitWord_append c.rest).symm, rfl⟩
  | next =>
    have hnext := next_spec c
    simp only [call]
    generalize c.next = out at hnext
    cases hnext with
    | token hrest => exact ⟨_, _, by rw [hrest, List.append_assoc], rfl⟩
    | endOfText => exact ⟨_, _, (List.append_nil c.rest).symm, rfl⟩
    | unterminated => exact ⟨_, _, (List.append_nil c.rest).symm, rfl⟩

theorem At.after {source : List Char} (h : At source c) (calls : List Call) :
    At source (c.after calls) := by
  induction calls generalizing c with
  | nil => exact h
  | cons k calls ih =>
    obtain ⟨piece, rest, hrest, hcall⟩ := call_past c k
    have hstep : At source (c.call k).2 := by
      rw [hcall]
      exact h.past hrest
    exact ih hstep

/-- A token that an operation reads stands at the cursor, or behind the gap ahead of it. -/
theorem pos_call {k : Call} {t : Token} (h : (c.call k).1 = some (.ok t)) :
    ∃ gap b, Gap false gap b ∧ gap <+: c.rest ∧ t.pos = c.pos.afterAll gap := by
  have hhere : t.pos = c.pos → ∃ gap b, Gap false gap b ∧ gap <+: c.rest ∧
      t.pos = c.pos.afterAll gap :=
    fun hpos => ⟨[], false, .nil false, List.nil_prefix, hpos⟩
  cases k with
  | advance | skipGap => cases h
  | readString =>
    simp only [call, readString] at h
    split at h
    · cases h
      exact hhere rfl
    · cases h
  | readWord =>
    cases h
    exact hhere rfl
  | next =>
    have hnext := next_spec c
    simp only [call] at h
    generalize c.next = out at hnext h
    cases hnext with
    | token hrest hgap hlex hpos =>
      cases h
      exact ⟨_, false, hgap, ⟨_, hrest.symm⟩, hpos⟩
    | @endOfText b hgap =>
      cases h
      exact ⟨c.rest, b, hgap, List.prefix_rfl, rfl⟩
    | unterminated => cases h

/-! ## All tokens -/

/-- The tokens ahead tile the text up to a gap at its end, or up to a string that is never closed. -/
theorem tiles_tokensWithin {source : List Char} {n : Nat} (hc : At source c)
    (hn : c.rest.length < n) :
    ∃ ts rest, Tiles c.behind.reverse c.rest ts rest ∧
      ((∃ b, Gap false rest b ∧
        c.tokensWithin n = ts.map .ok ++ [.ok ⟨.endOfText, "", Position.behind source⟩]) ∨
      ∃ before gap cs later, source = before ++ '"' :: cs ∧ rest = gap ++ '"' :: cs ∧
        Gap false gap false ∧ ¬ Closes cs ∧
        c.tokensWithin n =
          ts.map .ok ++ .error ⟨.unterminatedString, Position.behind before⟩ :: later) := by
  induction n generalizing c with
  | zero => exact absurd hn (Nat.not_lt_zero _)
  | succ n ih =>
    have hnext := next_spec c
    have htext : c.behind.reverse ++ c.rest = source := hc.text
    rw [tokensWithin]
    generalize c.next = out at hnext
    cases hnext with
    | @token gap lexeme rest t hrest hgap hlex hpos =>
      have hpos' : t.pos = Position.behind (c.behind.reverse ++ gap) := by
        rw [hpos, hc.pos, Position.afterAll_behind]
      have hlen : rest.length < n := by
        obtain ⟨ch, ds, rfl, -⟩ := hlex.begins
        simp only [hrest, List.length_append, List.length_cons] at hn
        omega
      have hpast : At source (c.past (gap ++ lexeme) rest) :=
        hc.past (by rw [hrest, List.append_assoc])
      obtain ⟨ts, rest', htiles, hstream⟩ := ih hpast hlen
      have hbehind : (c.past (gap ++ lexeme) rest).behind.reverse =
          c.behind.reverse ++ (gap ++ lexeme) := by
        rw [past, List.reverse_append, List.reverse_reverse]
      rw [hbehind] at htiles
      refine ⟨t :: ts, rest', hrest ▸ .cons hgap hlex hpos' htiles, ?_⟩
      simp only [if_neg hlex.kind_ne_end]
      rcases hstream with ⟨b, hb, hts⟩ | ⟨before, gap', cs, later, hsource, hrest', hgap', hopen, hts⟩
      · exact .inl ⟨b, hb, by rw [hts]; rfl⟩
      · exact .inr ⟨before, gap', cs, later, hsource, hrest', hgap', hopen, by rw [hts]; rfl⟩
    | @endOfText b hgap =>
      refine ⟨[], c.rest, .nil _ _, .inl ⟨b, hgap, ?_⟩⟩
      rw [hc.pos, Position.afterAll_behind, htext]
      rfl
    | @unterminated gap cs hrest hgap hopen =>
      refine ⟨[], c.rest, .nil _ _, .inr ⟨c.behind.reverse ++ gap, gap, cs,
        (c.past c.rest []).tokensWithin n, ?_, hrest, hgap, hopen, ?_⟩⟩
      · rw [← htext, hrest, List.append_assoc]
      · rw [hc.pos, Position.afterAll_behind]
        rfl

end Cursor

theorem mapM_id_error {ε α : Type} (as : List α) (e : ε) (xs : List (Except ε α)) :
    (as.map Except.ok ++ Except.error e :: xs).mapM id = .error e := by
  induction as with
  | nil => rfl
  | cons a as ih =>
    rw [List.map_cons, List.cons_append, List.mapM_cons, ih]
    rfl

/-- **Lexing loses nothing and locates everything.** Every source text is tokenized, with the end of
the text as the last token and nowhere else, or has a string that is opened and never closed, at
which the error stands. It consists of the lexemes of the tokens, each at its position, of gaps in
front of them, and of a gap at its end or in front of the open string. After all operations of the
lexer in a row the cursor stands in the text at the position that it says, and so does the token that
the next operation reads. -/
theorem tokens_tile_source :
    (∀ source : String,
      (∃ e before cs ts gap,
        tokenize source = .error e ∧ e.reason.message = "Unterminated string" ∧
        e.pos = Position.behind before ∧ source.toList = before ++ '"' :: cs ∧ ¬ Closes cs ∧
        Tiles [] source.toList ts (gap ++ '"' :: cs) ∧ Gap false gap false) ∨
      ∃ ts gap b,
        tokenize source = .ok (ts ++ [⟨.endOfText, "", Position.behind source.toList⟩]) ∧
        (∀ t ∈ ts, t.kind ≠ .endOfText) ∧ Tiles [] source.toList ts gap ∧ Gap false gap b) ∧
    ∀ (source : String) (calls : List Cursor.Call),
      let c := (Cursor.ofSource source).after calls
      c.text = source.toList ∧ c.pos = Position.behind c.behind.reverse ∧
      ∀ k t, (c.call k).1 = some (.ok t) →
        ∃ gap b, Gap false gap b ∧ gap <+: c.rest ∧
          t.pos = Position.behind (c.behind.reverse ++ gap) := by
  constructor
  · intro source
    have hat := Cursor.at_ofSource source
    obtain ⟨ts, rest, htiles, hstream⟩ := Cursor.tiles_tokensWithin hat (Nat.lt_succ_self _)
    rcases hstream with ⟨b, hgap, hts⟩ | ⟨before, gap, cs, later, hsource, rfl, hgap, hopen, hts⟩
    · refine .inr ⟨ts, rest, b, ?_, htiles.kind_ne_end, htiles, hgap⟩
      rw [tokenize_eq_ok, Cursor.tokens, hts, List.map_append, List.map_singleton]
    · refine .inl ⟨⟨.unterminatedString, Position.behind before⟩, before, cs, ts, gap, ?_, rfl, rfl,
        hsource, hopen, htiles, hgap⟩
      rw [tokenize, Cursor.tokens, hts, mapM_id_error]
  · intro source calls c
    have hat : Cursor.At source.toList c := (Cursor.at_ofSource source).after calls
    refine ⟨hat.text, hat.pos, fun k t ht => ?_⟩
    obtain ⟨gap, b, hgap, hprefix, hpos⟩ := Cursor.pos_call ht
    exact ⟨gap, b, hgap, hprefix, by rw [hpos, hat.pos, Position.afterAll_behind]⟩

end AmbLisp
