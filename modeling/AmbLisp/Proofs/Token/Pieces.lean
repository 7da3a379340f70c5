import AmbLisp.Token.Lexer

/-!
# The pieces of a text

What gaps, strings and lexemes are, told without the lexer: `Gap`, `Unescapes` and `Token.Lexes`.
Each function that cuts a piece off a text cuts off one of these, and as much of it as there is
(`splitGap_behind`, `splitWord_append_of`, `stringBody?_of_unescapes`). Any text begins with such a
piece (`gap_splitGap`, `exists_lexes_or_open`).
-/

namespace AmbLisp

/-! ## Words -/

/-- Begins with nothing that prolongs a bare word. -/
def EndsWord (cs : List Char) : Prop :=
  ∀ c ∈ cs.head?, isWordChar c = false

theorem endsWord_nil : EndsWord [] := nofun

theorem endsWord_cons {c : Char} (h : isWordChar c = false) (cs : List Char) :
    EndsWord (c :: cs) := by
  rintro _ ⟨⟩
  exact h

/-- Begins a gap. -/
def opensGap (c : Char) : Bool :=
  Text.isBlank c || c == ',' || c == ';'

theorem isWordChar_of {c : Char} (hgap : opensGap c = false) (hp : punctuation? c = none)
    (hq : c ≠ '"') : isWordChar c = true := by
  simp only [opensGap, Bool.or_eq_false_iff, beq_eq_false_iff_ne] at hgap
  unfold punctuation? at hp
  split at hp
  case h_6 => simp_all [isWordChar, isDelimiter]
  all_goals cases hp

theorem opensGap_of_isWordChar {c : Char} (h : isWordChar c = true) : opensGap c = false := by
  simp only [isWordChar, isDelimiter, Bool.and_eq_true, Bool.not_eq_true'] at h
  simp_all [opensGap]

theorem punctuation?_of_isWordChar {c : Char} (h : isWordChar c = true) :
    punctuation? c = none := by
  unfold punctuation?
  split <;> first | rfl | exact absurd h (by decide)

theorem splitGap_of_not {c : Char} (h : opensGap c = false) (cs : List Char) :
    splitGap false (c :: cs) = ([], c :: cs) := by
  simp only [opensGap] at h
  simp [splitGap, h]

theorem splitWord_append_of {w rest : List Char} (hw : ∀ c ∈ w, isWordChar c = true)
    (hr : EndsWord rest) : splitWord (w ++ rest) = (w, rest) := by
  unfold splitWord
  rw [List.takeWhile_append_of_pos hw, List.dropWhile_append_of_pos hw]
  cases rest with
  | nil => simp
  | cons c rest => simp [hr c rfl]

/-- A word ends where no character prolongs it. -/
theorem endsWord_dropWhile (cs : List Char) : EndsWord (cs.dropWhile isWordChar) := by
  intro c hc
  have := List.head?_dropWhile_not isWordChar cs
  rw [Option.mem_def.1 hc] at this
  simpa using this

/-! ## Gaps -/

/-- Blanks, commas and comments in a row. A comment goes from a semicolon to the end of its line; the
flags say whether the row begins, and whether it ends, inside of one. -/
inductive Gap : Bool → List Char → Bool → Prop
  | nil (b : Bool) : Gap b [] b
  | blank {c : Char} {cs : List Char} {b : Bool} (hc : Text.isBlank c = true ∨ c = ',')
      (h : Gap false cs b) : Gap false (c :: cs) b
  | semicolon {cs : List Char} {b : Bool} (h : Gap true cs b) : Gap false (';' :: cs) b
  | comment {c : Char} {cs : List Char} {b : Bool} (hc : c ≠ '\n') (h : Gap true cs b) :
      Gap true (c :: cs) b
  | lineFeed {cs : List Char} {b : Bool} (h : Gap false cs b) : Gap true ('\n' :: cs) b

variable {b b' : Bool} {gap : List Char}

theorem splitGap_comment {c : Char} (hc : c ≠ '\n') (cs : List Char) :
    splitGap true (c :: cs) = (c :: (splitGap true cs).1, (splitGap true cs).2) := by
  have hinside : (c != '\n') = true := bne_iff_ne.2 hc
  simp [splitGap, hinside]

theorem splitGap_lineFeed (b : Bool) (cs : List Char) :
    splitGap b ('\n' :: cs) = ('\n' :: (splitGap false cs).1, (splitGap false cs).2) := by
  cases b <;> rfl

theorem splitGap_semicolon (cs : List Char) :
    splitGap false (';' :: cs) = (';' :: (splitGap true cs).1, (splitGap true cs).2) := rfl

theorem splitGap_blank_or_comma {c : Char} (hc : Text.isBlank c = true ∨ c = ',') (cs : List Char) :
    splitGap false (c :: cs) = (c :: (splitGap false cs).1, (splitGap false cs).2) := by
  have hsemi : (c == ';') = false := by
    rw [beq_eq_false_iff_ne]
    rintro rfl
    rcases hc with hc | hc <;> cases hc
  have hopens : (Text.isBlank c || c == ',') = true := by simpa using hc
  simp [splitGap, hsemi, hopens]

/-- **A gap in front of a text** is cut off as a whole, and with it what the text goes on with. -/
theorem splitGap_behind (h : Gap b gap b') (cs : List Char) :
    splitGap b (gap ++ cs) = (gap ++ (splitGap b' cs).1, (splitGap b' cs).2) := by
  induction h with
  | nil b => rfl
  | blank hc _ ih => rw [List.cons_append, splitGap_blank_or_comma hc, ih, List.cons_append]
  | semicolon _ ih => rw [List.cons_append, splitGap_semicolon, ih, List.cons_append]
  | comment hc _ ih => rw [List.cons_append, splitGap_comment hc, ih, List.cons_append]
  | lineFeed _ ih => rw [List.cons_append, splitGap_lineFeed, ih, List.cons_append]

/-- Nothing is left of a gap. -/
theorem splitGap_gap (h : Gap b gap b') : splitGap b gap = (gap, []) := by
  have := splitGap_behind h []
  rwa [List.append_nil, show splitGap b' [] = ([], []) from rfl, List.append_nil] at this

/-- A gap ends where none could begin. -/
theorem splitGap_behind_of (h : Gap b gap false) {c : Char} (hc : opensGap c = false)
    (cs : List Char) : splitGap b (gap ++ c :: cs) = (gap, c :: cs) := by
  rw [splitGap_behind h, splitGap_of_not hc, List.append_nil]

/-- What is cut off is a gap. It ends where none could begin, or with the text, then perhaps inside a
comment. -/
theorem gap_splitGap (b : Bool) (cs : List Char) :
    ∃ b', Gap b (splitGap b cs).1 b' ∧
      ∀ c ∈ (splitGap b cs).2.head?, b' = false ∧ opensGap c = false := by
  induction cs generalizing b with
  | nil => exact ⟨b, .nil b, nofun⟩
  | cons c cs ih =>
    by_cases hline : c = '\n'
    · subst hline
      obtain ⟨b', hgap, hend⟩ := ih false
      rw [splitGap_lineFeed]
      cases b with
      | true => exact ⟨b', .lineFeed hgap, hend⟩
      | false => exact ⟨b', .blank (.inl rfl) hgap, hend⟩
    cases b with
    | true =>
      obtain ⟨b', hgap, hend⟩ := ih true
      rw [splitGap_comment hline]
      exact ⟨b', .comment hline hgap, hend⟩
    | false =>
      by_cases hblank : Text.isBlank c = true ∨ c = ','
      · obtain ⟨b', hgap, hend⟩ := ih false
        rw [splitGap_blank_or_comma hblank]
        exact ⟨b', .blank hblank hgap, hend⟩
      by_cases hsemi : c = ';'
      · subst hsemi
        obtain ⟨b', hgap, hend⟩ := ih true
        rw [splitGap_semicolon]
        exact ⟨b', .semicolon hgap, hend⟩
      · have hnot : opensGap c = false := by
          rw [not_or, Bool.not_eq_true] at hblank
          simp [opensGap, hblank.1, hblank.2, hsemi]
        rw [splitGap_of_not hnot]
        refine ⟨false, .nil false, ?_⟩
        rintro _ ⟨⟩
        exact ⟨rfl, hnot⟩

/-! ## Strings -/

/-- What stands between two quotes, and what it holds: each backslash stands with the character
behind it, and each other character, which cannot be a quote, for itself. -/
inductive Unescapes : List Char → List Char → Prop
  | nil : Unescapes [] []
  | plain {c : Char} {cs ds : List Char} (hquote : c ≠ '"') (hback : c ≠ '\\')
      (h : Unescapes cs ds) : Unescapes (c :: cs) (c :: ds)
  | escape (c : Char) {cs ds : List Char} (h : Unescapes cs ds) :
      Unescapes ('\\' :: c :: cs) (unescape c :: ds)

variable {cs inside content : List Char}

/-- A string that an opening quote begins is closed: a quote comes that no backslash takes away. -/
def Closes (cs : List Char) : Prop :=
  ∃ inside content rest, Unescapes inside content ∧ cs = inside ++ '"' :: rest

theorem stringBody?_of_unescapes (h : Unescapes inside content) (rest : List Char) :
    stringBody? (inside ++ '"' :: rest) = some ⟨content, inside ++ ['"'], rest⟩ := by
  induction h with
  | nil => rfl
  | plain hquote hback _ ih =>
    rw [List.cons_append, stringBody?.eq_4, ih]
    · rfl
    · exact hquote
    · exact fun _ _ hc => absurd hc hback
  | escape c _ ih =>
    rw [List.cons_append, List.cons_append, stringBody?, ih]
    rfl

theorem unescapes_of_stringBody? {body : StringBody} (h : stringBody? cs = some body) :
    ∃ inside, Unescapes inside body.content ∧ cs = inside ++ '"' :: body.rest := by
  fun_induction stringBody? cs generalizing body with
  | case1 => cases h
  | case2 cs =>
    obtain rfl := Option.some.inj h
    exact ⟨[], .nil, rfl⟩
  | case3 c cs ih =>
    obtain ⟨body', hbody, rfl⟩ := Option.map_eq_some_iff.1 h
    obtain ⟨inside, hinside, hcs⟩ := ih hbody
    exact ⟨'\\' :: c :: inside, .escape c hinside, by rw [hcs]; rfl⟩
  | case4 c cs hquote hescape ih =>
    obtain ⟨body', hbody, rfl⟩ := Option.map_eq_some_iff.1 h
    obtain ⟨inside, hinside, hcs⟩ := ih hbody
    have hback : c ≠ '\\' := by
      rintro rfl
      cases cs with
      | nil => cases hbody
      | cons d ds => exact hescape d ds rfl rfl
    exact ⟨c :: inside, .plain hquote hback hinside, by rw [hcs]; rfl⟩

theorem stringBody?_eq_none_iff : stringBody? cs = none ↔ ¬ Closes cs := by
  constructor
  · rintro h ⟨inside, content, rest, hinside, rfl⟩
    rw [stringBody?_of_unescapes hinside] at h
    cases h
  · intro h
    cases hbody : stringBody? cs with
    | none => rfl
    | some body =>
      obtain ⟨inside, hinside, hcs⟩ := unescapes_of_stringBody? hbody
      exact absurd ⟨inside, body.content, body.rest, hinside, hcs⟩ h

/-! ## Lexemes -/

/-- A token is what this lexeme says in front of this text. The lexeme of a string unescapes to the
text of the token, and any other lexeme is the text of the token; a word is not broken off. -/
inductive Token.Lexes : Token → List Char → List Char → Prop
  | punctuation {c : Char} {kind : TokenKind} (hc : punctuation? c = some kind) (p : Position)
      (rest : List Char) : Lexes ⟨kind, String.singleton c, p⟩ [c] rest
  | string {inside content : List Char} (h : Unescapes inside content) (p : Position)
      (rest : List Char) :
      Lexes ⟨.string, String.ofList content, p⟩ ('"' :: (inside ++ ['"'])) rest
  | word {w rest : List Char} (hne : w ≠ []) (hw : ∀ c ∈ w, isWordChar c = true)
      (hends : EndsWord rest) (p : Position) : Lexes ⟨wordKind w, String.ofList w, p⟩ w rest

/-- Where no gap is, there is a token, or a string that is never closed. -/
theorem exists_lexes_or_open {c : Char} (hc : opensGap c = false) (cs : List Char) (p : Position) :
    (∃ t lexeme rest, c :: cs = lexeme ++ rest ∧ Token.Lexes t lexeme rest ∧ t.pos = p) ∨
      c = '"' ∧ ¬ Closes cs := by
  cases hp : punctuation? c with
  | some kind => exact .inl ⟨_, [c], cs, rfl, .punctuation hp p cs, rfl⟩
  | none =>
    by_cases hquote : c = '"'
    · subst hquote
      by_cases hclosed : Closes cs
      · obtain ⟨inside, content, rest, hinside, rfl⟩ := hclosed
        exact .inl ⟨_, '"' :: (inside ++ ['"']), rest, by simp, .string hinside p rest, rfl⟩
      · exact .inr ⟨rfl, hclosed⟩
    · have hword : ∀ d ∈ c :: cs.takeWhile isWordChar, isWordChar d = true :=
        List.forall_mem_cons.2 ⟨isWordChar_of hc hp hquote, List.all_eq_true.1 List.all_takeWhile⟩
      have hlex := Token.Lexes.word (List.cons_ne_nil _ _) hword (endsWord_dropWhile cs) p
      exact .inl ⟨_, _, _, by simp, hlex, rfl⟩

namespace Token.Lexes

variable {t : Token} {lexeme rest : List Char}

/-- A lexeme begins with no gap. -/
theorem begins (h : t.Lexes lexeme rest) : ∃ c cs, lexeme = c :: cs ∧ opensGap c = false := by
  cases h with
  | @punctuation c kind hc =>
    refine ⟨c, [], rfl, ?_⟩
    unfold punctuation? at hc
    split at hc <;> first | rfl | cases hc
  | string => exact ⟨'"', _, rfl, rfl⟩
  | word hne hw =>
    obtain ⟨c, cs, rfl⟩ := List.exists_cons_of_ne_nil hne
    exact ⟨c, cs, rfl, opensGap_of_isWordChar (hw c List.mem_cons_self)⟩

theorem kind_ne_end (h : t.Lexes lexeme rest) : t.kind ≠ .endOfText := by
  cases h with
  | punctuation hc =>
    unfold punctuation? at hc
    split at hc <;> cases hc <;> nofun
  | string => nofun
  | word =>
    dsimp only [wordKind]
    split
    · nofun
    · split
      · nofun
      · split <;> nofun

/-- What a lexeme says does not hang on where it stands. -/
theorem moved (h : t.Lexes lexeme rest) (p : Position) :
    Lexes { t with pos := p } lexeme rest := by
  cases h with
  | punctuation hc _ => exact .punctuation hc p rest
  | string h _ => exact .string h p rest
  | word hne hw hends _ => exact .word hne hw hends p

/-- What a lexeme says does not hang on what follows, as long as that does not prolong it. -/
theorem before (h : t.Lexes lexeme rest) {rest' : List Char} (hends : EndsWord rest → EndsWord rest') :
    t.Lexes lexeme rest' := by
  cases h with
  | punctuation hc p => exact .punctuation hc p rest'
  | string h p => exact .string h p rest'
  | word hne hw hends' p => exact .word hne hw (hends hends') p

end Token.Lexes

end AmbLisp
