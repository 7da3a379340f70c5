import AmbLisp.Proofs.Token.Lexing
import AmbLisp.Proofs.Value.Readable

/-!
# The tokens of a printed value

`lexemes` lists what the lexer finds in the text of a readable value. `reads_print`: it finds
exactly that, and stops at the end of the text, whatever follows, as long as that does not prolong a
word.
-/

namespace AmbLisp

/-! ## Strings and numerals -/

/-- What has been escaped is found again. -/
theorem unescapes_escape (cs : List Char) : Unescapes (cs.flatMap escapeInString) cs := by
  induction cs with
  | nil => exact .nil
  | cons c cs ih =>
    -- a character behind a backslash stands for `c`
    have hescaped : ∀ d, unescape d = c → escapeInString c = ['\\', d] →
        Unescapes ((c :: cs).flatMap escapeInString) (c :: cs) := by
      intro d hd he
      rw [List.flatMap_cons, he]
      exact hd ▸ .escape d ih
    by_cases h₁ : c = '\\'
    · exact hescaped '\\' (by rw [h₁]; rfl) (by rw [h₁]; rfl)
    by_cases h₂ : c = '"'
    · exact hescaped '"' (by rw [h₂]; rfl) (by rw [h₂]; rfl)
    by_cases h₃ : c = '\n'
    · exact hescaped 'n' (by rw [h₃]; rfl) (by rw [h₃]; rfl)
    by_cases h₄ : c = '\t'
    · exact hescaped 't' (by rw [h₄]; rfl) (by rw [h₄]; rfl)
    have he : escapeInString c = [c] := by
      unfold escapeInString
      split <;> first | rfl | contradiction
    rw [List.flatMap_cons, he]
    exact .plain h₂ h₁ ih

theorem unsigned_text (n : Int) :
    Integer.unsigned (Integer.text n).toList = Nat.toDigits 10 n.natAbs := by
  rw [Integer.text, String.toList_ofList]
  split
  · rfl
  · exact Integer.unsigned_toDigits _

theorem isNumeral_text (n : Int) : Integer.isNumeral (Integer.text n).toList = true := by
  rw [Integer.isNumeral, unsigned_text, List.isEmpty_eq_false_iff.2 Nat.toDigits_ne_nil,
    Bool.not_false, Bool.true_and, List.all_eq_true]
  exact fun c hc => Nat.isDigit_of_mem_toDigits (by decide) (by decide) hc

theorem isWordChar_of_isDigit {c : Char} (h : c.isDigit = true) : isWordChar c = true := by
  have hdelim : isDelimiter c = false := by
    rw [isDelimiter, List.contains_eq_mem, decide_eq_false_iff_not]
    intro hc
    have hnone : (['(', ')', '[', ']', '\'', '"', ';', ','].all fun c => !c.isDigit) = true := by
      decide
    have := List.all_eq_true.1 hnone c hc
    rw [h] at this
    cases this
  have hblank : Text.isBlank c = false := by
    simp only [Char.isDigit, Bool.and_eq_true, decide_eq_true_eq] at h
    have h₁ : 0x30 ≤ c.toNat := h.1
    have h₂ : c.toNat ≤ 0x39 := h.2
    simp only [Text.isBlank, Bool.or_eq_false_iff, Bool.and_eq_false_iff, decide_eq_false_iff_not,
      beq_eq_false_iff_ne]
    omega
  rw [isWordChar, hdelim, hblank]
  rfl

theorem isWordChar_text {n : Int} : ∀ c ∈ (Integer.text n).toList, isWordChar c = true := by
  intro c hc
  rw [Integer.text, String.toList_ofList, List.mem_append] at hc
  rcases hc with hc | hc
  · split at hc
    · rw [List.mem_singleton.1 hc]
      decide
    · cases hc
  · exact isWordChar_of_isDigit (Nat.isDigit_of_mem_toDigits (by decide) (by decide) hc)

/-! ## Lexemes -/

namespace Value

mutual

/-- What the lexer finds in the text of a value. -/
def lexemes : Value → List Lexeme
  | int n => [(.integer, Integer.text n)]
  | bool true => [(.boolean, "#t")]
  | bool false => [(.boolean, "#f")]
  | sym name => [(.symbol, name)]
  | str text => [(.string, text)]
  | nil => [(.nil, "#nil")]
  | list items =>
    if isQuotation items then (.quote, "'") :: (lexemesAll items).drop 1
    else (.openParen, "(") :: lexemesAll items ++ [(.closeParen, ")")]
  | prim _ | closure .. => []

/-- What the lexer finds in the texts of values. -/
def lexemesAll : List Value → List Lexeme
  | [] => []
  | v :: vs => lexemes v ++ lexemesAll vs

end

theorem lexemes_quotation (v : Value) : (quotation v).lexemes = (.quote, "'") :: v.lexemes := by
  simp [quotation, lexemes, lexemesAll, isQuotation]

theorem lexemes_list {vs : List Value} (h : isQuotation vs = false) :
    (list vs).lexemes = (.openParen, "(") :: lexemesAll vs ++ [(.closeParen, ")")] := by
  simp [lexemes, h]

/-- The texts of values, each behind a space. -/
def spacedBehind (vs : List Value) : List Char :=
  vs.flatMap fun v => ' ' :: v.print.toList

theorem toList_print_quotation (v : Value) :
    (quotation v).print.toList = '\'' :: v.print.toList := by
  simp [quotation, print, write, writeAll, isQuotation, spaced]

theorem toList_spaced (v : Value) (vs : List Value) :
    (spaced (writeAll .readable (v :: vs))).toList = v.print.toList ++ spacedBehind vs := by
  induction vs generalizing v with
  | nil => simp [spaced, writeAll, print, spacedBehind]
  | cons u vs ih =>
    have := ih u
    simp only [spaced, writeAll, String.intercalate_cons_cons, String.toList_append] at this ⊢
    rw [List.append_assoc, this]
    rfl

theorem toList_print_list {vs : List Value} (h : isQuotation vs = false) :
    (list vs).print.toList = '(' :: (spaced (writeAll .readable vs)).toList ++ [')'] := by
  simp [print, write, h]

end Value

/-! ## Reading printed values -/

/-- A value whose text is a single bare word. -/
structure Spelled (v : Value) : Prop where
  nonempty : v.print.toList ≠ []
  word : ∀ c ∈ v.print.toList, isWordChar c = true
  lexemes : v.lexemes = [(wordKind v.print.toList, v.print)]

theorem spelled_int (n : Int) : Spelled (.int n) where
  nonempty := by
    intro h
    have := isNumeral_text n
    rw [show (Integer.text n).toList = [] from h] at this
    cases this
  word := isWordChar_text
  lexemes := by
    have hkind : wordKind (Integer.text n).toList = .integer := if_pos (isNumeral_text n)
    rw [show (Value.int n).print = Integer.text n from rfl, hkind]
    rfl

theorem spelled_bool (b : Bool) : Spelled (.bool b) := by
  cases b <;> exact ⟨nofun, List.all_eq_true.1 (by decide), rfl⟩

theorem spelled_nil : Spelled .nil :=
  ⟨nofun, List.all_eq_true.1 (by decide), rfl⟩

theorem spelled_sym {name : String} (h : IsSymbolName name) : Spelled (.sym name) := by
  rw [← String.ofList_toList (s := name), isSymbolName_iff] at h
  refine ⟨h.1, h.2.1, ?_⟩
  rw [show (Value.sym name).print = name from rfl, h.2.2]
  rfl

/-- The text of a readable value does not begin with a gap. -/
theorem Readable.begins {v : Value} (h : Readable v) :
    ∃ c cs, v.print.toList = c :: cs ∧ opensGap c = false := by
  have hspelled : Spelled v → ∃ c cs, v.print.toList = c :: cs ∧ opensGap c = false := by
    intro hs
    obtain ⟨c, cs, hc⟩ := List.exists_cons_of_ne_nil hs.nonempty
    exact ⟨c, cs, hc, opensGap_of_isWordChar (hs.word c (by rw [hc]; exact List.mem_cons_self))⟩
  cases h with
  | int => exact hspelled (spelled_int _)
  | bool b => exact hspelled (spelled_bool b)
  | nil => exact hspelled spelled_nil
  | sym h => exact hspelled (spelled_sym h)
  | str text => exact ⟨'"', _, String.toList_ofList, by decide⟩
  | @list vs _ =>
    cases hq : Value.isQuotation vs with
    | true =>
      obtain ⟨v, rfl⟩ := Value.eq_of_isQuotation hq
      exact ⟨'\'', _, Value.toList_print_quotation v, by decide⟩
    | false => exact ⟨'(', _, Value.toList_print_list hq, by decide⟩

namespace Cursor

variable {c : Cursor} {rest : List Char}

theorem Sees.of_rest {v : Value} (hv : Readable v) (h : c.rest = v.print.toList ++ rest) :
    c.Sees (v.print.toList ++ rest) := by
  obtain ⟨ch, cs, hcs, hgap⟩ := hv.begins
  rw [hcs, List.cons_append] at h ⊢
  exact sees_of_not h hgap

theorem Sees.of_space {v : Value} (hv : Readable v) (h : c.rest = ' ' :: (v.print.toList ++ rest)) :
    c.Sees (v.print.toList ++ rest) := by
  obtain ⟨ch, cs, hcs, hgap⟩ := hv.begins
  rw [Sees, h, splitGap_blank_or_comma (.inl rfl), hcs, List.cons_append, splitGap_of_not hgap]

/-- The lexemes of a value are read off its text, whatever follows that ends a word. -/
def ReadsPrint (v : Value) : Prop :=
  ∀ {c : Cursor} {rest : List Char}, c.Sees (v.print.toList ++ rest) → EndsWord rest →
    ∃ c', c.Reads v.lexemes c' ∧ c'.rest = rest

theorem readsPrint_of_spelled {v : Value} (h : Spelled v) : ReadsPrint v := by
  intro c rest hs hr
  have hlex := Token.Lexes.word h.nonempty h.word hr c.pos
  obtain ⟨p, c', hn, hrest⟩ := next_lexeme hs hlex
  refine ⟨c', ?_, hrest⟩
  have := Reads.one hn hlex.kind_ne_end
  rwa [Token.lexeme, String.ofList_toList, ← h.lexemes] at this

theorem readsPrint_str (text : String) : ReadsPrint (.str text) := by
  intro c rest hs _
  have hlex := Token.Lexes.string (unescapes_escape text.toList) c.pos rest
  have htext : (Value.str text).print.toList =
      '"' :: (text.toList.flatMap escapeInString ++ ['"']) := by
    simp [Value.print, Value.write, quoteString]
  rw [htext] at hs
  obtain ⟨p, c', hn, hrest⟩ := next_lexeme hs hlex
  refine ⟨c', ?_, hrest⟩
  have := Reads.one hn hlex.kind_ne_end
  rwa [Token.lexeme, String.ofList_toList] at this

theorem endsWord_spacedBehind (vs : List Value) :
    EndsWord (Value.spacedBehind vs ++ ')' :: rest) := by
  cases vs with
  | nil => exact endsWord_cons (by decide) _
  | cons v vs => exact endsWord_cons (by decide) _

/-- The rest of a list, behind its first element. -/
theorem reads_spacedBehind {vs : List Value} (hv : ∀ v ∈ vs, Readable v)
    (ih : ∀ v ∈ vs, ReadsPrint v) {c : Cursor}
    (h : c.rest = Value.spacedBehind vs ++ ')' :: rest) :
    ∃ c', c.Reads (Value.lexemesAll vs) c' ∧ c'.rest = ')' :: rest := by
  induction vs generalizing c with
  | nil => exact ⟨c, .nil c, h⟩
  | cons v vs ih' =>
    rw [List.forall_mem_cons] at hv ih
    have hc : c.rest = ' ' :: (v.print.toList ++ (Value.spacedBehind vs ++ ')' :: rest)) := by
      rw [h]
      simp [Value.spacedBehind]
    obtain ⟨c₁, hread, hrest⟩ := ih.1 (Sees.of_space hv.1 hc) (endsWord_spacedBehind vs)
    obtain ⟨c₂, hread', hrest'⟩ := ih' hv.2 ih.2 hrest
    exact ⟨c₂, hread.append hread', hrest'⟩

theorem readsPrint_quotation {v : Value} (hv : Readable v) (ih : ReadsPrint v) :
    ReadsPrint v.quotation := by
  intro c rest hs hr
  rw [Value.toList_print_quotation, List.cons_append] at hs
  obtain ⟨p, c₁, hn, hrest⟩ := next_punctuation hs rfl
  obtain ⟨c₂, hread, hrest'⟩ := ih (Sees.of_rest hv hrest) hr
  refine ⟨c₂, ?_, hrest'⟩
  rw [Value.lexemes_quotation]
  exact .cons hn nofun hread

theorem readsPrint_list {vs : List Value} (hq : Value.isQuotation vs = false)
    (hv : ∀ v ∈ vs, Readable v) (ih : ∀ v ∈ vs, ReadsPrint v) : ReadsPrint (.list vs) := by
  intro c rest hs hr
  rw [Value.toList_print_list hq, List.cons_append, List.cons_append, List.append_assoc] at hs
  obtain ⟨p, c₁, hn, hrest⟩ := next_punctuation hs rfl
  -- the elements, up to the closing parenthesis
  have helements : ∃ c₂, c₁.Reads (Value.lexemesAll vs) c₂ ∧ c₂.rest = ')' :: rest := by
    cases vs with
    | nil => exact ⟨c₁, .nil c₁, hrest⟩
    | cons v vs =>
      rw [List.forall_mem_cons] at hv ih
      rw [Value.toList_spaced, List.append_assoc] at hrest
      obtain ⟨c₂, hread, hrest₂⟩ := ih.1 (Sees.of_rest hv.1 hrest) (endsWord_spacedBehind vs)
      obtain ⟨c₃, hread', hrest₃⟩ := reads_spacedBehind hv.2 ih.2 hrest₂
      exact ⟨c₃, hread.append hread', hrest₃⟩
  obtain ⟨c₂, hread, hrest₂⟩ := helements
  obtain ⟨p', c₃, hn', hrest₃⟩ := next_punctuation (sees_of_not hrest₂ (by decide)) rfl
  refine ⟨c₃, ?_, hrest₃⟩
  rw [Value.lexemes_list hq]
  exact .cons hn nofun (hread.append (.one hn' nofun))

/-- **The lexer finds the lexemes of a readable value in its text**, and stops behind it. -/
theorem reads_print {v : Value} (h : Readable v) : ReadsPrint v := by
  induction h with
  | int => exact readsPrint_of_spelled (spelled_int _)
  | bool b => exact readsPrint_of_spelled (spelled_bool b)
  | nil => exact readsPrint_of_spelled spelled_nil
  | str text => exact readsPrint_str text
  | sym h => exact readsPrint_of_spelled (spelled_sym h)
  | @list vs hv ih =>
    cases hq : Value.isQuotation vs with
    | true =>
      obtain ⟨v, rfl⟩ := Value.eq_of_isQuotation hq
      exact readsPrint_quotation (hv v (by simp)) (ih v (by simp))
    | false => exact readsPrint_list hq hv ih

end Cursor

/-- The tokens of the text of a readable value are its lexemes and the end of the text. -/
theorem Readable.tokens {v : Value} (h : Readable v) :
    ∃ (ts : List Token) (last : Token), ts.map Token.lexeme = v.lexemes ∧
      last.kind = .endOfText ∧
      (Cursor.ofSource v.print).tokens = ts.map .ok ++ [.ok last] := by
  have hc : (Cursor.ofSource v.print).rest = v.print.toList ++ [] := (List.append_nil _).symm
  obtain ⟨c', hread, hrest⟩ := Cursor.reads_print h (Cursor.Sees.of_rest h hc) endsWord_nil
  exact hread.tokens (by rw [Cursor.Sees, hrest]; rfl)

end AmbLisp
