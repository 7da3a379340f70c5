import AmbLisp.Proofs.Reader.RoundTrip
import AmbLisp.Proofs.Value.Atoms

/-!
# The characters of what is read

The strings that are read from a text are made of the characters of this text and of blanks: of those
that an escape stands for, and of the space between two words. So what holds of blanks and of the
characters of a text, holds of the characters of all strings in what is read (`spells_of_parse`,
`spells_of_parseProgram`).
-/

namespace AmbLisp

/-- All characters of a text have a property. -/
def Text.MadeOf (P : Char → Prop) (text : String) : Prop :=
  ∀ ch ∈ text.toList, P ch

/-- If the value is a string, all its characters have a property. -/
def Value.Spells (P : Char → Prop) : Value → Prop
  | str text => Text.MadeOf P text
  | _ => True

variable {P : Char → Prop}

theorem Text.madeOf_intercalate {sep : String} (hsep : Text.MadeOf P sep) {texts : List String}
    (h : ∀ text ∈ texts, Text.MadeOf P text) : Text.MadeOf P (sep.intercalate texts) := by
  induction texts with
  | nil =>
    intro ch hch
    cases hch
  | cons text texts ih =>
    rw [List.forall_mem_cons] at h
    cases texts with
    | nil =>
      rw [String.intercalate_singleton]
      exact h.1
    | cons text' texts =>
      intro ch hch
      rw [String.intercalate_cons_cons, String.toList_append, String.toList_append, List.mem_append,
        List.mem_append] at hch
      rcases hch with (hch | hch) | hch
      · exact h.1 ch hch
      · exact hsep ch hch
      · exact ih h.2 ch hch

variable (hblank : ∀ ch, Text.isBlank ch = true → P ch)

include hblank

/-! ## Tokens -/

theorem of_unescape {ch : Char} (h : P ch) : P (unescape ch) := by
  unfold unescape
  split
  · exact hblank _ rfl
  · exact hblank _ rfl
  · exact h

theorem of_unescapes {inside content : List Char} (h : Unescapes inside content)
    (hinside : ∀ ch ∈ inside, P ch) : ∀ ch ∈ content, P ch := by
  induction h with
  | nil => exact List.forall_mem_nil _
  | plain _ _ _ ih =>
    rw [List.forall_mem_cons] at hinside
    exact List.forall_mem_cons.2 ⟨hinside.1, ih hinside.2⟩
  | escape c _ ih =>
    rw [List.forall_mem_cons, List.forall_mem_cons] at hinside
    exact List.forall_mem_cons.2 ⟨of_unescape hblank hinside.2.1, ih hinside.2.2⟩

theorem madeOf_of_lexes {t : Token} {lexeme rest : List Char} (h : t.Lexes lexeme rest)
    (hlexeme : ∀ ch ∈ lexeme, P ch) : Text.MadeOf P t.text := by
  cases h with
  | punctuation =>
    rw [Text.MadeOf, String.toList_singleton]
    exact hlexeme
  | string hinside =>
    rw [Text.MadeOf, String.toList_ofList]
    rw [List.forall_mem_cons, List.forall_mem_append] at hlexeme
    exact of_unescapes hblank hinside hlexeme.2.1
  | word =>
    rw [Text.MadeOf, String.toList_ofList]
    exact hlexeme

/-- What is read, and what is left, is made of characters with a property. -/
def Cursor.Spelled (P : Char → Prop) (out : Except ReadError Token × Cursor) : Prop :=
  (∀ ch ∈ out.2.rest, P ch) ∧ ∀ t, out.1 = .ok t → Text.MadeOf P t.text

/-- **The next token** is made of characters that lie ahead, and of blanks. -/
theorem Cursor.spelled_next (c : Cursor) (h : ∀ ch ∈ c.rest, P ch) : Spelled P c.next := by
  have hnext := next_spec c
  generalize c.next = out at hnext
  cases hnext with
  | token hrest _ hlex =>
    rw [hrest, List.forall_mem_append, List.forall_mem_append] at h
    refine ⟨h.2.2, ?_⟩
    rintro _ ⟨⟩
    exact madeOf_of_lexes hblank hlex h.2.1
  | endOfText =>
    refine ⟨List.forall_mem_nil _, ?_⟩
    rintro _ ⟨⟩ ch hch
    cases hch
  | unterminated => exact ⟨List.forall_mem_nil _, nofun⟩

theorem madeOf_of_tokenize {source : String} (h : Text.MadeOf P source) {ts : List Token}
    (hts : tokenize source = .ok ts) : ∀ t ∈ ts, Text.MadeOf P t.text :=
  of_tokenize_from (I := fun c => ∀ ch ∈ c.rest, P ch) (Cursor.spelled_next hblank) h hts

/-! ## Values -/

namespace Grammar

omit hblank in
theorem spells_of_atom? {t : Token} {v : Value} (ht : Text.MadeOf P t.text) (h : atom? t = some v) :
    v.MadeOf (Value.Spells P) := by
  unfold atom? at h
  split at h
  · cases h
    trivial
  · cases h
    trivial
  · cases h
    exact ht
  · cases h
    trivial
  · simp only at h
    split at h
    · cases h
      trivial
    · cases h
  · cases h

theorem spells_words {ts : List Token} (h : ∀ t ∈ ts, Text.MadeOf P t.text) :
    (Value.str (" ".intercalate (ts.map Token.text))).MadeOf (Value.Spells P) := by
  have hspace : Text.MadeOf P " " := by
    intro ch hch
    obtain rfl := List.mem_singleton.1 hch
    exact hblank _ rfl
  exact Text.madeOf_intercalate hspace (List.forall_mem_map.2 h)

omit hblank in
theorem spells_quotation {v : Value} (h : v.MadeOf (Value.Spells P)) :
    v.quotation.MadeOf (Value.Spells P) :=
  Value.madeOf_list.2 (List.forall_mem_cons.2 ⟨trivial, List.forall_mem_singleton.2 h⟩)

theorem gives_spells : Gives (fun t => Text.MadeOf P t.text) (·.MadeOf (Value.Spells P)) :=
  ⟨spells_of_atom?, spells_words hblank, Value.madeOf_list.2, spells_quotation⟩

end Grammar

namespace Reader

open Grammar

/-- The strings in the only form of a text. -/
theorem spells_of_parse {source : String} (hsource : Text.MadeOf P source) {v : Value}
    (h : parse source = .ok v) : v.MadeOf (Value.Spells P) := by
  obtain ⟨f, last, htokens, -, rfl, -⟩ := parse_eq_ok.1 h
  refine f.value_of_tokens (gives_spells hblank) fun t ht => ?_
  exact madeOf_of_tokenize hblank hsource htokens t (List.mem_append_left _ ht)

/-- The strings in all forms of a text. -/
theorem spells_of_parseProgram {source : String} (hsource : Text.MadeOf P source) {vs : List Value}
    (h : parseProgram source = .ok vs) : ∀ v ∈ vs, v.MadeOf (Value.Spells P) := by
  obtain ⟨fs, last, htokens, -, rfl, -⟩ := parseProgram_eq_ok.1 h
  refine fs.values_of_tokens (gives_spells hblank) fun t ht => ?_
  exact madeOf_of_tokenize hblank hsource htokens t (List.mem_append_left _ ht)

end Reader

end AmbLisp
