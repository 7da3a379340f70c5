import AmbLisp.Token.Basic
import AmbLisp.Integer
import AmbLisp.Value.Basic

/-!
# The grammar of forms

The grammar of the language over tokens, told without the reader:

* a form is an atom, `( form* )`, `[ word* ]` or `' form`;
* an atom is a boolean, `#nil`, a string, a symbol, or an integer whose value is in range;
* a word is any token but `]` and the end of the text.

A `Form` is a derivation of one form, and `Forms` of several in a row: it lists the tokens that it
derives, and the value that it gives to them. The grammar is unambiguous (`Forms.eq_of_tokens_eq`).
It does not limit how many digits an integer is written with.
-/

namespace AmbLisp

/-- The number of digits of a numeral, zeros in front included. -/
def Token.digits (t : Token) : Nat :=
  (Integer.unsigned t.text.toList).length

/-- If it is an integer, it has no more digits than are converted. -/
def Token.IsConverted (t : Token) : Prop :=
  t.kind = .integer → t.digits ≤ Integer.maxConverted

namespace Grammar

/-- The value of a token that is a form of its own. -/
def atom? (t : Token) : Option Value :=
  match t.kind with
  | .boolean => some (.bool (t.text == "#t"))
  | .nil => some .nil
  | .string => some (.str t.text)
  | .symbol => some (.sym t.text)
  | .integer =>
    let n := Integer.value t.text.toList
    if Integer.inRange n then some (.int n) else none
  | _ => none

/-- Can stand between brackets. -/
def IsWord (t : Token) : Prop :=
  t.kind ≠ .closeBracket ∧ t.kind ≠ .endOfText

mutual

/-- A derivation of a form. -/
inductive Form where
  | atom (t : Token) (v : Value) (h : atom? t = some v)
  | list (opening : Token) (items : Forms) (closing : Token) (ho : opening.kind = .openParen)
    (hc : closing.kind = .closeParen)
  | words (opening : Token) (ts : List Token) (closing : Token) (ho : opening.kind = .openBracket)
    (hw : ∀ t ∈ ts, IsWord t) (hc : closing.kind = .closeBracket)
  | quotation (mark : Token) (body : Form) (hm : mark.kind = .quote)

/-- A derivation of forms in a row. -/
inductive Forms where
  | none
  | cons (first : Form) (rest : Forms)

end

mutual

/-- The tokens of a form, from left to right. -/
def Form.tokens : Form → List Token
  | .atom t _ _ => [t]
  | .list opening items closing _ _ => opening :: (items.tokens ++ [closing])
  | .words opening ts closing _ _ _ => opening :: (ts ++ [closing])
  | .quotation mark body _ => mark :: body.tokens

/-- The tokens of forms in a row. -/
def Forms.tokens : Forms → List Token
  | .none => []
  | .cons first rest => first.tokens ++ rest.tokens

end

mutual

/-- The value of a form. -/
def Form.value : Form → Value
  | .atom _ v _ => v
  | .list _ items _ _ _ => .list items.values
  | .words _ ts _ _ _ _ => .str (" ".intercalate (ts.map Token.text))
  | .quotation _ body _ => .list [.sym "quote", body.value]

/-- The values of forms in a row. -/
def Forms.values : Forms → List Value
  | .none => []
  | .cons first rest => first.value :: rest.values

end

mutual

/-- The tokens of a form that are forms of their own. -/
def Form.atoms : Form → List Token
  | .atom t _ _ => [t]
  | .list _ items _ _ _ => items.atoms
  | .words .. => []
  | .quotation _ body _ => body.atoms

/-- The tokens of forms in a row that are forms of their own. -/
def Forms.atoms : Forms → List Token
  | .none => []
  | .cons first rest => first.atoms ++ rest.atoms

end

mutual

theorem Form.atom?_of_mem (f : Form) {t : Token} (h : t ∈ f.atoms) : ∃ v, atom? t = some v := by
  match f with
  | .atom u v hv =>
    obtain rfl := List.mem_singleton.1 h
    exact ⟨v, hv⟩
  | .list _ items _ _ _ => exact items.atom?_of_mem h
  | .words .. => cases h
  | .quotation _ body _ => exact body.atom?_of_mem h

theorem Forms.atom?_of_mem (fs : Forms) {t : Token} (h : t ∈ fs.atoms) : ∃ v, atom? t = some v := by
  match fs with
  | .none => cases h
  | .cons f rest => exact (List.mem_append.1 h).elim f.atom?_of_mem rest.atom?_of_mem

end

/-! ## How a form begins -/

/-- The first token of a form. -/
def Form.head : Form → Token
  | .atom t _ _ => t
  | .list opening _ _ _ _ => opening
  | .words opening _ _ _ _ _ => opening
  | .quotation mark _ _ => mark

theorem Form.tokens_eq_cons (f : Form) : ∃ ts, f.tokens = f.head :: ts := by
  cases f <;> exact ⟨_, by simp only [Form.tokens, Form.head]; rfl⟩

/-- Ends the forms in a row: a closing parenthesis or the end of the text. -/
def EndsForms (t : Token) : Prop :=
  t.kind = .closeParen ∨ t.kind = .endOfText

theorem atom?_eq_none {t : Token} (h : t.kind ∈ [.openParen, .closeParen, .openBracket,
    .closeBracket, .quote, .endOfText]) : atom? t = none := by
  unfold atom?
  split <;> simp_all

theorem Form.not_endsForms_head (f : Form) : ¬ EndsForms f.head := by
  cases f with
  | atom t v h =>
    rintro (hk | hk) <;> rw [Form.head] at hk <;> rw [atom?_eq_none (by simp [hk])] at h <;> cases h
  | list _ _ _ ho _ | words _ _ _ ho _ _ | quotation _ _ ho =>
    rintro (hk | hk) <;> cases ho.symm.trans hk

/-! ## The grammar is unambiguous -/

/-- Words end at the first token that is none. -/
theorem words_inj {us us' : List Token} {c c' : Token} {ts ts' : List Token}
    (hu : ∀ t ∈ us, IsWord t) (hu' : ∀ t ∈ us', IsWord t) (hc : c.kind = .closeBracket)
    (hc' : c'.kind = .closeBracket) (h : us ++ c :: ts = us' ++ c' :: ts') :
    us = us' ∧ c = c' ∧ ts = ts' := by
  induction us generalizing us' with
  | nil =>
    cases us' with
    | nil => exact ⟨rfl, List.cons.inj h⟩
    | cons u us' =>
      obtain ⟨rfl, -⟩ := List.cons.inj h
      exact absurd hc (hu' c List.mem_cons_self).1
  | cons u us ih =>
    cases us' with
    | nil =>
      obtain ⟨rfl, -⟩ := List.cons.inj h
      exact absurd hc' (hu u List.mem_cons_self).1
    | cons u' us' =>
      obtain ⟨rfl, hrest⟩ := List.cons.inj h
      rw [List.forall_mem_cons] at hu hu'
      obtain ⟨rfl, hends⟩ := ih hu.2 hu'.2 hrest
      exact ⟨rfl, hends⟩

mutual

/-- One form at most begins a row of tokens. -/
theorem Form.tokens_inj (f f' : Form) {ts ts' : List Token}
    (h : f.tokens ++ ts = f'.tokens ++ ts') : f = f' ∧ ts = ts' := by
  match f, f' with
  | .atom t v hv, .atom t' v' hv' =>
    simp only [Form.tokens, List.singleton_append, List.cons.injEq] at h
    obtain ⟨rfl, rfl⟩ := h
    cases hv.symm.trans hv'
    exact ⟨rfl, rfl⟩
  | .list o items c ho hc, .list o' items' c' ho' hc' =>
    simp only [Form.tokens, List.cons_append, List.append_assoc, List.nil_append,
      List.cons.injEq] at h
    obtain ⟨rfl, hrest⟩ := h
    obtain ⟨rfl, rfl, rfl⟩ := Forms.tokens_inj items items' (.inl hc) (.inl hc') hrest
    exact ⟨rfl, rfl⟩
  | .words o us c ho hu hc, .words o' us' c' ho' hu' hc' =>
    simp only [Form.tokens, List.cons_append, List.append_assoc, List.nil_append,
      List.cons.injEq] at h
    obtain ⟨rfl, hrest⟩ := h
    obtain ⟨rfl, rfl, rfl⟩ := words_inj hu hu' hc hc' hrest
    exact ⟨rfl, rfl⟩
  | .quotation m body hm, .quotation m' body' hm' =>
    simp only [Form.tokens, List.cons_append, List.cons.injEq] at h
    obtain ⟨rfl, hrest⟩ := h
    obtain ⟨rfl, rfl⟩ := Form.tokens_inj body body' hrest
    exact ⟨rfl, rfl⟩
  | .atom t v hv, .list o _ _ ho _ | .atom t v hv, .words o _ _ ho _ _
  | .atom t v hv, .quotation o _ ho | .list o _ _ ho _, .atom t v hv
  | .words o _ _ ho _ _, .atom t v hv | .quotation o _ ho, .atom t v hv =>
    simp only [Form.tokens, List.cons_append, List.cons.injEq] at h
    obtain ⟨rfl, -⟩ := h
    rw [atom?_eq_none (by simp [ho])] at hv
    cases hv
  | .list o _ _ ho _, .words o' _ _ ho' _ _ | .list o _ _ ho _, .quotation o' _ ho'
  | .words o _ _ ho _ _, .list o' _ _ ho' _ | .words o _ _ ho _ _, .quotation o' _ ho'
  | .quotation o _ ho, .list o' _ _ ho' _ | .quotation o _ ho, .words o' _ _ ho' _ _ =>
    simp only [Form.tokens, List.cons_append, List.cons.injEq] at h
    obtain ⟨rfl, -⟩ := h
    cases ho.symm.trans ho'

/-- Forms in a row end where the tokens do not go on with one. -/
theorem Forms.tokens_inj (fs fs' : Forms) {c c' : Token} {ts ts' : List Token} (hc : EndsForms c)
    (hc' : EndsForms c') (h : fs.tokens ++ c :: ts = fs'.tokens ++ c' :: ts') :
    fs = fs' ∧ c = c' ∧ ts = ts' := by
  match fs, fs' with
  | .none, .none => exact ⟨rfl, List.cons.inj h⟩
  | .cons f rest, .cons f' rest' =>
    simp only [Forms.tokens, List.append_assoc] at h
    obtain ⟨rfl, hrest⟩ := Form.tokens_inj f f' h
    obtain ⟨rfl, rfl, rfl⟩ := Forms.tokens_inj rest rest' hc hc' hrest
    exact ⟨rfl, rfl, rfl⟩
  | .none, .cons f' rest' =>
    obtain ⟨us, hus⟩ := f'.tokens_eq_cons
    simp only [Forms.tokens, hus, List.nil_append, List.cons_append, List.cons.injEq] at h
    exact absurd (h.1 ▸ hc) f'.not_endsForms_head
  | .cons f rest, .none =>
    obtain ⟨us, hus⟩ := f.tokens_eq_cons
    simp only [Forms.tokens, hus, List.nil_append, List.cons_append, List.cons.injEq] at h
    exact absurd (h.1 ▸ hc') f.not_endsForms_head

end

/-- **Tokens have at most one derivation.** -/
theorem Forms.eq_of_tokens_eq {fs fs' : Forms} (h : fs.tokens = fs'.tokens) : fs = fs' := by
  let last : Token := ⟨.endOfText, "", {}⟩
  have hlast : EndsForms last := .inr rfl
  have hts : fs.tokens ++ [last] = fs'.tokens ++ [last] := by rw [h]
  exact (Forms.tokens_inj fs fs' hlast hlast hts).1

end Grammar

end AmbLisp
