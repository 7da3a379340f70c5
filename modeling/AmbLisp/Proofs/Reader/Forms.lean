import AmbLisp.Proofs.Integer
import AmbLisp.Proofs.Reader.Grammar
import AmbLisp.Proofs.Token.Printed

/-!
# Readable values and derivations

The readable values are those that have a derivation. What is derived from tokens of which each
symbol has the name of one is readable (`gives_readable`), and the lexemes of a readable value
derive it (`Form.of_lexemes`), with integers that are all short enough to be converted.
-/

namespace AmbLisp

/-- A token that is a symbol has the name of one. -/
def Token.Sound (t : Token) : Prop :=
  t.kind = .symbol → IsSymbolName t.text

namespace Grammar

/-! ## What is derived is readable -/

theorem readable_of_atom? {t : Token} {v : Value} (ht : t.Sound) (h : atom? t = some v) :
    Readable v := by
  unfold atom? at h
  split at h
  · cases h
    exact .bool _
  · cases h
    exact .nil
  · cases h
    exact .str _
  · next hk =>
    cases h
    exact .sym (ht hk)
  · simp only at h
    split at h
    · next hr =>
      cases h
      exact .int (by simpa [Integer.inRange] using hr)
    · cases h
  · cases h

/-- What values have if their tokens have something. -/
structure Gives (T : Token → Prop) (V : Value → Prop) : Prop where
  atom : ∀ {t v}, T t → atom? t = some v → V v
  words : ∀ {ts : List Token}, (∀ t ∈ ts, T t) → V (.str (" ".intercalate (ts.map Token.text)))
  list : ∀ {vs}, (∀ v ∈ vs, V v) → V (.list vs)
  quotation : ∀ {v : Value}, V v → V v.quotation

mutual

theorem Form.value_of_tokens {T : Token → Prop} {V : Value → Prop} (h : Gives T V) (f : Form)
    (hf : ∀ t ∈ f.tokens, T t) : V f.value := by
  match f with
  | .atom t v ht => exact h.atom (hf t List.mem_cons_self) ht
  | .list o items c _ _ =>
    refine h.list (Forms.values_of_tokens h items fun t ht => hf t ?_)
    exact List.mem_cons_of_mem _ (List.mem_append_left _ ht)
  | .words o ts c _ _ _ =>
    exact h.words fun t ht => hf t (List.mem_cons_of_mem _ (List.mem_append_left _ ht))
  | .quotation m body _ =>
    exact h.quotation (Form.value_of_tokens h body fun t ht => hf t (List.mem_cons_of_mem _ ht))

theorem Forms.values_of_tokens {T : Token → Prop} {V : Value → Prop} (h : Gives T V) (fs : Forms)
    (hf : ∀ t ∈ fs.tokens, T t) : ∀ v ∈ fs.values, V v := by
  match fs with
  | .none => exact List.forall_mem_nil _
  | .cons f rest =>
    refine List.forall_mem_cons.2 ⟨Form.value_of_tokens h f fun t ht => hf t ?_,
      Forms.values_of_tokens h rest fun t ht => hf t ?_⟩
    · exact List.mem_append_left _ ht
    · exact List.mem_append_right _ ht

end

theorem gives_readable : Gives Token.Sound Readable :=
  ⟨readable_of_atom?, fun _ => .str _, .list, readable_quotation⟩

/-! ## What is readable is derived -/

/-- Tokens derive a value whenever they are its lexemes, and all integers among them are converted. -/
def DerivedByLexemes (v : Value) : Prop :=
  ∀ ts : List Token, ts.map Token.lexeme = v.lexemes →
    ∃ f : Form, f.tokens = ts ∧ f.value = v ∧ ∀ t ∈ f.atoms, t.IsConverted

/-- A value of a single lexeme. -/
theorem derivedByLexemes_atom {v : Value} {k : TokenKind} {text : String}
    (hv : v.lexemes = [(k, text)]) (h : ∀ p, atom? ⟨k, text, p⟩ = some v)
    (hlen : ∀ p, Token.IsConverted ⟨k, text, p⟩) : DerivedByLexemes v := by
  intro ts hts
  rw [hv] at hts
  obtain ⟨t, ts, rfl, ht, hnil⟩ := List.map_eq_cons_iff.1 hts
  obtain rfl : ts = [] := List.map_eq_nil_iff.1 hnil
  obtain ⟨rfl, rfl⟩ := Prod.mk.inj ht
  exact ⟨.atom t v (h t.pos), rfl, rfl, List.forall_mem_singleton.2 (hlen t.pos)⟩

theorem derivedByLexemes_int {n : Int} (h : Integer.least ≤ n ∧ n ≤ Integer.greatest) :
    DerivedByLexemes (.int n) := by
  have hrange : Integer.inRange n = true := by simpa [Integer.inRange] using h
  refine derivedByLexemes_atom rfl (fun p => ?_) fun p _ => ?_
  · simp only [atom?, Integer.value_text, hrange, if_true]
  · exact Nat.le_trans (Integer.length_text_le hrange) (by decide)

theorem derivedByLexemes_quotation {v : Value} (ih : DerivedByLexemes v) :
    DerivedByLexemes v.quotation := by
  intro ts hts
  rw [Value.lexemes_quotation] at hts
  obtain ⟨m, ts, rfl, hm, hts⟩ := List.map_eq_cons_iff.1 hts
  obtain ⟨body, rfl, rfl, hlen⟩ := ih ts hts
  exact ⟨.quotation m body (Prod.mk.inj hm).1, rfl, rfl, hlen⟩

/-- The elements of a list. -/
theorem Forms.of_lexemes {vs : List Value} (ih : ∀ v ∈ vs, DerivedByLexemes v) {ts : List Token}
    (hts : ts.map Token.lexeme = Value.lexemesAll vs) :
    ∃ fs : Forms, fs.tokens = ts ∧ fs.values = vs ∧ ∀ t ∈ fs.atoms, t.IsConverted := by
  induction vs generalizing ts with
  | nil =>
    obtain rfl : ts = [] := List.map_eq_nil_iff.1 hts
    exact ⟨.none, rfl, rfl, List.forall_mem_nil _⟩
  | cons v vs ih' =>
    rw [List.forall_mem_cons] at ih
    obtain ⟨us, us', rfl, hus, hus'⟩ := List.map_eq_append_iff.1 hts
    obtain ⟨f, rfl, rfl, hlen⟩ := ih.1 us hus
    obtain ⟨fs, rfl, rfl, hlens⟩ := ih' ih.2 hus'
    exact ⟨.cons f fs, rfl, rfl, List.forall_mem_append.2 ⟨hlen, hlens⟩⟩

theorem derivedByLexemes_list {vs : List Value} (hq : Value.isQuotation vs = false)
    (ih : ∀ v ∈ vs, DerivedByLexemes v) : DerivedByLexemes (.list vs) := by
  intro ts hts
  rw [Value.lexemes_list hq, List.cons_append] at hts
  obtain ⟨o, ts, rfl, ho, hts⟩ := List.map_eq_cons_iff.1 hts
  obtain ⟨us, cs, rfl, hus, hcs⟩ := List.map_eq_append_iff.1 hts
  obtain ⟨c, cs, rfl, hc, hnil⟩ := List.map_eq_cons_iff.1 hcs
  obtain rfl : cs = [] := List.map_eq_nil_iff.1 hnil
  obtain ⟨items, rfl, rfl, hlen⟩ := Forms.of_lexemes ih hus
  exact ⟨.list o items c (Prod.mk.inj ho).1 (Prod.mk.inj hc).1, rfl, rfl, hlen⟩

/-- **The lexemes of a readable value derive it.** -/
theorem Form.of_lexemes {v : Value} (h : Readable v) : DerivedByLexemes v := by
  induction h with
  | int h => exact derivedByLexemes_int h
  | bool b => cases b <;> exact derivedByLexemes_atom rfl (fun _ => rfl) fun _ => nofun
  | nil | str | sym => exact derivedByLexemes_atom rfl (fun _ => rfl) fun _ => nofun
  | @list vs _ ih =>
    cases hq : Value.isQuotation vs with
    | true =>
      obtain ⟨v, rfl⟩ := Value.eq_of_isQuotation hq
      exact derivedByLexemes_quotation (ih v (List.mem_cons_of_mem _ List.mem_cons_self))
    | false => exact derivedByLexemes_list hq ih

end Grammar

end AmbLisp
