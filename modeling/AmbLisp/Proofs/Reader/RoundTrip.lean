import AmbLisp.Proofs.Reader.Forms
import AmbLisp.Proofs.Reader.Recognition

/-!
# Reading and printing

All that the reader produces is readable (`readable_of_parse`, `readable_of_parseProgram`), and the
text of a readable value is read as this value (`parse_print_of_readable`). `parse_print_round_trip`
is both in one.
-/

namespace AmbLisp

theorem Cursor.sound_next {c c' : Cursor} {t : Token} (h : c.next = (.ok t, c')) : t.Sound := by
  intro hk
  obtain ⟨w, hne, hw, hkind, htext⟩ := bareWord_of_next h (.inl hk)
  exact htext ▸ (isSymbolName_iff w).2 ⟨hne, hw, hkind.trans hk⟩

namespace Reader

open Grammar

theorem sound_of_tokenize {source : String} {ts : List Token} (h : tokenize source = .ok ts) :
    ∀ t ∈ ts, t.Sound :=
  of_tokenize Cursor.sound_next h

/-- The only form of a source text is readable. -/
theorem readable_of_parse {source : String} {v : Value} (h : parse source = .ok v) : Readable v := by
  obtain ⟨f, last, htokens, -, rfl, -⟩ := parse_eq_ok.1 h
  exact f.value_of_tokens gives_readable fun t ht =>
    sound_of_tokenize htokens t (List.mem_append_left _ ht)

/-- All forms of a source text are readable. -/
theorem readable_of_parseProgram {source : String} {vs : List Value}
    (h : parseProgram source = .ok vs) : ∀ v ∈ vs, Readable v := by
  obtain ⟨fs, last, htokens, -, rfl, -⟩ := parseProgram_eq_ok.1 h
  exact fs.values_of_tokens gives_readable fun t ht =>
    sound_of_tokenize htokens t (List.mem_append_left _ ht)

/-- The text of a readable value is read as this value. -/
theorem parse_print_of_readable {v : Value} (h : Readable v) : parse v.print = .ok v := by
  obtain ⟨ts, last, hts, hlast, htokens⟩ := h.tokens
  obtain ⟨f, rfl, hf, hconverted⟩ := Form.of_lexemes h ts hts
  refine parse_eq_ok.2 ⟨f, last, tokenize_eq_ok.2 ?_, hlast, hf, hconverted⟩
  rw [htokens, List.map_append, List.map_singleton]

/-- **Reading undoes printing, and printing undoes reading.** -/
theorem parse_print_round_trip :
    (∀ v, Readable v → parse v.print = .ok v) ∧
      ∀ source v, parse source = .ok v → Readable v ∧ parse v.print = .ok v := by
  refine ⟨fun v h => parse_print_of_readable h, fun source v h => ?_⟩
  have hv := readable_of_parse h
  exact ⟨hv, parse_print_of_readable hv⟩

end Reader

end AmbLisp
