import AmbLisp.Token.Lexer
import AmbLisp.Value.Printer

/-!
# Readable values

The values that the reader can produce, described without it: integers in range, booleans, `#nil`,
strings, symbols whose names are neither anything else nor more than one word, and lists of readable
values.
-/

namespace AmbLisp

/-- A name that is one bare word and neither a numeral nor a constant. -/
structure IsSymbolName (name : String) : Prop where
  nonempty : name ≠ ""
  noBlank : ∀ c ∈ name.toList, Text.isBlank c = false
  noDelimiter : ∀ c ∈ name.toList, c ∉ ['(', ')', '[', ']', '\'', '"', ';', ',']
  noNumeral : Integer.isNumeral name.toList = false
  noConstant : name ∉ ["#t", "#f", "#nil"]

/-- Values that the reader can produce. -/
inductive Readable : Value → Prop
  | int {n : Int} (h : Integer.least ≤ n ∧ n ≤ Integer.greatest) : Readable (.int n)
  | bool (b : Bool) : Readable (.bool b)
  | nil : Readable .nil
  | str (text : String) : Readable (.str text)
  | sym {name : String} (h : IsSymbolName name) : Readable (.sym name)
  | list {vs : List Value} (h : ∀ v ∈ vs, Readable v) : Readable (.list vs)

theorem isSymbolName_iff (cs : List Char) :
    IsSymbolName (String.ofList cs) ↔
      cs ≠ [] ∧ (∀ c ∈ cs, isWordChar c = true) ∧ wordKind cs = .symbol := by
  have htext : ∀ s : String, String.ofList cs = s ↔ cs = s.toList := by
    intro s
    rw [← String.toList_inj, String.toList_ofList]
  have hnil : String.ofList cs ≠ "" ↔ cs ≠ [] := not_congr (htext "")
  have hword : (∀ c ∈ cs, isWordChar c = true) ↔ (∀ c ∈ cs, Text.isBlank c = false) ∧
      ∀ c ∈ cs, c ∉ ['(', ')', '[', ']', '\'', '"', ';', ','] := by
    simp only [isWordChar, isDelimiter, Bool.and_eq_true, Bool.not_eq_true',
      List.contains_eq_mem, decide_eq_false_iff_not]
    exact ⟨fun h => ⟨fun c hc => (h c hc).1, fun c hc => (h c hc).2⟩,
      fun h c hc => ⟨h.1 c hc, h.2 c hc⟩⟩
  have hkind : wordKind cs = .symbol ↔
      Integer.isNumeral cs = false ∧ String.ofList cs ∉ ["#t", "#f", "#nil"] := by
    simp only [List.mem_cons, List.not_mem_nil, or_false, htext]
    change _ ↔ _ ∧ ¬ (cs = ['#', 't'] ∨ cs = ['#', 'f'] ∨ cs = ['#', 'n', 'i', 'l'])
    unfold wordKind
    cases Integer.isNumeral cs
    · by_cases h₁ : cs = ['#', 't'] ∨ cs = ['#', 'f']
      · rcases h₁ with rfl | rfl <;> simp
      · by_cases h₂ : cs = ['#', 'n', 'i', 'l']
        · simp [h₂]
        · rw [not_or] at h₁
          simp [h₁, h₂]
    · simp
  rw [hword, hkind]
  constructor
  · rintro ⟨h₁, h₂, h₃, h₄, h₅⟩
    rw [String.toList_ofList] at h₂ h₃ h₄
    exact ⟨hnil.1 h₁, ⟨h₂, h₃⟩, h₄, h₅⟩
  · rintro ⟨h₁, ⟨h₂, h₃⟩, h₄, h₅⟩
    rw [← String.toList_ofList (l := cs)] at h₂ h₃ h₄
    exact ⟨hnil.2 h₁, h₂, h₃, h₄, h₅⟩

/-- Keywords can be read. -/
theorem isSymbolName_keyword (k : Keyword) : IsSymbolName k.name := by
  rw [← String.ofList_toList (s := k.name), isSymbolName_iff, ← List.all_eq_true]
  cases k <;> decide +kernel

theorem readable_quotation {v : Value} (h : Readable v) : Readable v.quotation := by
  refine .list fun u hu => ?_
  rcases List.mem_cons.1 hu with rfl | hu
  · exact .sym (isSymbolName_keyword .quote)
  · exact List.mem_singleton.1 hu ▸ h

theorem Value.eq_of_isQuotation {vs : List Value} (h : Value.isQuotation vs = true) :
    ∃ v, vs = [.sym Keyword.quote.name, v] := by
  unfold isQuotation at h
  split at h
  · next name v =>
    obtain rfl : name = Keyword.quote.name := by simpa using h
    exact ⟨v, rfl⟩
  · cases h

end AmbLisp
