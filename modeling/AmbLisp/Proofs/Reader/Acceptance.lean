import AmbLisp.Proofs.Reader.Numeral

/-!
# The language of the reader

The reader accepts the texts that derive forms by the grammar, but for those in which an integer has
too many digits to be converted (`parseProgram_iff_derivation`). As zeros in front count for that, such
an integer may well be in range (`long_zero_refused`): the first one in a derivation is refused where it
stands (`parseProgram_unconverted`), and nothing else is refused for this reason (`Blames.unconverted`).
-/

namespace AmbLisp

namespace Grammar

/-! ## The first integer that is not converted -/

mutual

/-- Up to the first integer of a form that is not converted, the form is begun and not ended. -/
theorem Form.exists_unconverted (f : Form) (h : ¬ ∀ t ∈ f.atoms, t.IsConverted) :
    ∃ ts t us, f.tokens = ts ++ t :: us ∧ Expects ts ∧ t ∈ f.atoms ∧ ¬ t.IsConverted := by
  match f with
  | .atom t v hv =>
    exact ⟨[], t, [], rfl, .here, List.mem_cons_self, fun ht => h (List.forall_mem_singleton.2 ht)⟩
  | .list opening items closing ho hc =>
    obtain ⟨before, ts, t, us, htokens, hbefore, hts, ht, hnot⟩ := items.exists_unconverted h
    refine ⟨opening :: (before.tokens ++ ts), t, us ++ [closing], ?_, .inList ho before hbefore hts, ht,
      hnot⟩
    rw [Form.tokens, htokens]
    simp only [List.cons_append, List.append_assoc]
  | .words .. => exact absurd (List.forall_mem_nil _) h
  | .quotation mark body hm =>
    obtain ⟨ts, t, us, htokens, hts, ht, hnot⟩ := body.exists_unconverted h
    refine ⟨mark :: ts, t, us, ?_, .quoted hm hts, ht, hnot⟩
    rw [Form.tokens, htokens, List.cons_append]

/-- Up to the first integer in a row of forms that is not converted, there are whole forms, and one that
is begun and not ended. -/
theorem Forms.exists_unconverted (fs : Forms) (h : ¬ ∀ t ∈ fs.atoms, t.IsConverted) :
    ∃ (before : Forms) (ts : List Token) (t : Token) (us : List Token),
      fs.tokens = before.tokens ++ (ts ++ t :: us) ∧ (∀ t ∈ before.atoms, t.IsConverted) ∧
        Expects ts ∧ t ∈ fs.atoms ∧ ¬ t.IsConverted := by
  match fs with
  | .none => exact absurd (List.forall_mem_nil _) h
  | .cons first rest =>
    rw [Forms.atoms, List.forall_mem_append, not_and_or] at h
    by_cases hfirst : ∀ t ∈ first.atoms, t.IsConverted
    · obtain ⟨before, ts, t, us, htokens, hbefore, hts, ht, hnot⟩ :=
        rest.exists_unconverted (h.resolve_left (not_not.2 hfirst))
      refine ⟨.cons first before, ts, t, us, ?_, List.forall_mem_append.2 ⟨hfirst, hbefore⟩, hts,
        List.mem_append_right _ ht, hnot⟩
      rw [Forms.tokens, Forms.tokens, htokens, List.append_assoc]
    · obtain ⟨ts, t, us, htokens, hts, ht, hnot⟩ := first.exists_unconverted hfirst
      refine ⟨.none, ts, t, us ++ rest.tokens, ?_, List.forall_mem_nil _, hts,
        List.mem_append_left _ ht, hnot⟩
      rw [Forms.tokens.eq_2, htokens, List.append_assoc]
      rfl

end

end Grammar

namespace Reader

open Grammar

variable {source : String} {t : Token} {e : ReadError} {digits : Nat}

/-- An integer in range with too many digits is not converted. -/
theorem integer_unconverted {v : Value} (hn : t.IsNumeral) (hv : atom? t = some v)
    (h : ¬ t.IsConverted) :
    t.kind = .integer ∧ integer t = .error ⟨.unconverted t.digits, t.pos⟩ := by
  rw [Token.IsConverted, Classical.not_imp] at h
  obtain ⟨hk, hlong⟩ := h
  have hr : Integer.inRange (Integer.value t.text.toList) = true := by
    simp only [atom?, hk] at hv
    split at hv
    · assumption
    · cases hv
  have hshort := Nat.not_lt.2 (Integer.length_significant_le (hn hk) hr)
  have hlong : (Integer.unsigned t.text.toList).length > Integer.maxConverted :=
    Nat.lt_of_not_le hlong
  refine ⟨hk, ?_⟩
  rw [integer, if_neg hshort, if_pos hlong]
  rfl

/-- An integer is not converted for its digits alone. -/
theorem of_integer_unconverted (h : integer t = .error e) (he : e.reason = .unconverted digits) :
    t.digits = digits ∧ Integer.maxConverted < t.digits ∧ t.pos = e.pos := by
  simp only [integer] at h
  split at h
  · cases h
    cases he
  · split at h
    · next hlong =>
      cases h
      cases he
      exact ⟨rfl, hlong, rfl⟩
    · split at h
      · cases h
      · cases h
        cases he

/-- **The first integer that is not converted** is refused, if the text derives forms otherwise. -/
theorem parseProgram_unconverted {fs : Forms} {last : Token}
    (htokens : tokenize source = .ok (fs.tokens ++ [last])) (h : ¬ ∀ t ∈ fs.atoms, t.IsConverted) :
    ∃ t ∈ fs.atoms, ¬ t.IsConverted ∧
      parseProgram source = .error ⟨.unconverted t.digits, t.pos⟩ := by
  obtain ⟨before, ts, t, us, heq, hbefore, hts, ht, hnot⟩ := fs.exists_unconverted h
  obtain ⟨v, hv⟩ := fs.atom?_of_mem ht
  have hmem : t ∈ fs.tokens ++ [last] := by
    rw [heq]
    simp
  obtain ⟨hk, hi⟩ := integer_unconverted (isNumeral_of_tokenize htokens t hmem) hv hnot
  obtain ⟨u, later, hu⟩ : ∃ u later, us ++ [last] = u :: later := by
    cases us <;> exact ⟨_, _, rfl⟩
  have hstream : (Cursor.ofSource source).tokens =
      (before.tokens ++ ts).map .ok ++ .ok t :: .ok u :: later.map .ok := by
    rw [tokenize_eq_ok.1 htokens, heq, List.append_assoc, List.append_assoc, List.cons_append, hu]
    simp only [List.map_append, List.map_cons, List.append_assoc]
  exact ⟨t, ht, hnot, parseProgram_fails hk hi before hbefore hts hstream⟩

/-- **Nothing else is refused for this reason** but an integer with too many digits. -/
theorem Blames.unconverted (h : Blames (Cursor.ofSource source).tokens e)
    (he : e.reason = .unconverted digits) :
    ∃ t, .ok t ∈ (Cursor.ofSource source).tokens ∧ ¬ t.IsConverted ∧ t.digits = digits ∧
      t.pos = e.pos := by
  cases h with
  | ahead hmem => cases he.symm.trans (Cursor.reason_of_mem_tokens hmem)
  | @integer t hmem hk hi =>
    obtain ⟨hdigits, hlong, hpos⟩ := of_integer_unconverted hi he
    exact ⟨t, hmem, fun hconverted => Nat.not_le.2 hlong (hconverted hk), hdigits, hpos⟩
  | other hne => exact absurd he (hne digits)

/-- All integers in a text are converted, wherever they stand. -/
def Converts (source : String) : Prop :=
  ∀ t, .ok t ∈ (Cursor.ofSource source).tokens → t.IsConverted

instance (t : Token) : Decidable t.IsConverted :=
  inferInstanceAs (Decidable (_ → _))

instance (source : String) : Decidable (Converts source) :=
  decidable_of_iff (∀ r ∈ (Cursor.ofSource source).tokens, (match r with
      | .ok t => decide t.IsConverted
      | .error _ => true) = true)
    ⟨fun h t ht => of_decide_eq_true (h _ ht), fun h r hr => by
      cases r with
      | ok t => exact decide_eq_true (h t hr)
      | error e => rfl⟩

/-- Such a text is not refused for this reason. -/
theorem Converts.reason_ne (h : Converts source) (hblames : Blames (Cursor.ofSource source).tokens e) :
    e.reason ≠ .unconverted digits := by
  intro he
  obtain ⟨t, hmem, hnot, -⟩ := hblames.unconverted he
  exact hnot (h t hmem)

/-- **The reader accepts its grammar**, as far as integers are converted. A text is read as these values
if and only if it can be tokenized, its tokens up to the end derive them, and all integers among them are
converted; there is only one derivation. If some integers are not, one of them is refused for that. On a
text without derivation the reader stops with an error; an integer is to blame for not being converted
only if it has too many digits. The reader always stops by itself, as more steps than it is given change
nothing. A single form is read if and only if it is all that the program consists of. -/
theorem parseProgram_iff_derivation (source : String) :
    (∀ vs, parseProgram source = .ok vs ↔ ∃ (fs : Forms) (last : Token),
      tokenize source = .ok (fs.tokens ++ [last]) ∧ last.kind = .endOfText ∧ fs.values = vs ∧
        ∀ t ∈ fs.atoms, t.IsConverted) ∧
    (∀ fs fs' : Forms, fs.tokens = fs'.tokens → fs = fs') ∧
    (∀ (fs : Forms) (last : Token), tokenize source = .ok (fs.tokens ++ [last]) →
      (¬ ∀ t ∈ fs.atoms, t.IsConverted) →
      ∃ t ∈ fs.atoms, ¬ t.IsConverted ∧
        parseProgram source = .error ⟨.unconverted t.digits, t.pos⟩) ∧
    ((¬ ∃ (fs : Forms) (last : Token),
        tokenize source = .ok (fs.tokens ++ [last]) ∧ last.kind = .endOfText) →
      ∃ e, parseProgram source = .error e) ∧
    (∀ e digits, parseProgram source = .error e → e.reason = .unconverted digits →
      ∃ t, .ok t ∈ (Cursor.ofSource source).tokens ∧ ¬ t.IsConverted ∧ t.digits = digits ∧
        t.pos = e.pos) ∧
    (∀ s n, start source = .ok s → s.steps ≤ n →
      (program n).outcome s = (program s.steps).outcome s ∧
        (form n).outcome s = (form s.steps).outcome s) ∧
    ∀ v, parse source = .ok v ↔ parseProgram source = .ok [v] := by
  refine ⟨fun _ => parseProgram_eq_ok, fun _ _ => Forms.eq_of_tokens_eq,
    fun _ _ => parseProgram_unconverted, ?_, fun _ _ h => (blames_parseProgram h).unconverted,
    ?_, ?_⟩
  · intro hnone
    rcases hp : parseProgram source with e | vs
    · exact ⟨e, rfl⟩
    · obtain ⟨fs, last, htokens, hlast, -⟩ := parseProgram_eq_ok.1 hp
      exact absurd ⟨fs, last, htokens, hlast⟩ hnone
  · intro s n hstart hn
    obtain ⟨last, hs⟩ := closed_start hstart
    exact ⟨program_steps hs hn, form_steps hs hn⟩
  · intro v
    rw [parse_eq_ok, parseProgram_eq_ok]
    constructor
    · rintro ⟨f, last, htokens, hlast, rfl, hconverted⟩
      exact ⟨.cons f .none, last, by simpa [Forms.tokens] using htokens, hlast, rfl,
        by simpa [Forms.atoms] using hconverted⟩
    · rintro ⟨fs, last, htokens, hlast, hvs, hconverted⟩
      match fs with
      | .cons f .none =>
        refine ⟨f, last, by simpa [Forms.tokens] using htokens, hlast, ?_,
          by simpa [Forms.atoms] using hconverted⟩
        simpa [Forms.values] using hvs
      | .none => cases hvs
      | .cons f (.cons g gs) => simp [Forms.values] at hvs

/-- Not every text that has a derivation is read: a zero is not, if it is written with too many digits.
-/
theorem long_zero_refused :
    ¬ ∀ source (fs : Forms) (last : Token), tokenize source = .ok (fs.tokens ++ [last]) →
      last.kind = .endOfText → parseProgram source = .ok fs.values := by
  intro h
  let ds := List.replicate (Integer.maxConverted + 1) '0'
  have hne : ds ≠ [] := List.cons_ne_nil _ _
  have hds : ∀ d ∈ ds, d.isDigit = true := fun d hd => List.eq_of_mem_replicate hd ▸ rfl
  have hnumeral : Integer.isNumeral ds = true := Integer.isNumeral_numeral false hne hds
  have hzero : Integer.value ds = 0 := by
    have hdecimal : Integer.decimal false (ds ++ []) = Integer.decimal false [] :=
      Integer.decimal_zeros false (Integer.maxConverted + 1)
    rw [List.append_nil] at hdecimal
    exact (Integer.value_numeral false hds).trans hdecimal
  obtain ⟨last, hlast, htokens⟩ := tokens_of_word (.nil false) hne
    (Integer.isWordChar_numeral false hds) (.nil false)
  have hkind : wordKind ds = .integer := if_pos hnumeral
  rw [hkind] at htokens
  have hatom : atom? ⟨.integer, String.ofList ds, Position.behind []⟩ = some (.int 0) := by
    simp only [atom?, String.toList_ofList, hzero]
    exact if_pos (by decide)
  have hread := h _ (.cons (.atom _ _ hatom) .none) last (tokenize_eq_ok.2 htokens) hlast
  have hparse := (parse_numeral false hne hds (.nil false) (.nil false)).2
  rw [integerAt, if_neg fun hok => ?_] at hparse
  · cases hparse.symm.trans hread
  · have hlen := hok.2
    rw [Integer.unsigned_numeral false hds, List.length_replicate] at hlen
    exact absurd hlen (Nat.not_succ_le_self _)

end Reader

end AmbLisp
