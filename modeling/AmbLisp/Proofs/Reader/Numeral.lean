import AmbLisp.Proofs.Reader.Recognition
import AmbLisp.Proofs.Token.Continued
import AmbLisp.Proofs.Token.Printed

/-!
# Numerals of any length

The reader refuses a numeral with too many significant digits before it looks at the value. This makes
no difference: wherever a form is expected, a numeral is read as its integer if that is in range, and
refused where it stands if not (`integer_eq_integerAt`, `form_fails`, `numerals_of_any_length`). Only
zeros in front can be so many that the numeral is not converted, whatever its value.
-/

namespace AmbLisp

namespace Integer

/-- A numeral: a minus sign or none, and digits. -/
def numeral (negative : Bool) (ds : List Char) : List Char :=
  (if negative then ['-'] else []) ++ ds

/-- The integer with these decimal digits, or its opposite. -/
def decimal (negative : Bool) (ds : List Char) : Int :=
  if negative then -(Nat.ofDigitChars 10 ds 0 : Int) else (Nat.ofDigitChars 10 ds 0 : Int)

variable (negative : Bool) {ds : List Char}

theorem not_isDigit_minus (hds : ∀ d ∈ ds, d.isDigit = true) (rest : List Char) :
    ds ≠ '-' :: rest := by
  rintro rfl
  exact absurd (hds '-' List.mem_cons_self) (by decide)

theorem unsigned_numeral (hds : ∀ d ∈ ds, d.isDigit = true) :
    unsigned (numeral negative ds) = ds := by
  cases negative with
  | true => rfl
  | false =>
    change unsigned ds = ds
    unfold unsigned
    split
    · next rest => exact absurd rfl (not_isDigit_minus hds rest)
    · rfl

theorem value_numeral (hds : ∀ d ∈ ds, d.isDigit = true) :
    value (numeral negative ds) = decimal negative ds := by
  cases negative with
  | true => rfl
  | false =>
    change value ds = Nat.ofDigitChars 10 ds 0
    unfold value
    split
    · next rest => exact absurd rfl (not_isDigit_minus hds rest)
    · rfl

theorem isNumeral_numeral (hne : ds ≠ []) (hds : ∀ d ∈ ds, d.isDigit = true) :
    isNumeral (numeral negative ds) = true := by
  rw [isNumeral, unsigned_numeral negative hds, List.isEmpty_eq_false_iff.2 hne, Bool.not_false,
    Bool.true_and, List.all_eq_true]
  exact hds

theorem isWordChar_numeral (hds : ∀ d ∈ ds, d.isDigit = true) :
    ∀ c ∈ numeral negative ds, isWordChar c = true := by
  intro c hc
  rcases List.mem_append.1 hc with hc | hc
  · split at hc
    · rw [List.mem_singleton.1 hc]
      decide
    · cases hc
  · exact isWordChar_of_isDigit (hds c hc)

/-- A numeral with too many significant digits is out of range. -/
theorem not_inRange_of_long {cs : List Char} (hn : isNumeral cs = true)
    (hlong : maxDigits < (significant cs).length) : inRange (value cs) = false := by
  cases hr : inRange (value cs) with
  | false => rfl
  | true => exact absurd (length_significant_le hn hr) (Nat.not_le.2 hlong)

/-- Zeros in front of the digits do not count. -/
theorem decimal_zeros (k : Nat) :
    decimal negative (List.replicate k '0' ++ ds) = decimal negative ds := by
  have hzeros : Nat.ofDigitChars 10 (List.replicate k '0' ++ ds) 0 = Nat.ofDigitChars 10 ds 0 := by
    rw [← ofDigitChars_dropWhile_zero, List.dropWhile_append_of_pos, ofDigitChars_dropWhile_zero]
    intro d hd
    rw [List.eq_of_mem_replicate hd]
    rfl
  rw [decimal, decimal, hzeros]

theorem decimal_toDigits (n : Int) :
    decimal (decide (n < 0)) (Nat.toDigits 10 n.natAbs) = n := by
  rw [decimal, Nat.ofDigitChars_ten_toDigits]
  split
  · next hneg =>
    rw [decide_eq_true_eq] at hneg
    omega
  · next hneg =>
    rw [decide_eq_true_eq] at hneg
    omega

end Integer

theorem Cursor.isNumeral_of_mem_tokens {c : Cursor} {t : Token} (h : .ok t ∈ c.tokens) :
    t.IsNumeral :=
  of_mem_tokensWithin (I := fun _ => True) (P := fun x => ∀ t, x = .ok t → t.IsNumeral)
    (fun _ _ => ⟨trivial, fun _ ht => isNumeral_next (Prod.ext ht rfl)⟩) trivial h t rfl

namespace Grammar

/-- The tokens of a form that is begun and not ended: what comes next is a form in it. All integers so
far are converted. -/
inductive Expects : List Token → Prop
  | here : Expects []
  | inList {opening : Token} {ts : List Token} (ho : opening.kind = .openParen) (items : Forms)
      (hitems : ∀ t ∈ items.atoms, t.IsConverted) (h : Expects ts) :
      Expects (opening :: (items.tokens ++ ts))
  | quoted {mark : Token} {ts : List Token} (hm : mark.kind = .quote) (h : Expects ts) :
      Expects (mark :: ts)

end Grammar

namespace Reader

open ExceptT Grammar

variable {α : Type} {s s' : Lookahead} {e : ReadError}

/-! ## One numeral -/

/-- Why a numeral is refused. -/
def refusal (numeral : List Char) : ReadError.Reason :=
  let digits := (Integer.unsigned numeral).length
  if Integer.maxDigits < (Integer.significant numeral).length then .integerTooLong
  else if Integer.maxConverted < digits then .unconverted digits
  else .integerOutOfRange (String.ofList numeral)

/-- What a numeral of `n` at a position is read as if nothing but the range of `n` counts, and whether it
is converted at all. -/
def integerAt (numeral : List Char) (n : Int) (p : Position) : Except ReadError Value :=
  if (Integer.least ≤ n ∧ n ≤ Integer.greatest) ∧
    (Integer.unsigned numeral).length ≤ Integer.maxConverted then .ok (.int n)
  else .error ⟨refusal numeral, p⟩

/-- **Nothing but the range of a numeral counts**, if it is converted. -/
theorem integer_eq_integerAt {t : Token} (hn : Integer.isNumeral t.text.toList = true) :
    integer t = integerAt t.text.toList (Integer.value t.text.toList) t.pos := by
  simp only [integer, integerAt, ← Integer.inRange_iff, refusal]
  by_cases hlong : Integer.maxDigits < (Integer.significant t.text.toList).length
  · have hout := Integer.not_inRange_of_long hn hlong
    rw [if_pos hlong, hout, if_neg fun h => Bool.false_ne_true h.1, if_pos hlong]
  · rw [if_neg hlong, if_neg hlong]
    by_cases hlen : Integer.maxConverted < (Integer.unsigned t.text.toList).length
    · rw [if_pos hlen, if_neg fun h => Nat.not_le.2 hlen h.2, if_pos hlen]
    · rw [if_neg hlen, if_neg hlen, String.ofList_toList]
      by_cases hr : Integer.inRange (Integer.value t.text.toList) = true
      · rw [if_pos hr, if_pos ⟨hr, Nat.le_of_not_lt hlen⟩]
      · rw [if_neg hr, if_neg fun h => hr h.1]

/-- A numeral in view is read by itself, if the next token can be read. -/
theorem outcome_form_integer {u : Token} {later : List (Except ReadError Token)}
    (hk : s.current.kind = .integer) (hp : s.pending = .ok u :: later) (n : Nat) :
    (form (n + 1)).outcome s = (integer s.current, ⟨u, later⟩) := by
  rw [form, outcome_current_bind, hk]
  dsimp only
  rw [outcome_bind, outcome_advance, hp]
  rfl

/-! ## An error inside a form -/

theorem stream_injective (h : s.stream = s'.stream) : s = s' := by
  obtain ⟨⟩ := s
  obtain ⟨⟩ := s'
  cases h
  rfl

/-- Tokens in front of those that are ahead. -/
theorem exists_stream (ts : List Token) (s : Lookahead) :
    ∃ s' : Lookahead, s'.stream = ts.map .ok ++ s.stream := by
  cases ts with
  | nil => exact ⟨s, rfl⟩
  | cons t ts => exact ⟨⟨t, ts.map .ok ++ s.stream⟩, rfl⟩

/-- To move on to a token that can be read. -/
theorem advance_bind {t : Token} (k : Token → ReadM α) (hs : s.stream = .ok t :: s'.stream) :
    (advance >>= k).outcome s = (k t).outcome s' := by
  have harrives := arrives_advance hs (List.cons_ne_nil _ _)
  exact outcome_bind_ok harrives.eq

/-- Forms in a list behind which one fails. -/
theorem forms_fail (items : Forms) (hitems : ∀ t ∈ items.tokens, t.IsNumeral)
    (hlen : ∀ t ∈ items.atoms, t.IsConverted) {k : Nat}
    (hfails : ∀ n, k ≤ n → ((form n).outcome s').1 = .error e) (hhead : ¬ EndsForms s'.current)
    (p : Position) {n : Nat} (hn : items.tokens.length + k < n)
    (hs : s.stream = items.tokens.map .ok ++ s'.stream) :
    ((forms p n).outcome s).1 = .error e := by
  induction n generalizing items s with
  | zero => exact absurd hn (Nat.not_lt_zero _)
  | succ n ih =>
    match items with
    | .none =>
      obtain rfl : s = s' := stream_injective hs
      have hclose : s.current.kind ≠ .closeParen := fun hk => hhead (.inl hk)
      have hend : s.current.kind ≠ .endOfText := fun hk => hhead (.inr hk)
      have hform := hfails n (by simp only [Forms.tokens, List.length_nil] at hn; omega)
      rw [forms, outcome_current_bind, if_neg hclose, outcome_atEnd_bind, decide_eq_false hend,
        if_neg Bool.false_ne_true]
      exact error_bind hform
    | .cons f rest =>
      simp only [Forms.tokens, List.mem_append, List.length_append, List.map_append,
        List.append_assoc] at hitems hn hs
      rw [Forms.atoms, List.forall_mem_append] at hlen
      obtain ⟨us, hus⟩ := f.tokens_eq_cons
      have hpos : 0 < f.tokens.length := by
        rw [hus]
        exact Nat.succ_pos _
      have hcurrent : s.current = f.head := by
        rw [hus] at hs
        exact current_of_stream hs
      have hclose : f.head.kind ≠ .closeParen := fun hk => f.not_endsForms_head (.inl hk)
      have hend : f.head.kind ≠ .endOfText := fun hk => f.not_endsForms_head (.inr hk)
      obtain ⟨s₁, hs₁⟩ := exists_stream rest.tokens s'
      rw [← hs₁] at hs
      have hfirst := (form_arrives f (fun t ht => hitems t (.inl ht)) hlen.1 (n := n) (by omega) hs
        (List.cons_ne_nil _ _)).eq
      have hrest := ih rest (fun t ht => hitems t (.inr ht)) hlen.2 (by omega) hs₁
      rw [forms, outcome_current_bind, hcurrent, if_neg hclose, outcome_atEnd_bind, hcurrent,
        decide_eq_false hend, if_neg Bool.false_ne_true, outcome_bind_ok hfirst]
      exact error_bind hrest

section

variable {t u : Token} {ts : List Token} {later : List (Except ReadError Token)}
  (ht : t.kind = .integer)

include ht

/-- Where a form is expected, none ends. -/
theorem not_endsForms_of_expects (h : Expects ts)
    (hs : s.stream = ts.map .ok ++ .ok t :: later) : ¬ EndsForms s.current := by
  cases h with
  | here =>
    rw [current_of_stream hs]
    rintro (hk | hk) <;> cases ht.symm.trans hk
  | inList hkind | quoted hkind =>
    rw [current_of_stream hs]
    rintro (hk | hk) <;> cases hkind.symm.trans hk

/-- **A form fails at a numeral in it that is refused**, wherever in it a form is expected. -/
theorem form_fails (he : integer t = .error e) (h : Expects ts) (hts : ∀ t ∈ ts, t.IsNumeral)
    {n : Nat} (hn : 2 * ts.length < n)
    (hs : s.stream = ts.map .ok ++ .ok t :: .ok u :: later) : ((form n).outcome s).1 = .error e := by
  induction h generalizing s n with
  | here =>
    obtain ⟨n, rfl⟩ := Nat.exists_eq_add_one.2 (Nat.lt_of_le_of_lt (Nat.zero_le _) hn)
    obtain rfl : s = ⟨t, .ok u :: later⟩ := stream_injective hs
    rw [outcome_form_integer ht rfl]
    exact he
  | @inList opening ts ho items hlen h ih =>
    obtain ⟨n, rfl⟩ := Nat.exists_eq_add_one.2 (Nat.lt_of_le_of_lt (Nat.zero_le _) hn)
    rw [List.forall_mem_cons, List.forall_mem_append] at hts
    obtain ⟨-, hitems, hts⟩ := hts
    obtain ⟨s₂, hs₂⟩ := exists_stream ts ⟨t, .ok u :: later⟩
    obtain ⟨s₁, hs₁⟩ := exists_stream items.tokens s₂
    have hopen : s.stream = .ok opening :: s₁.stream := by
      rw [hs, hs₁, hs₂, List.map_cons, List.map_append, List.cons_append, List.append_assoc]
      rfl
    have hforms := forms_fail items hitems hlen (k := 2 * ts.length + 1) (fun m hm => ih hts hm hs₂)
      (not_endsForms_of_expects ht h hs₂) opening.pos (n := n)
      (by simp only [List.length_cons, List.length_append] at hn; omega) hs₁
    rw [form, outcome_current_bind, current_of_stream hopen, ho]
    dsimp only
    rw [advance_bind _ hopen]
    exact error_bind hforms
  | @quoted mark ts hm h ih =>
    obtain ⟨n, rfl⟩ := Nat.exists_eq_add_one.2 (Nat.lt_of_le_of_lt (Nat.zero_le _) hn)
    rw [List.forall_mem_cons] at hts
    obtain ⟨s₁, hs₁⟩ := exists_stream ts ⟨t, .ok u :: later⟩
    have hmark : s.stream = .ok mark :: s₁.stream := by
      rw [hs, hs₁, List.map_cons, List.cons_append]
      rfl
    have hend : s₁.current.kind ≠ .endOfText := fun hk =>
      not_endsForms_of_expects ht h hs₁ (.inr hk)
    have hbody := ih hts.2 (n := n) (by rw [List.length_cons] at hn; omega) hs₁
    rw [form, outcome_current_bind, current_of_stream hmark, hm]
    dsimp only
    rw [advance_bind _ hmark, outcome_atEnd_bind, decide_eq_false hend, if_neg Bool.false_ne_true]
    exact error_bind hbody

variable {source : String}

/-- So does a text that begins with this form. -/
theorem parse_fails (he : integer t = .error e) (h : Expects ts)
    (htokens : (Cursor.ofSource source).tokens = ts.map .ok ++ .ok t :: .ok u :: later) :
    parse source = .error e := by
  obtain ⟨s, hs⟩ := exists_stream ts ⟨t, .ok u :: later⟩
  have hstart : start source = .ok s := start_eq_ok.2 (htokens.trans hs.symm)
  have hend : s.current.kind ≠ .endOfText := fun hk => not_endsForms_of_expects ht h hs (.inr hk)
  have hnumeral : ∀ t ∈ ts, t.IsNumeral := fun t ht =>
    Cursor.isNumeral_of_mem_tokens (htokens ▸ List.mem_append_left _ (List.mem_map_of_mem ht))
  have hlen : s.stream.length = ts.length + (later.length + 2) := by
    rw [hs, List.length_append, List.length_map]
    rfl
  have hform := form_fails ht he h hnumeral (n := s.steps) (by have := le_steps s; omega) hs
  rw [parse, onSource_eq, hstart]
  simp only [onlyForm, readForm, outcome_bind, outcome_atEnd, decide_eq_false hend, outcome_get,
    Bool.false_eq_true, if_false]
  rcases hr : (form s.steps).outcome s with ⟨e' | v, s'⟩ <;> rw [hr] at hform
  · exact congrArg Except.error (Except.error.inj hform)
  · cases hform

/-- So does a program in which other forms stand before this one. -/
theorem parseProgram_fails (he : integer t = .error e) (fs : Forms)
    (hconverted : ∀ t ∈ fs.atoms, t.IsConverted) (h : Expects ts)
    (htokens : (Cursor.ofSource source).tokens =
      (fs.tokens ++ ts).map .ok ++ .ok t :: .ok u :: later) :
    parseProgram source = .error e := by
  have hnumeral : ∀ t ∈ fs.tokens ++ ts, t.IsNumeral := fun t ht =>
    Cursor.isNumeral_of_mem_tokens (htokens ▸ List.mem_append_left _ (List.mem_map_of_mem ht))
  rw [List.forall_mem_append] at hnumeral
  obtain ⟨hfs, hts⟩ := hnumeral
  obtain ⟨s, hs⟩ := exists_stream ts ⟨t, .ok u :: later⟩
  have hend : s.current.kind ≠ .endOfText := fun hk => not_endsForms_of_expects ht h hs (.inr hk)
  have hlen : s.stream.length = ts.length + (later.length + 2) := by
    rw [hs, List.length_append, List.length_map]
    rfl
  have hstream : (Cursor.ofSource source).tokens = fs.tokens.map .ok ++ s.stream := by
    rw [htokens, hs, List.map_append, List.append_assoc]
    rfl
  let n := 2 * (fs.tokens.length + s.stream.length) + 2
  have hne : s.stream ≠ [] := List.cons_ne_nil _ _
  obtain ⟨m, hm, hread⟩ := program_forms fs hfs hconverted (n := n) (by omega) hne
  obtain ⟨m, rfl⟩ : ∃ l, m = l + 1 := ⟨m - 1, by omega⟩
  have hform := form_fails ht he h hts (n := m) (by omega) hs
  have hrest : programOn (m + 1) s.stream = .error e := by
    rw [programOn_stream, program, outcome_atEnd_bind, decide_eq_false hend,
      if_neg Bool.false_ne_true]
    exact error_bind hform
  have hprogram := parseProgram_of_tokens (n := n) hstream (by simp [n])
  rw [hprogram, hread, hrest]
  rfl

/-- A text that holds nothing but a numeral. -/
theorem parse_of_numeral {last : Token} (hlast : last.kind = .endOfText)
    (htokens : (Cursor.ofSource source).tokens = [.ok t, .ok last]) :
    parse source = integer t ∧ parseProgram source = (integer t).map ([·]) := by
  cases hi : integer t with
  | error e =>
    exact ⟨parse_fails ht hi .here htokens,
      parseProgram_fails ht hi .none (List.forall_mem_nil _) .here htokens⟩
  | ok v =>
    obtain ⟨hatom, hlen⟩ := atom?_of_integer ht hi
    let f : Form := .atom t v hatom
    have htokenize : tokenize source = .ok (f.tokens ++ [last]) := tokenize_eq_ok.2 htokens
    have hconverted : ∀ u ∈ f.atoms, u.IsConverted := List.forall_mem_singleton.2 hlen
    exact ⟨parse_eq_ok.2 ⟨f, last, htokenize, hlast, rfl, hconverted⟩,
      parseProgram_eq_ok.2 ⟨.cons f .none, last, htokenize, hlast, rfl, hconverted⟩⟩

end

end Reader

/-! ## Texts -/

theorem Gap.endsWord {gap : List Char} {b : Bool} (h : Gap false gap b) : EndsWord gap := by
  cases h with
  | nil => exact endsWord_nil
  | blank hc =>
    refine endsWord_cons ?_ _
    rcases hc with hc | rfl
    · simp [isWordChar, hc]
    · rfl
  | semicolon => exact endsWord_cons rfl _

/-- The tokens of a word with gaps around it. -/
theorem tokens_of_word {before word behind : List Char} {b : Bool} (hbefore : Gap false before false)
    (hne : word ≠ []) (hword : ∀ c ∈ word, isWordChar c = true) (hbehind : Gap false behind b) :
    ∃ last : Token, last.kind = .endOfText ∧
      (Cursor.ofSource (String.ofList (before ++ (word ++ behind)))).tokens =
        [.ok ⟨wordKind word, String.ofList word, Position.behind before⟩, .ok last] := by
  let c : Cursor := .ofSource (String.ofList (before ++ (word ++ behind)))
  have hrest : c.rest = before ++ (word ++ behind) := String.toList_ofList
  have hlex := Token.Lexes.word hne hword hbehind.endsWord (Position.behind before)
  have hnext := (Cursor.Next.token hrest hbefore hlex (Position.afterAll_origin before).symm).next_eq
  let d : Cursor := c.past (before ++ word) behind
  have hend := (Cursor.Next.endOfText (c := d) hbehind).next_eq
  refine ⟨⟨.endOfText, "", d.pos.afterAll d.rest⟩, rfl, ?_⟩
  rw [Cursor.tokens_of_next hnext hlex.kind_ne_end, Cursor.tokens, Cursor.tokensWithin_end hend rfl]

namespace Reader

open ExceptT Grammar

variable (negative : Bool) {ds before behind : List Char} {b : Bool}

theorem integer_numeral (hne : ds ≠ []) (hds : ∀ d ∈ ds, d.isDigit = true) (p : Position) :
    integer ⟨.integer, String.ofList (Integer.numeral negative ds), p⟩ =
      integerAt (Integer.numeral negative ds) (Integer.decimal negative ds) p := by
  have hnumeral := Integer.isNumeral_numeral negative hne hds
  rw [integer_eq_integerAt (by rwa [String.toList_ofList]), String.toList_ofList,
    Integer.value_numeral negative hds]

/-- A text that is a numeral between gaps. -/
theorem parse_numeral (hne : ds ≠ []) (hds : ∀ d ∈ ds, d.isDigit = true)
    (hbefore : Gap false before false) (hbehind : Gap false behind b) :
    let source := String.ofList (before ++ (Integer.numeral negative ds ++ behind))
    let result := integerAt (Integer.numeral negative ds) (Integer.decimal negative ds)
      (Position.behind before)
    parse source = result ∧ parseProgram source = result.map ([·]) := by
  intro source result
  have hkind : wordKind (Integer.numeral negative ds) = .integer :=
    if_pos (Integer.isNumeral_numeral negative hne hds)
  have hnonempty : Integer.numeral negative ds ≠ [] := List.append_ne_nil_of_right_ne_nil _ hne
  obtain ⟨last, hlast, htokens⟩ :=
    tokens_of_word hbefore hnonempty (Integer.isWordChar_numeral negative hds) hbehind
  rw [hkind] at htokens
  have hparse := parse_of_numeral rfl hlast htokens
  rwa [integer_numeral negative hne hds] at hparse

/-- **Numerals of any length** are read by their range alone, with however many digits and zeros in
front, as long as they are converted. A text that is a numeral between gaps is read as its integer if
that is in range, and refused at the numeral otherwise. So is a numeral wherever else a form is expected:
the reader goes on behind it, or the whole program fails there. And an integer in range is read from its
digits with any number of zeros before them, unless this makes the numeral too long to be converted.
-/
theorem numerals_of_any_length :
    (∀ (negative : Bool) (ds : List Char), ds ≠ [] → (∀ d ∈ ds, d.isDigit = true) →
      let word := Integer.numeral negative ds
      let n := Integer.decimal negative ds
      (Integer.maxDigits < (Integer.significant word).length →
        ¬ (Integer.least ≤ n ∧ n ≤ Integer.greatest)) ∧
      (∀ before behind b, Gap false before false → Gap false behind b →
        let source := String.ofList (before ++ (word ++ behind))
        let result := integerAt word n (Position.behind before)
        parse source = result ∧ parseProgram source = result.map ([·])) ∧
      ∀ p, let t : Token := ⟨.integer, String.ofList word, p⟩
        (∀ m u later, (form (m + 1)).outcome ⟨t, .ok u :: later⟩ =
          (integerAt word n p, ⟨u, later⟩)) ∧
        ∀ e, integerAt word n p = .error e → ∀ source (fs : Forms) ts u later,
          (∀ t ∈ fs.atoms, t.IsConverted) → Expects ts →
          (Cursor.ofSource source).tokens = (fs.tokens ++ ts).map .ok ++ .ok t :: .ok u :: later →
          parseProgram source = .error e ∧ (fs = .none → parse source = .error e)) ∧
    ∀ (n : Int) (k : Nat), Integer.least ≤ n → n ≤ Integer.greatest →
      let ds := List.replicate k '0' ++ Nat.toDigits 10 n.natAbs
      parse (String.ofList (Integer.numeral (decide (n < 0)) ds)) =
        if ds.length ≤ Integer.maxConverted then .ok (.int n)
        else .error ⟨.unconverted ds.length, {}⟩ := by
  refine ⟨fun negative ds hne hds => ?_, fun n k hleast hgreatest => ?_⟩
  · intro word n
    have hinteger : ∀ p, integer ⟨.integer, String.ofList word, p⟩ = integerAt word n p :=
      integer_numeral negative hne hds
    refine ⟨fun hlong hrange => ?_,
      fun before behind b hbefore hbehind => parse_numeral negative hne hds hbefore hbehind,
      fun p => ⟨fun m u later => ?_, ?_⟩⟩
    · have hout := Integer.not_inRange_of_long (Integer.isNumeral_numeral negative hne hds) hlong
      rw [Integer.value_numeral negative hds, Integer.inRange_iff.2 hrange] at hout
      cases hout
    · rw [← hinteger]
      exact outcome_form_integer rfl rfl m
    · intro e he source fs ts u later hconverted hts htokens
      rw [← hinteger] at he
      refine ⟨parseProgram_fails rfl he fs hconverted hts htokens, ?_⟩
      rintro rfl
      exact parse_fails rfl he hts htokens
  · intro ds
    have hne : ds ≠ [] := List.append_ne_nil_of_right_ne_nil _ Nat.toDigits_ne_nil
    have hds : ∀ d ∈ ds, d.isDigit = true := by
      refine List.forall_mem_append.2 ⟨fun d hd => ?_, fun d hd => ?_⟩
      · rw [List.eq_of_mem_replicate hd]
        decide
      · exact Nat.isDigit_of_mem_toDigits (by decide) (by decide) hd
    have hdecimal : Integer.decimal (decide (n < 0)) ds = n := by
      rw [Integer.decimal_zeros, Integer.decimal_toDigits]
    have hparse := (parse_numeral (decide (n < 0)) hne hds (.nil false) (.nil false)).1
    rw [List.nil_append, List.append_nil, hdecimal, integerAt, Integer.unsigned_numeral _ hds] at hparse
    rw [hparse]
    by_cases hlen : ds.length ≤ Integer.maxConverted
    · rw [if_pos ⟨⟨hleast, hgreatest⟩, hlen⟩, if_pos hlen]
    · have hnumeral := Integer.isNumeral_numeral (decide (n < 0)) hne hds
      have hrange : Integer.inRange (Integer.value (Integer.numeral (decide (n < 0)) ds)) = true := by
        rw [Integer.value_numeral _ hds, hdecimal, Integer.inRange_iff]
        exact ⟨hleast, hgreatest⟩
      have hshort := Nat.not_lt.2 (Integer.length_significant_le hnumeral hrange)
      rw [if_neg fun h => hlen h.2, if_neg hlen, refusal, Integer.unsigned_numeral _ hds,
        if_neg hshort, if_pos (Nat.lt_of_not_le hlen)]
      rfl

/-- One less than the least integer, with a zero too many, on a line of its own and inside of a program;
and the least integer itself. -/
theorem numerals_of_any_length_least :
    let ds : List Char := ['0', '9', '2', '2', '3', '3', '7', '2', '0', '3', '6', '8', '5', '4', '7',
      '7', '5', '8', '0', '9']
    let word := String.ofList ('-' :: ds)
    parse (String.ofList ([';', '\n'] ++ ('-' :: ds ++ [',']))) =
        .error ⟨.integerOutOfRange word, ⟨2, 1⟩⟩ ∧
      parseProgram (String.ofList (['x', ' ', '(', 'y', '\''] ++ ('-' :: ds ++ [')']))) =
        .error ⟨.integerOutOfRange word, ⟨1, 6⟩⟩ ∧
      parse (String.ofList ('-' :: '0' :: Nat.toDigits 10 9223372036854775808)) =
        .ok (.int Integer.least) := by
  intro ds word
  obtain ⟨hall, hzeros⟩ := numerals_of_any_length
  obtain ⟨-, htext, hplace⟩ := hall true ds (by decide) (List.all_eq_true.1 rfl)
  have hrefused : ∀ p, integerAt (Integer.numeral true ds) (Integer.decimal true ds) p =
      .error ⟨.integerOutOfRange word, p⟩ := by
    intro p
    rw [integerAt, if_neg (by decide), refusal, if_neg (by decide), if_neg (by decide)]
    rfl
  refine ⟨?_, ?_, ?_⟩
  · have hgap : Gap false [';', '\n'] false := .semicolon (.lineFeed (.nil false))
    have hcomma : Gap false [','] false := .blank (.inr rfl) (.nil false)
    have hparse := (htext _ _ _ hgap hcomma).1
    rwa [hrefused] at hparse
  · let x : Form := .atom ⟨.symbol, "x", ⟨1, 1⟩⟩ (.sym "x") rfl
    let y : Form := .atom ⟨.symbol, "y", ⟨1, 4⟩⟩ (.sym "y") rfl
    have hexpects :
        Expects [⟨.openParen, "(", ⟨1, 3⟩⟩, ⟨.symbol, "y", ⟨1, 4⟩⟩, ⟨.quote, "'", ⟨1, 5⟩⟩] :=
      .inList rfl (.cons y .none) (List.forall_mem_singleton.2 nofun) (.quoted rfl .here)
    obtain ⟨-, hfails⟩ := hplace ⟨1, 6⟩
    exact (hfails _ (hrefused _) _ (.cons x .none) _ ⟨.closeParen, ")", ⟨1, 27⟩⟩
      [.ok ⟨.endOfText, "", ⟨1, 28⟩⟩] (List.forall_mem_singleton.2 nofun) hexpects
      (by decide +kernel)).1
  · exact (hzeros Integer.least 1 (by decide) (by decide)).trans (if_pos (by decide))

end Reader

end AmbLisp
