import AmbLisp.Proofs.Reader.Derivation

/-!
# What the reader accepts

Whatever the reader reads, it takes the tokens of a derivation off the stream and makes their value
of them (`form_sound`, `program_sound`). It ends by itself within the steps that it is given, more of
them change nothing (`form_steps`, `program_steps`). Together with what is shown of derivations, it
accepts exactly the grammar, but for numerals with more digits than are converted
(`parseProgram_eq_ok`). Where the reader does not convert a numeral, there is one (`blames_program`).
-/

namespace AmbLisp

namespace Reader

open ExceptT Grammar

variable {α β : Type} {last : Token} {s s' : Lookahead} {n : Nat}

/-! ## What is read has a derivation -/

/-- Reading fails at an error ahead, at an integer ahead, or for another reason than that an integer is
not converted. -/
inductive Blames (stream : List (Except ReadError Token)) (e : ReadError) : Prop
  | ahead (h : .error e ∈ stream)
  | integer {t : Token} (h : .ok t ∈ stream) (hk : t.kind = .integer) (he : integer t = .error e)
  | other (h : ∀ digits, e.reason ≠ .unconverted digits)

theorem Blames.of_append {ts : List Token} {stream : List (Except ReadError Token)} {e : ReadError}
    (h : Blames stream e) : Blames (ts.map .ok ++ stream) e := by
  cases h with
  | ahead h => exact .ahead (List.mem_append_right _ h)
  | integer h hk he => exact .integer (List.mem_append_right _ h) hk he
  | other h => exact .other h

/-- What a step of the reader comes to, if anything, has to do with the tokens that it takes off the
stream; the stream still closes behind them. If it fails, something ahead may be to blame. -/
def Takes (last : Token) (s : Lookahead) (P : α → List Token → Prop) :
    Except ReadError α × Lookahead → Prop
  | (.ok a, s') =>
    ClosesWith s'.stream last ∧ ∃ ts, s.stream = ts.map .ok ++ s'.stream ∧ P a ts
  | (.error e, _) => Blames s.stream e

/-- These tokens are those of a form with this value, and all integers in it are converted. -/
def TokensOf (v : Value) (ts : List Token) : Prop :=
  ∃ f : Form, f.tokens = ts ∧ f.value = v ∧ ∀ t ∈ f.atoms, t.IsConverted

/-- These tokens are those of forms in a row with these values, and all integers in them are converted.
-/
def TokensOfAll (vs : List Value) (ts : List Token) : Prop :=
  ∃ fs : Forms, fs.tokens = ts ∧ fs.values = vs ∧ ∀ t ∈ fs.atoms, t.IsConverted

theorem takes_pure {a : α} {P : α → List Token → Prop} (hs : ClosesWith s.stream last)
    (h : P a []) : Takes last s P ((pure a : ReadM α).outcome s) :=
  ⟨hs, [], rfl, h⟩

theorem takes_bind {act : ReadM α} {k : α → ReadM β} {P : α → List Token → Prop}
    {Q : β → List Token → Prop} (ha : Takes last s P (act.outcome s))
    (hk : ∀ a ts s', ClosesWith s'.stream last → P a ts →
      Takes last s' (fun b ts' => Q b (ts ++ ts')) ((k a).outcome s')) :
    Takes last s Q ((act >>= k).outcome s) := by
  rw [outcome_bind]
  rcases hr : act.outcome s with ⟨e | a, s₁⟩ <;> rw [hr] at ha
  · exact ha
  · obtain ⟨hs₁, ts, hts, hP⟩ := ha
    have hrest := hk a ts s₁ hs₁ hP
    simp only
    rcases hr : (k a).outcome s₁ with ⟨e | b, s₂⟩ <;> rw [hr] at hrest
    · change Blames s.stream e
      rw [hts]
      exact Blames.of_append hrest
    · obtain ⟨hs₂, ts', hts', hQ⟩ := hrest
      exact ⟨hs₂, ts ++ ts', by rw [hts, hts', List.map_append, List.append_assoc], hQ⟩

theorem takes_advance (hs : ClosesWith s.stream last) (hk : s.current.kind ≠ .endOfText) :
    Takes last s (fun t ts => t = s.current ∧ ts = [t]) (advance.outcome s) := by
  obtain ⟨t, pending⟩ := s
  have htail : ClosesWith pending last := hs.tail fun u hu => by cases hu; exact hk
  rw [outcome_advance]
  match pending with
  | [] =>
    obtain ⟨xs, hxs, -⟩ := htail
    simp at hxs
  | .ok u :: pending => exact ⟨htail, [t], rfl, rfl, rfl⟩
  | .error e :: pending => exact .ahead (List.mem_cons_of_mem _ List.mem_cons_self)

theorem takes_words (p : Position) (n : Nat) (hs : ClosesWith s.stream last) :
    Takes last s
      (fun texts ts => ∃ us c, (∀ t ∈ us, IsWord t) ∧ c.kind = .closeBracket ∧ ts = us ++ [c] ∧
        texts = us.map Token.text)
      ((words p n).outcome s) := by
  induction n generalizing s with
  | zero => exact .other (by simp)
  | succ n ih =>
    simp only [words, outcome_bind, outcome_current]
    split
    · next hc =>
      refine takes_bind (takes_advance hs (by simp [hc])) ?_
      rintro t ts s' hs' ⟨rfl, rfl⟩
      exact takes_pure hs' ⟨[], s.current, List.forall_mem_nil _, hc, rfl, rfl⟩
    · next hc =>
      simp only [outcome_bind, outcome_atEnd]
      split
      · exact .other (by simp)
      · next hend =>
        have hend : s.current.kind ≠ .endOfText := by simpa using hend
        refine takes_bind (takes_advance hs hend) ?_
        rintro t ts s' hs' ⟨rfl, rfl⟩
        refine takes_bind (ih hs') ?_
        rintro texts ts s'' hs'' ⟨us, c, hus, hc', rfl, rfl⟩
        refine takes_pure hs'' ⟨s.current :: us, c, ?_, hc', by simp, rfl⟩
        exact List.forall_mem_cons.2 ⟨⟨hc, hend⟩, hus⟩

/-- A token that is a form of its own. -/
theorem takes_atom {v : Value} (hs : ClosesWith s.stream last) (h : atom? s.current = some v)
    (hk : s.current.kind ≠ .integer) :
    Takes last s TokensOf
      ((do let _ ← advance; return v : ReadM Value).outcome s) := by
  have hend : s.current.kind ≠ .endOfText := by
    intro hk
    rw [atom?_eq_none (by simp [hk])] at h
    cases h
  refine takes_bind (takes_advance hs hend) ?_
  rintro t ts s' hs' ⟨rfl, rfl⟩
  exact takes_pure hs'
    ⟨.atom s.current v h, rfl, rfl, List.forall_mem_singleton.2 fun hi => absurd hi hk⟩

/-- An integer that is read is a form, and it is converted. -/
theorem atom?_of_integer {t : Token} {v : Value} (hk : t.kind = .integer) (h : integer t = .ok v) :
    atom? t = some v ∧ t.IsConverted := by
  simp only [integer] at h
  simp only [atom?, hk]
  split at h
  · cases h
  · split at h
    · cases h
    · next hlen =>
      split at h
      · next hr =>
        cases h
        exact ⟨if_pos hr, fun _ => Nat.le_of_not_lt hlen⟩
      · cases h

theorem takes_integer (hs : ClosesWith s.stream last) (hk : s.current.kind = .integer) :
    Takes last s TokensOf
      ((do let _ ← advance; integer s.current : ReadM Value).outcome s) := by
  have hadvance := takes_advance hs (by simp [hk])
  rw [outcome_bind]
  rcases hr : advance.outcome s with ⟨e | t, s'⟩ <;> rw [hr] at hadvance
  · exact hadvance
  · obtain ⟨hs', ts, hts, rfl, rfl⟩ := hadvance
    simp only [outcome_lift]
    cases hi : integer s.current with
    | error e => exact .integer List.mem_cons_self hk hi
    | ok v =>
      obtain ⟨hatom, hlen⟩ := atom?_of_integer hk hi
      exact ⟨hs', _, hts, .atom s.current v hatom, rfl, rfl, List.forall_mem_singleton.2 hlen⟩

/-- The step for one form, given that for fewer steps. -/
theorem takes_form_succ
    (hform : ∀ {s : Lookahead}, ClosesWith s.stream last →
      Takes last s TokensOf ((form n).outcome s))
    (hforms : ∀ (p : Position) {s : Lookahead}, ClosesWith s.stream last →
      Takes last s (fun vs ts => ∃ us c, TokensOfAll vs us ∧ c.kind = .closeParen ∧ ts = us ++ [c])
        ((forms p n).outcome s))
    (hs : ClosesWith s.stream last) :
    Takes last s TokensOf
      ((form (n + 1)).outcome s) := by
  simp only [form, outcome_bind, outcome_current]
  split
  · next hk =>
    refine takes_bind (takes_advance hs (by simp [hk])) ?_
    rintro t ts s' hs' ⟨rfl, rfl⟩
    refine takes_bind (hforms s.current.pos hs') ?_
    rintro vs ts s'' hs'' ⟨_, c, ⟨fs, rfl, rfl, hlen⟩, hc, rfl⟩
    exact takes_pure hs''
      ⟨.list s.current fs c hk hc, by simp [Form.tokens], by simp [Form.value], hlen⟩
  · next hk =>
    refine takes_bind (takes_advance hs (by simp [hk])) ?_
    rintro t ts s' hs' ⟨rfl, rfl⟩
    refine takes_bind (takes_words s.current.pos n hs') ?_
    rintro texts ts s'' hs'' ⟨us, c, hus, hc, rfl, rfl⟩
    exact takes_pure hs''
      ⟨.words s.current us c hk hus hc, by simp [Form.tokens], by simp [Form.value],
        List.forall_mem_nil _⟩
  · next hk =>
    refine takes_bind (takes_advance hs (by simp [hk])) ?_
    rintro t ts s' hs' ⟨rfl, rfl⟩
    simp only [outcome_bind, outcome_atEnd]
    split
    · exact .other (by simp)
    · refine takes_bind (hform hs') ?_
      rintro v ts s'' hs'' ⟨f, rfl, rfl, hlen⟩
      exact takes_pure hs'' ⟨.quotation s.current f hk, by simp [Form.tokens], rfl, hlen⟩
  · next hk => exact takes_integer hs hk
  · next hk => exact takes_atom hs (by simp [atom?, hk]) (by simp [hk])
  · next hk => exact takes_atom hs (by simp [atom?, hk]) (by simp [hk])
  · next hk => exact takes_atom hs (by simp [atom?, hk]) (by simp [hk])
  · next hk => exact takes_atom hs (by simp [atom?, hk]) (by simp [hk])
  · exact .other (by simp)
  · exact .other (by simp)
  · exact .other (by simp)

theorem takes_form_forms (n : Nat) :
    (∀ {s : Lookahead}, ClosesWith s.stream last →
      Takes last s TokensOf ((form n).outcome s)) ∧
    ∀ (p : Position) {s : Lookahead}, ClosesWith s.stream last →
      Takes last s (fun vs ts => ∃ us c, TokensOfAll vs us ∧ c.kind = .closeParen ∧ ts = us ++ [c])
        ((forms p n).outcome s) := by
  induction n with
  | zero => exact ⟨fun _ => .other (by simp), fun _ _ _ => .other (by simp)⟩
  | succ n ih =>
    refine ⟨fun hs => takes_form_succ ih.1 ih.2 hs, fun p s hs => ?_⟩
    simp only [forms, outcome_bind, outcome_current]
    split
    · next hc =>
      refine takes_bind (takes_advance hs (by simp [hc])) ?_
      rintro t ts s' hs' ⟨rfl, rfl⟩
      exact takes_pure hs'
        ⟨[], s.current, ⟨.none, rfl, rfl, List.forall_mem_nil _⟩, hc, rfl⟩
    · simp only [outcome_bind, outcome_atEnd]
      split
      · exact .other (by simp)
      · refine takes_bind (ih.1 hs) ?_
        rintro v ts s' hs' ⟨f, rfl, rfl, hlen⟩
        refine takes_bind (ih.2 p hs') ?_
        rintro vs ts s'' hs'' ⟨_, c, ⟨fs, rfl, rfl, hlens⟩, hc, rfl⟩
        have hall : TokensOfAll (f.value :: fs.values) (f.tokens ++ fs.tokens) :=
          ⟨.cons f fs, rfl, rfl, List.forall_mem_append.2 ⟨hlen, hlens⟩⟩
        exact takes_pure hs'' ⟨_, c, hall, hc, by simp⟩

/-- **What is read as a form is the form of a derivation.** -/
theorem form_sound (hs : ClosesWith s.stream last) {v : Value}
    (h : (form n).outcome s = (.ok v, s')) :
    ClosesWith s'.stream last ∧ ∃ f : Form, s.stream = f.tokens.map .ok ++ s'.stream ∧
      f.value = v ∧ ∀ t ∈ f.atoms, t.IsConverted := by
  have htakes := (takes_form_forms n).1 hs
  rw [h] at htakes
  obtain ⟨hs', ts, hts, f, rfl, hv, hlen⟩ := htakes
  exact ⟨hs', f, hts, hv, hlen⟩

theorem stream_eq_of_atEnd (hs : ClosesWith s.stream last) (h : s.current.kind = .endOfText) :
    s.stream = [.ok last] := by
  obtain ⟨hlast, hnil⟩ := hs.of_end h
  rw [Lookahead.stream, hlast, hnil]

/-- A form takes up some of the stream. -/
theorem length_form (hs : ClosesWith s.stream last) {v : Value}
    (h : (form n).outcome s = (.ok v, s')) : s'.stream.length < s.stream.length := by
  obtain ⟨-, f, hf, -⟩ := form_sound hs h
  obtain ⟨ts, hts⟩ := f.tokens_eq_cons
  rw [hf, hts, List.length_append, List.length_map, List.length_cons]
  omega

theorem program_sound (hs : ClosesWith s.stream last) (hn : s.stream.length ≤ n) {vs : List Value}
    (h : (program n).outcome s = (.ok vs, s')) :
    ∃ fs : Forms, s.stream = fs.tokens.map .ok ++ [.ok last] ∧ fs.values = vs ∧
      ∀ t ∈ fs.atoms, t.IsConverted := by
  induction n generalizing s vs with
  | zero =>
    rw [s.length_stream] at hn
    cases hn
  | succ n ih =>
    simp only [program, outcome_bind, outcome_atEnd] at h
    split at h
    · next hend =>
      cases h
      exact ⟨.none, stream_eq_of_atEnd hs (of_decide_eq_true hend), rfl, List.forall_mem_nil _⟩
    · rw [outcome_bind] at h
      rcases hr : (form n).outcome s with ⟨e | v, s₁⟩ <;> rw [hr] at h
      · cases h
      · simp only [outcome_bind] at h
        rcases hr' : (program n).outcome s₁ with ⟨e | us, s₂⟩ <;> rw [hr'] at h
        · cases h
        · cases h
          obtain ⟨hs₁, f, hf, rfl, hlen⟩ := form_sound hs hr
          have hlt := length_form hs hr
          obtain ⟨fs, hfs, rfl, hlens⟩ := ih hs₁ (by omega) hr'
          refine ⟨.cons f fs, ?_, rfl, List.forall_mem_append.2 ⟨hlen, hlens⟩⟩
          rw [hf, hfs, Forms.tokens, List.map_append, List.append_assoc]

/-- If forms in a row cannot be read, something ahead may be to blame. -/
theorem blames_program (hs : ClosesWith s.stream last) {e : ReadError}
    (h : ((program n).outcome s).1 = .error e) : Blames s.stream e := by
  induction n generalizing s with
  | zero => cases h
  | succ n ih =>
    rw [program, outcome_atEnd_bind] at h
    split at h
    · cases h
    · have hform := (takes_form_forms n).1 hs
      rw [outcome_bind] at h
      rcases hr : (form n).outcome s with ⟨e' | v, s₁⟩ <;> rw [hr] at h hform
      · cases h
        exact hform
      · obtain ⟨hs₁, ts, hts, -⟩ := hform
        have hrest : ((program n).outcome s₁).1 = .error e := by
          dsimp only at h
          rw [outcome_bind] at h
          rcases hr' : (program n).outcome s₁ with ⟨e' | us, s₂⟩ <;> rw [hr'] at h
          · exact h
          · cases h
        rw [hts]
        exact Blames.of_append (ih hs₁ hrest)

/-- If there is no single form to be read, something ahead may be to blame. -/
theorem blames_onlyForm (hs : ClosesWith s.stream last) {e : ReadError}
    (h : (onlyForm.outcome s).1 = .error e) : Blames s.stream e := by
  simp only [onlyForm, readForm, outcome_bind, outcome_atEnd] at h
  split at h
  · cases h
    exact .other (by simp)
  · simp only [outcome_bind, outcome_get] at h
    have hform := (takes_form_forms s.steps).1 hs
    rcases hr : (form s.steps).outcome s with ⟨e' | v, s₁⟩ <;> rw [hr] at h hform
    · cases h
      exact hform
    · simp only [outcome_atEnd] at h
      split at h
      · cases h
        exact .other (by simp)
      · cases h

/-! ## The reader ends by itself -/

/-- Two steps come to the same if they begin with the same and go on to the same. -/
theorem outcome_bind_congr {act act' : ReadM α} {k k' : α → ReadM β}
    (ha : act.outcome s = act'.outcome s)
    (hk : ∀ a s', act'.outcome s = (.ok a, s') → (k a).outcome s' = (k' a).outcome s') :
    (act >>= k).outcome s = (act' >>= k').outcome s := by
  rw [outcome_bind, outcome_bind, ha]
  rcases hr : act'.outcome s with ⟨e | a, s₁⟩
  · rfl
  · exact hk a s₁ hr

/-- Steps that begin by moving on. -/
theorem outcome_advance_congr {k k' : Token → ReadM β} (hs : ClosesWith s.stream last)
    (hk : s.current.kind ≠ .endOfText)
    (hrest : ∀ s' : Lookahead, ClosesWith s'.stream last → s'.stream.length < s.stream.length →
      (k s.current).outcome s' = (k' s.current).outcome s') :
    (advance >>= k).outcome s = (advance >>= k').outcome s := by
  refine outcome_bind_congr rfl fun t s' hadvance => ?_
  have htakes := takes_advance hs hk
  rw [hadvance] at htakes
  obtain ⟨hs', ts, hts, rfl, rfl⟩ := htakes
  refine hrest s' hs' ?_
  rw [hts]
  exact Nat.lt_succ_self _

theorem words_succ (p : Position) (hs : ClosesWith s.stream last) (hn : s.stream.length ≤ n) :
    (words p (n + 1)).outcome s = (words p n).outcome s := by
  induction n generalizing s with
  | zero =>
    rw [s.length_stream] at hn
    cases hn
  | succ n ih =>
    simp only [words.eq_2, outcome_bind, outcome_current]
    split
    · rfl
    · simp only [outcome_bind, outcome_atEnd]
      split
      · rfl
      · next hend =>
        refine outcome_advance_congr hs (by simpa using hend) fun s' hs' hlt => ?_
        exact outcome_bind_congr (ih hs' (by omega)) fun _ _ _ => rfl

/-- The step for one form, given that for fewer steps. -/
theorem form_succ_succ
    (hform : ∀ {s : Lookahead}, ClosesWith s.stream last → 2 * s.stream.length ≤ n →
      (form (n + 1)).outcome s = (form n).outcome s)
    (hforms : ∀ (p : Position) {s : Lookahead}, ClosesWith s.stream last →
      2 * s.stream.length + 1 ≤ n → (forms p (n + 1)).outcome s = (forms p n).outcome s)
    (hs : ClosesWith s.stream last) (hn : 2 * s.stream.length ≤ n + 1) :
    (form (n + 2)).outcome s = (form (n + 1)).outcome s := by
  simp only [form, outcome_bind, outcome_current]
  split
  · next hk =>
    refine outcome_advance_congr hs (by simp [hk]) fun s' hs' hlt => ?_
    exact outcome_bind_congr (hforms _ hs' (by omega)) fun _ _ _ => rfl
  · next hk =>
    refine outcome_advance_congr hs (by simp [hk]) fun s' hs' hlt => ?_
    exact outcome_bind_congr (words_succ _ hs' (by omega)) fun _ _ _ => rfl
  · next hk =>
    refine outcome_advance_congr hs (by simp [hk]) fun s' hs' hlt => ?_
    simp only [outcome_bind, outcome_atEnd]
    split
    · rfl
    · exact outcome_bind_congr (hform hs' (by omega)) fun _ _ _ => rfl
  all_goals rfl

theorem form_forms_succ (n : Nat) :
    (∀ {s : Lookahead}, ClosesWith s.stream last → 2 * s.stream.length ≤ n →
      (form (n + 1)).outcome s = (form n).outcome s) ∧
    ∀ (p : Position) {s : Lookahead}, ClosesWith s.stream last → 2 * s.stream.length + 1 ≤ n →
      (forms p (n + 1)).outcome s = (forms p n).outcome s := by
  induction n with
  | zero =>
    refine ⟨fun {s} _ hn => ?_, fun _ {s} _ hn => ?_⟩
    · rw [s.length_stream] at hn
      omega
    · omega
  | succ n ih =>
    refine ⟨fun hs hn => form_succ_succ ih.1 ih.2 hs hn, fun p s hs hn => ?_⟩
    simp only [forms, outcome_bind, outcome_current]
    split
    · rfl
    · simp only [outcome_bind, outcome_atEnd]
      split
      · rfl
      · refine outcome_bind_congr (ih.1 hs (by omega)) fun v s' hv => ?_
        have hlt := length_form hs hv
        exact outcome_bind_congr (ih.2 p (form_sound hs hv).1 (by omega)) fun _ _ _ => rfl

theorem program_succ (hs : ClosesWith s.stream last) (hn : 2 * s.stream.length + 1 ≤ n) :
    (program (n + 1)).outcome s = (program n).outcome s := by
  induction n generalizing s with
  | zero => omega
  | succ n ih =>
    simp only [program, outcome_bind, outcome_atEnd]
    split
    · rfl
    · refine outcome_bind_congr ((form_forms_succ n).1 hs (by omega)) fun v s' hv => ?_
      have hlt := length_form hs hv
      exact outcome_bind_congr (ih (form_sound hs hv).1 (by omega)) fun _ _ _ => rfl

theorem le_steps (s : Lookahead) : 2 * s.stream.length + 1 ≤ s.steps := by
  rw [s.length_stream, Lookahead.steps]
  omega

/-- A form takes no more steps than there are ahead. -/
theorem form_steps (hs : ClosesWith s.stream last) (hn : s.steps ≤ n) :
    (form n).outcome s = (form s.steps).outcome s := by
  have hsteps := le_steps s
  induction hn with
  | refl => rfl
  | @step m hm ih =>
    have hm : s.steps ≤ m := hm
    exact ((form_forms_succ m).1 hs (by omega)).trans ih

theorem program_steps (hs : ClosesWith s.stream last) (hn : s.steps ≤ n) :
    (program n).outcome s = (program s.steps).outcome s := by
  have hsteps := le_steps s
  induction hn with
  | refl => rfl
  | @step m hm ih =>
    have hm : s.steps ≤ m := hm
    exact (program_succ hs (by omega)).trans ih

/-! ## Source texts -/

section

variable {source : String}

theorem start_eq_ok : start source = .ok s ↔ (Cursor.ofSource source).tokens = s.stream := by
  unfold start
  obtain ⟨t, pending⟩ := s
  split
  · next u us htokens =>
    rw [htokens]
    simp [Lookahead.stream]
  · next e us htokens =>
    rw [htokens]
    simp [Lookahead.stream]
  · next htokens =>
    rw [htokens]
    simp [Lookahead.stream]

/-- A text is read from its first token on. -/
theorem closed_start (h : start source = .ok s) : ∃ last, ClosesWith s.stream last := by
  rw [← start_eq_ok.1 h]
  exact Cursor.closed_tokens _

/-- Reading begins with the tokens of a text that has no lexical error. -/
theorem start_of_tokenize {ts : List Token} (h : tokenize source = .ok (ts ++ [last])) :
    start source = .ok (.before last ts) := by
  rw [start_eq_ok, Lookahead.stream_before, tokenize_eq_ok.1 h, List.map_append, List.map_singleton]

theorem isNumeral_of_tokenize {ts : List Token} (h : tokenize source = .ok ts) :
    ∀ t ∈ ts, t.IsNumeral :=
  of_tokenize Cursor.isNumeral_next h

/-- The tokens of a derivation, and the end of the text. -/
theorem tokenize_of_stream (h : start source = .ok s) {ts : List Token}
    (hs : s.stream = ts.map .ok ++ [.ok last]) : tokenize source = .ok (ts ++ [last]) := by
  rw [tokenize_eq_ok, start_eq_ok.1 h, hs, List.map_append, List.map_singleton]

theorem parseProgram_eq (source : String) :
    parseProgram source =
      match start source with
      | .ok s => ((program s.steps).outcome s).1
      | .error e => .error e := by
  rw [parseProgram, onSource_eq]
  cases start source with
  | error e => rfl
  | ok s => simp only [outcome_bind, outcome_get]

/-- A program is read from its tokens, and more steps than they take change nothing. -/
theorem parseProgram_of_tokens {stream : List (Except ReadError Token)}
    (htokens : (Cursor.ofSource source).tokens = stream) (hn : 2 * stream.length + 2 ≤ n) :
    parseProgram source = programOn n stream := by
  rw [parseProgram_eq]
  split
  · next s hstart =>
    obtain ⟨last, hs⟩ := closed_start hstart
    obtain rfl : s.stream = stream := (start_eq_ok.1 hstart).symm.trans htokens
    have hsteps : s.steps ≤ n := by
      rw [s.length_stream] at hn
      rw [Lookahead.steps]
      omega
    rw [programOn_stream, program_steps hs hsteps]
  · next e hstart =>
    unfold start at hstart
    rw [htokens] at hstart
    split at hstart <;> cases hstart <;> rfl

/-- **The reader reads a text as these values if and only if the text derives them** and all integers
in it are converted. -/
theorem parseProgram_eq_ok {vs : List Value} :
    parseProgram source = .ok vs ↔ ∃ (fs : Forms) (last : Token),
      tokenize source = .ok (fs.tokens ++ [last]) ∧ last.kind = .endOfText ∧ fs.values = vs ∧
        ∀ t ∈ fs.atoms, t.IsConverted := by
  constructor
  · intro h
    rw [parseProgram_eq] at h
    split at h
    · next s hstart =>
      obtain ⟨last, hs⟩ := closed_start hstart
      rcases hr : (program s.steps).outcome s with ⟨e | us, s'⟩ <;> rw [hr] at h
      · cases h
      · cases h
        have hlen : s.stream.length ≤ s.steps := by
          have := le_steps s
          omega
        obtain ⟨fs, hfs, rfl, hconverted⟩ := program_sound hs hlen hr
        obtain ⟨xs, -, hlast, -⟩ := hs
        exact ⟨fs, last, tokenize_of_stream hstart hfs, hlast, rfl, hconverted⟩
    · cases h
  · rintro ⟨fs, last, htokens, hlast, rfl, hconverted⟩
    have hnumeral := isNumeral_of_tokenize htokens
    have hstream : (Cursor.ofSource source).tokens = fs.tokens.map .ok ++ [.ok last] := by
      rw [tokenize_eq_ok.1 htokens, List.map_append, List.map_singleton]
    obtain ⟨m, -, hread⟩ := program_forms fs
      (fun t ht => hnumeral t (List.mem_append_left _ ht)) hconverted
      (n := 2 * (fs.tokens.length + 1) + 2) (by omega) (List.cons_ne_nil (.ok last) [])
    have hprogram := parseProgram_of_tokens (n := 2 * (fs.tokens.length + 1) + 2) hstream (by simp)
    rw [hprogram, hread, programOn_end hlast, Except.map, List.append_nil]

/-- If a text has no first token, a lexical error is to blame. -/
theorem blames_start {e : ReadError} (h : start source = .error e) :
    Blames (Cursor.ofSource source).tokens e := by
  unfold start at h
  split at h
  · cases h
  · next htokens =>
    cases h
    exact .ahead (htokens ▸ List.mem_cons_self)
  · cases h
    exact .other (by simp)

theorem blames_parseProgram {e : ReadError} (h : parseProgram source = .error e) :
    Blames (Cursor.ofSource source).tokens e := by
  rw [parseProgram_eq] at h
  split at h
  · next s hstart =>
    obtain ⟨last, hs⟩ := closed_start hstart
    rw [start_eq_ok.1 hstart]
    exact blames_program hs h
  · next hstart =>
    cases h
    exact blames_start hstart

theorem blames_parse {e : ReadError} (h : parse source = .error e) :
    Blames (Cursor.ofSource source).tokens e := by
  rw [parse, onSource_eq] at h
  split at h
  · next s hstart =>
    obtain ⟨last, hs⟩ := closed_start hstart
    rw [start_eq_ok.1 hstart]
    exact blames_onlyForm hs h
  · next hstart =>
    cases h
    exact blames_start hstart

theorem parse_eq_ok {v : Value} :
    parse source = .ok v ↔ ∃ (f : Form) (last : Token),
      tokenize source = .ok (f.tokens ++ [last]) ∧ last.kind = .endOfText ∧ f.value = v ∧
        ∀ t ∈ f.atoms, t.IsConverted := by
  rw [parse, onSource_eq]
  constructor
  · intro h
    split at h
    · next s hstart =>
      obtain ⟨last, hs⟩ := closed_start hstart
      simp only [onlyForm, readForm, outcome_bind, outcome_atEnd] at h
      split at h
      · cases h
      · simp only [outcome_bind, outcome_get] at h
        rcases hr : (form s.steps).outcome s with ⟨e | u, s'⟩ <;> rw [hr] at h
        · cases h
        · simp only [outcome_atEnd] at h
          split at h
          · cases h
          · next hend =>
            cases h
            obtain ⟨hs', f, hf, rfl, hconverted⟩ := form_sound hs hr
            have hend : s'.current.kind = .endOfText := by simpa using hend
            rw [stream_eq_of_atEnd hs' hend] at hf
            obtain ⟨xs, -, hlast, -⟩ := hs
            exact ⟨f, last, tokenize_of_stream hstart hf, hlast, rfl, hconverted⟩
    · cases h
  · rintro ⟨f, last, htokens, hlast, rfl, hconverted⟩
    have hnumeral := isNumeral_of_tokenize htokens
    have hlen : f.tokens.length ≤ (Lookahead.before last f.tokens).steps := by
      have := le_steps (.before last f.tokens)
      rw [Lookahead.stream_before, List.length_append, List.length_map] at this
      omega
    have hread : (form _).outcome (.before last f.tokens) = (.ok f.value, .before last []) :=
      Arrives.eq (s := .before last []) (form_arrives f
        (fun t ht => hnumeral t (List.mem_append_left _ ht)) hconverted hlen
        (Lookahead.stream_before last f.tokens) (List.cons_ne_nil _ _))
    obtain ⟨ts, hts⟩ := f.tokens_eq_cons
    have hhead : (Lookahead.before last f.tokens).current.kind ≠ .endOfText := by
      rw [hts]
      exact fun hk => f.not_endsForms_head (.inr hk)
    have hbehind : (Lookahead.before last []).current.kind = .endOfText := hlast
    rw [start_of_tokenize htokens]
    simp only [onlyForm, readForm, outcome_bind, outcome_atEnd, outcome_get, hhead, decide_false,
      Bool.false_eq_true, if_false, hread, hbehind, decide_true, Bool.not_true, outcome_pure]

end

end Reader

end AmbLisp
