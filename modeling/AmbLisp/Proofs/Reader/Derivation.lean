import AmbLisp.Proofs.Integer
import AmbLisp.Proofs.Reader.Grammar
import AmbLisp.Proofs.Reader.Outcome
import AmbLisp.Proofs.Token.Stream

/-!
# The reader reads by the grammar

The reader makes of the tokens of a derivation the value of the derivation, whatever comes behind
them, if all integers in it are converted: `form_arrives`, `forms_arrives`, `program_forms`. One step
for each token is enough. As it always has the next token in view, it has to do with what comes behind
only if that is an error.
-/

namespace AmbLisp

/-- All tokens from the one in view on. -/
def Lookahead.stream (s : Lookahead) : List (Except ReadError Token) :=
  .ok s.current :: s.pending

theorem Lookahead.length_stream (s : Lookahead) : s.stream.length = s.pending.length + 1 := rfl

/-- The state of reading before these tokens, behind which the text ends. -/
def Lookahead.before (last : Token) : List Token → Lookahead
  | [] => ⟨last, []⟩
  | t :: ts => ⟨t, ts.map .ok ++ [.ok last]⟩

theorem Lookahead.stream_before (last : Token) (ts : List Token) :
    (Lookahead.before last ts).stream = ts.map .ok ++ [.ok last] := by
  cases ts <;> rfl

namespace Reader

open ExceptT Grammar

variable {α β : Type} {s : Lookahead} {later : List (Except ReadError Token)}

/-! ## Arrival -/

/-- A step of the reader has come to `a`, and this stream is ahead. If it begins with an error, then
the step has come upon that instead. -/
inductive Arrives : List (Except ReadError Token) → α → Except ReadError α × Lookahead → Prop
  | inView (a : α) (s : Lookahead) : Arrives s.stream a (.ok a, s)
  | unreadable (e : ReadError) (rest : List (Except ReadError Token)) (a : α) (s : Lookahead) :
      Arrives (.error e :: rest) a (.error e, s)

theorem arrives_pure (a : α) (hs : s.stream = later) :
    Arrives later a ((pure a : ReadM α).outcome s) :=
  hs ▸ .inView a s

theorem arrives_advance {t : Token} (hs : s.stream = .ok t :: later) (hlater : later ≠ []) :
    Arrives later t (advance.outcome s) := by
  obtain ⟨u, pending⟩ := s
  obtain ⟨rfl, rfl⟩ : u = t ∧ pending = later := by simpa [Lookahead.stream] using hs
  rw [outcome_advance]
  match pending, hlater with
  | .ok u :: pending, _ => exact .inView _ ⟨u, pending⟩
  | .error e :: pending, _ => exact .unreadable e pending _ _

theorem Arrives.bind {act : ReadM α} {k : α → ReadM β} {a : α} {b : β} {ts : List Token}
    (h : Arrives (ts.map .ok ++ later) a (act.outcome s))
    (hk : ∀ s', s'.stream = ts.map .ok ++ later → Arrives later b ((k a).outcome s')) :
    Arrives later b ((act >>= k).outcome s) := by
  rw [outcome_bind]
  generalize act.outcome s = out at h
  generalize hstream : ts.map Except.ok ++ later = stream at h hk
  cases h with
  | inView _ s => exact hk s rfl
  | unreadable e rest =>
    -- what begins with an error has no tokens in front
    cases ts with
    | nil =>
      rw [List.map_nil, List.nil_append] at hstream
      exact hstream ▸ .unreadable e rest b _
    | cons => cases hstream

/-- The last steps, at which all tokens are taken. -/
theorem Arrives.bind_last {act : ReadM α} {k : α → ReadM β} {a : α} {b : β}
    (h : Arrives later a (act.outcome s))
    (hk : ∀ s', s'.stream = later → Arrives later b ((k a).outcome s')) :
    Arrives later b ((act >>= k).outcome s) := by
  have hnone : ([] : List Token).map Except.ok ++ later = later := rfl
  exact Arrives.bind (hnone ▸ h) (hnone ▸ hk)

theorem Arrives.eq {a : α} {out : Except ReadError α × Lookahead} (h : Arrives s.stream a out) :
    out = (.ok a, s) := by
  generalize hstream : s.stream = stream at h
  cases h with
  | inView _ s' =>
    obtain ⟨⟩ := s
    obtain ⟨⟩ := s'
    cases hstream
    rfl
  | unreadable => cases hstream

theorem append_ne_nil (xs : List (Except ReadError Token)) (hlater : later ≠ []) :
    xs ++ later ≠ [] :=
  List.append_ne_nil_of_right_ne_nil xs hlater

/-! ## What has a derivation is read -/

theorem current_of_stream {t : Token} (hs : s.stream = .ok t :: later) : s.current = t := by
  cases hs
  rfl

theorem integer_eq {t : Token} (hn : Integer.isNumeral t.text.toList = true)
    (hr : Integer.inRange (Integer.value t.text.toList) = true)
    (hlen : (Integer.unsigned t.text.toList).length ≤ Integer.maxConverted) :
    integer t = .ok (.int (Integer.value t.text.toList)) := by
  simp only [integer, if_neg (Nat.not_lt.2 (Integer.length_significant_le hn hr)),
    if_neg (Nat.not_lt.2 hlen), hr, if_true]

theorem atom_arrives {t : Token} {v : Value} (h : atom? t = some v) (ht : t.IsNumeral)
    (hlen : t.IsConverted) (n : Nat) (hs : s.stream = .ok t :: later) (hlater : later ≠ []) :
    Arrives later v ((form (n + 1)).outcome s) := by
  have hpast : ∀ v : Value, Arrives later v ((do let _ ← advance; return v : ReadM Value).outcome s) :=
    fun v => (arrives_advance hs hlater).bind_last fun s' hs' => arrives_pure v hs'
  simp only [form, outcome_bind, outcome_current, current_of_stream hs]
  unfold atom? at h
  split at h
  · next hk => cases h; simp only [hk]; exact hpast _
  · next hk => cases h; simp only [hk]; exact hpast _
  · next hk => cases h; simp only [hk]; exact hpast _
  · next hk => cases h; simp only [hk]; exact hpast _
  · next hk =>
    simp only at h
    split at h
    · next hr =>
      cases h
      simp only [hk]
      refine (arrives_advance hs hlater).bind_last fun s' hs' => ?_
      rw [integer_eq (ht hk) hr (hlen hk)]
      exact arrives_pure _ hs'
    · cases h
  · cases h

theorem words_arrives {ts : List Token} (hw : ∀ t ∈ ts, IsWord t) {c : Token}
    (hc : c.kind = .closeBracket) (p : Position) {n : Nat} (hn : ts.length + 1 ≤ n)
    (hs : s.stream = (ts ++ [c]).map .ok ++ later) (hlater : later ≠ []) :
    Arrives later (ts.map Token.text) ((words p n).outcome s) := by
  induction ts generalizing n s with
  | nil =>
    obtain ⟨n, rfl⟩ := Nat.exists_eq_add_one.2 hn
    rw [words, outcome_current_bind, current_of_stream hs, if_pos hc]
    exact (arrives_advance hs hlater).bind_last fun s' hs' => arrives_pure _ hs'
  | cons t ts ih =>
    obtain ⟨n, rfl⟩ := Nat.exists_eq_add_one.2 (Nat.lt_of_lt_of_le (Nat.succ_pos _) hn)
    rw [List.forall_mem_cons] at hw
    obtain ⟨⟨hclose, hend⟩, hw⟩ := hw
    rw [words, outcome_current_bind, current_of_stream hs, if_neg hclose, outcome_atEnd_bind,
      current_of_stream hs, decide_eq_false hend, if_neg Bool.false_ne_true]
    refine (arrives_advance hs (append_ne_nil _ hlater)).bind fun s' hs' => ?_
    refine (ih hw (Nat.le_of_succ_le_succ hn) hs').bind_last fun s'' hs'' => ?_
    exact arrives_pure _ hs''

mutual

theorem form_arrives (f : Form) (hf : ∀ t ∈ f.tokens, t.IsNumeral)
    (hlen : ∀ t ∈ f.atoms, t.IsConverted) {n : Nat} {s : Lookahead}
    {later : List (Except ReadError Token)} (hn : f.tokens.length ≤ n)
    (hs : s.stream = f.tokens.map .ok ++ later) (hlater : later ≠ []) :
    Arrives later f.value ((form n).outcome s) := by
  obtain ⟨us, hus⟩ := f.tokens_eq_cons
  obtain ⟨n, rfl⟩ : ∃ m, n = m + 1 := ⟨n - 1, by rw [hus, List.length_cons] at hn; omega⟩
  match f with
  | .atom t v h =>
    exact atom_arrives h (hf t List.mem_cons_self) (hlen t List.mem_cons_self) n hs hlater
  | .list o items c ho hc =>
    simp only [Form.tokens, List.mem_cons, List.mem_append, List.length_cons, List.length_append,
      List.length_nil] at hf hn
    rw [form, outcome_current_bind, current_of_stream hs, ho]
    refine (arrives_advance hs (append_ne_nil _ hlater)).bind fun s' hs' => ?_
    refine Arrives.bind_last ?_ fun s'' hs'' => arrives_pure _ hs''
    exact forms_arrives items (fun t ht => hf t (.inr (.inl ht))) hlen hc o.pos (by omega) hs' hlater
  | .words o us c ho hw hc =>
    simp only [Form.tokens, List.length_cons, List.length_append, List.length_nil] at hn
    rw [form, outcome_current_bind, current_of_stream hs, ho]
    refine (arrives_advance hs (append_ne_nil _ hlater)).bind fun s' hs' => ?_
    refine Arrives.bind_last ?_ fun s'' hs'' => arrives_pure _ hs''
    exact words_arrives hw hc o.pos (by omega) hs' hlater
  | .quotation m body hm =>
    simp only [Form.tokens, List.mem_cons, List.length_cons] at hf hn
    rw [form, outcome_current_bind, current_of_stream hs, hm]
    refine (arrives_advance hs (append_ne_nil _ hlater)).bind fun s' hs' => ?_
    -- the token behind the quote mark is not the end of the text
    obtain ⟨vs, hvs⟩ := body.tokens_eq_cons
    have hend : body.head.kind ≠ .endOfText := fun hk => body.not_endsForms_head (.inr hk)
    have hhead : s'.current = body.head := by
      rw [hvs] at hs'
      exact current_of_stream hs'
    rw [outcome_atEnd_bind, hhead, decide_eq_false hend, if_neg Bool.false_ne_true]
    refine Arrives.bind_last ?_ fun s'' hs'' => arrives_pure _ hs''
    exact form_arrives body (fun t ht => hf t (.inr ht)) hlen (by omega) hs' hlater

theorem forms_arrives (fs : Forms) (hf : ∀ t ∈ fs.tokens, t.IsNumeral)
    (hlen : ∀ t ∈ fs.atoms, t.IsConverted) {c : Token} (hc : c.kind = .closeParen) (p : Position)
    {n : Nat} {s : Lookahead} {later : List (Except ReadError Token)} (hn : fs.tokens.length + 1 ≤ n)
    (hs : s.stream = (fs.tokens ++ [c]).map .ok ++ later) (hlater : later ≠ []) :
    Arrives later fs.values ((forms p n).outcome s) := by
  obtain ⟨n, rfl⟩ := Nat.exists_eq_add_one.2 (Nat.lt_of_lt_of_le (Nat.succ_pos _) hn)
  match fs with
  | .none =>
    rw [forms, outcome_current_bind, current_of_stream hs, if_pos hc]
    exact (arrives_advance hs hlater).bind_last fun s' hs' => arrives_pure _ hs'
  | .cons f rest =>
    simp only [Forms.tokens, List.mem_append, List.length_append] at hf hn
    rw [Forms.atoms, List.forall_mem_append] at hlen
    obtain ⟨us, hus⟩ := f.tokens_eq_cons
    have hpos : 0 < f.tokens.length := by
      rw [hus]
      exact Nat.succ_pos _
    have hhead : s.current = f.head := by
      rw [Forms.tokens, hus] at hs
      exact current_of_stream hs
    have hclose : f.head.kind ≠ .closeParen := fun hk => f.not_endsForms_head (.inl hk)
    have hend : f.head.kind ≠ .endOfText := fun hk => f.not_endsForms_head (.inr hk)
    rw [Forms.tokens, List.append_assoc, List.map_append, List.append_assoc] at hs
    rw [forms, outcome_current_bind, hhead, if_neg hclose, outcome_atEnd_bind, hhead,
      decide_eq_false hend, if_neg Bool.false_ne_true]
    have hfirst := form_arrives f (fun t ht => hf t (.inl ht)) hlen.1 (n := n) (by omega) hs
      (append_ne_nil _ hlater)
    refine hfirst.bind fun s' hs' => ?_
    refine Arrives.bind_last ?_ fun s'' hs'' => arrives_pure _ hs''
    exact forms_arrives rest (fun t ht => hf t (.inr ht)) hlen.2 hc p (by omega) hs' hlater

end

/-! ## Programs -/

/-- What the forms ahead in a stream are read as. -/
def programOn (n : Nat) : List (Except ReadError Token) → Except ReadError (List Value)
  | .ok t :: pending => ((program n).outcome ⟨t, pending⟩).1
  | .error e :: _ => .error e
  | [] => .error ⟨.noForm, {}⟩

theorem programOn_stream (n : Nat) (s : Lookahead) :
    programOn n s.stream = ((program n).outcome s).1 := rfl

/-- At the end of the text there are no more forms. -/
theorem programOn_end {last : Token} (hlast : last.kind = .endOfText) (n : Nat) :
    programOn n [.ok last] = .ok [] := by
  cases n with
  | zero => rfl
  | succ n =>
    change ((program (n + 1)).outcome ⟨last, []⟩).1 = .ok []
    rw [program, outcome_atEnd_bind, decide_eq_true hlast, if_pos rfl]
    rfl

/-- To read a form in front is to read it first. -/
theorem programOn_cons {f : Form} (hf : ∀ t ∈ f.tokens, t.IsNumeral)
    (hlen : ∀ t ∈ f.atoms, t.IsConverted) {n : Nat} (hn : f.tokens.length ≤ n) (hlater : later ≠ []) :
    programOn (n + 1) (f.tokens.map .ok ++ later) = (programOn n later).map (f.value :: ·) := by
  obtain ⟨us, hus⟩ := f.tokens_eq_cons
  have hend : f.head.kind ≠ .endOfText := fun hk => f.not_endsForms_head (.inr hk)
  let s : Lookahead := ⟨f.head, us.map .ok ++ later⟩
  have hs : s.stream = f.tokens.map .ok ++ later := by rw [hus]; rfl
  rw [← hs, programOn_stream, program, outcome_atEnd_bind, decide_eq_false hend,
    if_neg Bool.false_ne_true, outcome_bind]
  have hread := form_arrives f hf hlen hn hs hlater
  generalize (form n).outcome s = out at hread
  cases hread with
  | inView _ s' =>
    simp only [programOn_stream, outcome_bind]
    rcases (program n).outcome s' with ⟨_ | _, _⟩ <;> rfl
  | unreadable => rfl

/-- **What has a derivation is read**, and then what comes behind it. -/
theorem program_forms (fs : Forms) (hf : ∀ t ∈ fs.tokens, t.IsNumeral)
    (hlen : ∀ t ∈ fs.atoms, t.IsConverted) {n : Nat} (hn : fs.tokens.length < n) (hlater : later ≠ []) :
    ∃ m, n ≤ m + fs.tokens.length ∧
      programOn n (fs.tokens.map .ok ++ later) = (programOn m later).map (fs.values ++ ·) := by
  induction n generalizing fs with
  | zero => exact absurd hn (Nat.not_lt_zero _)
  | succ n ih =>
    match fs with
    | .none =>
      refine ⟨n + 1, Nat.le_refl _, ?_⟩
      rw [Forms.tokens, Forms.values, List.map_nil, List.nil_append]
      cases programOn (n + 1) later <;> rfl
    | .cons f rest =>
      simp only [Forms.tokens, List.mem_append, List.length_append] at hf hn
      rw [Forms.atoms, List.forall_mem_append] at hlen
      obtain ⟨us, hus⟩ := f.tokens_eq_cons
      have hpos : 0 < f.tokens.length := by
        rw [hus]
        exact Nat.succ_pos _
      obtain ⟨m, hm, hrest⟩ := ih rest (fun t ht => hf t (.inr ht)) hlen.2 (by omega)
      refine ⟨m, by rw [Forms.tokens, List.length_append]; omega, ?_⟩
      rw [Forms.tokens, List.map_append, List.append_assoc,
        programOn_cons (fun t ht => hf t (.inl ht)) hlen.1 (by omega) (append_ne_nil _ hlater),
        hrest, Forms.values]
      cases programOn m later <;> rfl

end Reader

end AmbLisp
