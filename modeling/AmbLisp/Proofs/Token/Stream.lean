import AmbLisp.Proofs.Token.Lexing

/-!
# The tokens of a source text

What the lexer makes of a whole text ends with the end of the text, which comes nowhere else
(`Cursor.closed_tokens`). To tokenize a text succeeds if and only if there is no error before that
(`tokenize_eq_ok`), and then what holds of each token that may come next holds of all of them
(`of_tokenize`, and `of_tokenize_from` for what depends on the text).
-/

namespace AmbLisp

/-- The end of a text comes last, and nowhere else. -/
def ClosesWith (stream : List (Except ReadError Token)) (last : Token) : Prop :=
  ∃ xs, stream = xs ++ [.ok last] ∧ last.kind = .endOfText ∧
    ∀ t, .ok t ∈ xs → t.kind ≠ .endOfText

theorem closesWith_singleton {last : Token} (h : last.kind = .endOfText) :
    ClosesWith [.ok last] last :=
  ⟨[], rfl, h, nofun⟩

theorem ClosesWith.cons {x : Except ReadError Token} {stream : List (Except ReadError Token)}
    {last : Token} (h : ClosesWith stream last) (hx : ∀ t, x = .ok t → t.kind ≠ .endOfText) :
    ClosesWith (x :: stream) last := by
  obtain ⟨xs, rfl, hlast, hxs⟩ := h
  refine ⟨x :: xs, rfl, hlast, fun t ht => ?_⟩
  rcases List.mem_cons.1 ht with rfl | ht
  · exact hx t rfl
  · exact hxs t ht

/-- Behind anything but the end there is more to come. -/
theorem ClosesWith.tail {x : Except ReadError Token} {stream : List (Except ReadError Token)}
    {last : Token} (h : ClosesWith (x :: stream) last) (hx : ∀ t, x = .ok t → t.kind ≠ .endOfText) :
    ClosesWith stream last := by
  obtain ⟨xs, hstream, hlast, hxs⟩ := h
  cases xs with
  | nil =>
    obtain ⟨rfl, -⟩ := List.cons.inj hstream
    exact absurd hlast (hx last rfl)
  | cons y ys =>
    obtain ⟨-, rfl⟩ := List.cons.inj hstream
    exact ⟨ys, rfl, hlast, fun t ht => hxs t (List.mem_cons_of_mem _ ht)⟩

/-- Behind the end there is nothing. -/
theorem ClosesWith.of_end {t : Token} {stream : List (Except ReadError Token)} {last : Token}
    (h : ClosesWith (.ok t :: stream) last) (ht : t.kind = .endOfText) : t = last ∧ stream = [] := by
  obtain ⟨xs, hstream, -, hxs⟩ := h
  cases xs with
  | nil =>
    obtain ⟨hhead, htail⟩ := List.cons.inj hstream
    exact ⟨Except.ok.inj hhead, htail⟩
  | cons y ys =>
    obtain ⟨rfl, -⟩ := List.cons.inj hstream
    exact absurd ht (hxs t List.mem_cons_self)

/-- If the token is an integer, it is a numeral. -/
def Token.IsNumeral (t : Token) : Prop :=
  t.kind = .integer → Integer.isNumeral t.text.toList = true

namespace Cursor

variable {c c' : Cursor}

theorem closed_tokensWithin {n : Nat} (c : Cursor) (h : c.rest.length < n) :
    ∃ last, ClosesWith (c.tokensWithin n) last := by
  induction n generalizing c with
  | zero => exact absurd h (Nat.not_lt_zero _)
  | succ n ih =>
    rcases hn : c.next with ⟨x, c'⟩
    rcases end_or_more x with ⟨t, rfl, ht⟩ | hx
    · exact ⟨t, tokensWithin_end hn ht n ▸ closesWith_singleton ht⟩
    · have hlt := length_next hn hx
      obtain ⟨last, hlast⟩ := ih c' (by omega)
      exact ⟨last, tokensWithin_next hn hx n ▸ hlast.cons hx⟩

theorem closed_tokens (c : Cursor) : ∃ last, ClosesWith c.tokens last :=
  closed_tokensWithin c (Nat.lt_succ_self _)

/-- What holds of whatever may come next holds of all that comes, if what the cursor needs for that
holds behind each token. -/
theorem of_mem_tokensWithin {I : Cursor → Prop} {P : Except ReadError Token → Prop}
    (hnext : ∀ c : Cursor, I c → I c.next.2 ∧ P c.next.1) (hc : I c) {n : Nat}
    {x : Except ReadError Token} (h : x ∈ c.tokensWithin n) : P x := by
  induction n generalizing c with
  | zero => cases h
  | succ n ih =>
    obtain ⟨hbehind, hfirst⟩ := hnext c hc
    rcases hn : c.next with ⟨y, c'⟩
    rw [hn] at hbehind hfirst
    rcases end_or_more y with ⟨u, rfl, hu⟩ | hy
    · rw [tokensWithin_end hn hu] at h
      exact List.mem_singleton.1 h ▸ hfirst
    · rw [tokensWithin_next hn hy] at h
      rcases List.mem_cons.1 h with rfl | h
      · exact hfirst
      · exact ih hbehind h

/-- Strings that do not end are the only lexical errors. -/
theorem reason_of_mem_tokens {e : ReadError} (h : .error e ∈ c.tokens) :
    e.reason = .unterminatedString := by
  refine of_mem_tokensWithin (I := fun _ => True)
    (P := fun x => ∀ e, x = .error e → e.reason = .unterminatedString)
    (fun c _ => ⟨trivial, fun e he => ?_⟩) trivial h e rfl
  have hnext := next_spec c
  generalize c.next = out at hnext he
  cases hnext with
  | token | endOfText => cases he
  | unterminated =>
    cases he
    rfl

/-- What may be a bare word is the word as it is written, with no character left out. -/
theorem bareWord_of_next {t : Token} (h : c.next = (.ok t, c'))
    (hk : t.kind = .symbol ∨ t.kind = .integer) :
    ∃ w, w ≠ [] ∧ (∀ ch ∈ w, isWordChar ch = true) ∧ wordKind w = t.kind ∧
      String.ofList w = t.text := by
  have hnext := next_spec c
  rw [h] at hnext
  cases hnext with
  | endOfText => rcases hk with hk | hk <;> cases hk
  | token _ _ hlex =>
    cases hlex with
    | punctuation hc =>
      unfold punctuation? at hc
      rcases hk with rfl | rfl <;> split at hc <;> cases hc
    | string => rcases hk with hk | hk <;> cases hk
    | word hne hw => exact ⟨_, hne, hw, rfl, rfl⟩

theorem isNumeral_next {t : Token} (h : c.next = (.ok t, c')) : t.IsNumeral := by
  intro hk
  obtain ⟨w, -, -, hkind, htext⟩ := bareWord_of_next h (.inr hk)
  rw [hk] at hkind
  unfold wordKind at hkind
  rw [← htext, String.toList_ofList]
  split at hkind
  · assumption
  · split at hkind
    · cases hkind
    · split at hkind <;> cases hkind

end Cursor

theorem mapM_id_eq_ok {ε α : Type} {xs : List (Except ε α)} {as : List α} :
    xs.mapM id = .ok as ↔ xs = as.map .ok := by
  induction xs generalizing as with
  | nil =>
    rw [List.mapM_nil]
    cases as <;> simp [pure, Except.pure]
  | cons x xs ih =>
    rw [List.mapM_cons]
    rcases x with e | a
    · cases as <;> simp [bind, Except.bind]
    · rcases hxs : xs.mapM id with e | bs
      · cases as <;> simp [bind, Except.bind, ← ih, hxs]
      · cases as <;> simp [bind, Except.bind, pure, Except.pure, ← ih, hxs]

theorem tokenize_eq_ok {source : String} {ts : List Token} :
    tokenize source = .ok ts ↔ (Cursor.ofSource source).tokens = ts.map .ok :=
  mapM_id_eq_ok

theorem of_tokenize_from {I : Cursor → Prop} {P : Token → Prop}
    (hnext : ∀ c : Cursor, I c → I c.next.2 ∧ ∀ t, c.next.1 = .ok t → P t) {source : String}
    (hsource : I (Cursor.ofSource source)) {ts : List Token} (h : tokenize source = .ok ts) :
    ∀ t ∈ ts, P t := by
  intro t ht
  have hmem : .ok t ∈ (Cursor.ofSource source).tokens := by
    rw [tokenize_eq_ok.1 h]
    exact List.mem_map_of_mem ht
  exact Cursor.of_mem_tokensWithin (P := fun x => ∀ t, x = .ok t → P t) hnext hsource hmem t rfl

theorem of_tokenize {P : Token → Prop}
    (hnext : ∀ {c c' : Cursor} {t : Token}, c.next = (.ok t, c') → P t) {source : String}
    {ts : List Token} (h : tokenize source = .ok ts) : ∀ t ∈ ts, P t :=
  of_tokenize_from (I := fun _ => True)
    (fun _ _ => ⟨trivial, fun _ ht => hnext (Prod.ext ht rfl)⟩) trivial h

end AmbLisp
