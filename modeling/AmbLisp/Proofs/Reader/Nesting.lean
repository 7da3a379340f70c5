import AmbLisp.Proofs.Reader.Recognition
import AmbLisp.Value.Nesting

/-!
# How deeply a text is nested

How deeply a text is nested can be told from its tokens, whether it can be read or not. If it can, its
forms are nested as deeply as their values are (`formNesting_eq`, `programNesting_eq`). The argument
goes along a derivation: what a form adds to the forms that it stands in are the levels of its value
(`Form.deepest`), and behind it reading stands where it stood before it.
-/

namespace AmbLisp

namespace Reader

open Grammar

variable {more : Bool} {es : List Enclosure} {later : List (Except ReadError Token)}

namespace Standing

/-- The greatest number of forms in each other behind a form that stands in these. -/
def deepestBehind (more : Bool) (es : List Enclosure) (later : List (Except ReadError Token)) : Nat :=
  (behindForm more es).elim 0 (·.deepest more later)

theorem deepest_ok {inWords : Bool} {t : Token} :
    deepest more { enclosures := es, inWords } (.ok t :: later) =
      max es.length ((next? more { enclosures := es, inWords } t).elim 0 (·.deepest more later)) := by
  rw [deepest]

theorem next?_atom {t : Token} {v : Value} (h : atom? t = some v) (hnumeral : t.IsNumeral)
    (hconverted : t.IsConverted) :
    next? more { enclosures := es } t = behindForm more es := by
  unfold next?
  unfold atom? at h
  split at h
  · next hk => simp only [hk, Bool.false_eq_true, if_false]
  · next hk => simp only [hk, Bool.false_eq_true, if_false]
  · next hk => simp only [hk, Bool.false_eq_true, if_false]
  · next hk => simp only [hk, Bool.false_eq_true, if_false]
  · next hk =>
    dsimp only at h
    split at h
    · next hr =>
      have hinteger := integer_eq (hnumeral hk) hr (hconverted hk)
      simp only [hk, hinteger, Except.isOk, Except.toBool, Bool.false_eq_true, if_false, if_true]
    · cases h
  · cases h

theorem next?_open {t : Token} (h : t.kind = .openParen) :
    next? more { enclosures := es } t = some { enclosures := .list :: es } := by
  simp only [next?, h, Bool.false_eq_true, if_false]

theorem next?_quote {t : Token} (h : t.kind = .quote) :
    next? more { enclosures := es } t = some { enclosures := .quotation :: es } := by
  simp only [next?, h, Bool.false_eq_true, if_false]

theorem next?_bracket {t : Token} (h : t.kind = .openBracket) :
    next? more { enclosures := es } t = some { enclosures := es, inWords := true } := by
  simp only [next?, h, Bool.false_eq_true, if_false]

theorem next?_close {t : Token} (h : t.kind = .closeParen) :
    next? more { enclosures := .list :: es } t = behindForm more es := by
  simp only [next?, h, Bool.false_eq_true, if_false]

theorem deepest_last {last : Token} (h : last.kind = .endOfText) :
    deepest more {} [.ok last] = 0 := by
  rw [deepest_ok, next?, if_neg Bool.false_ne_true, h]
  rfl

/-- Between brackets no form begins or ends. -/
theorem deepest_words {ts : List Token} (hw : ∀ t ∈ ts, IsWord t) {closing : Token}
    (hc : closing.kind = .closeBracket) :
    deepest more { enclosures := es, inWords := true } ((ts ++ [closing]).map .ok ++ later) =
      max es.length (deepestBehind more es later) := by
  induction ts with
  | nil =>
    change deepest more _ (.ok closing :: later) = _
    rw [deepest_ok, next?, if_pos rfl, hc]
    rfl
  | cons t ts ih =>
    rw [List.forall_mem_cons] at hw
    obtain ⟨⟨hclose, hend⟩, hw⟩ := hw
    have hnext : next? more { enclosures := es, inWords := true } t =
        some { enclosures := es, inWords := true } := by
      unfold next?
      rw [if_pos rfl]
      split <;> first | rfl | contradiction
    rw [List.cons_append, List.map_cons, List.cons_append, deepest_ok, hnext, Option.elim_some, ih hw]
    exact max_eq_right (Nat.le_max_left _ _)

end Standing

end Reader

namespace Grammar

open Reader Reader.Standing

variable {more : Bool}

theorem nesting_of_atom? {t : Token} {v : Value} (h : atom? t = some v) : v.nesting = 0 := by
  unfold atom? at h
  split at h
  · cases h; rfl
  · cases h; rfl
  · cases h; rfl
  · cases h; rfl
  · dsimp only at h
    split at h
    · cases h; rfl
    · cases h
  · cases h

mutual

/-- **A form adds the levels of its value** to those that it stands in. -/
theorem Form.deepest (f : Form) (es : List Enclosure) (hnumeral : ∀ t ∈ f.tokens, t.IsNumeral)
    (hconverted : ∀ t ∈ f.atoms, t.IsConverted) (later : List (Except ReadError Token)) :
    Standing.deepest more { enclosures := es } (f.tokens.map .ok ++ later) =
      max (es.length + f.value.nesting) (deepestBehind more es later) := by
  match f with
  | .atom t v h =>
    change Standing.deepest more _ (.ok t :: later) = max (es.length + v.nesting) _
    rw [deepest_ok, next?_atom h (hnumeral t List.mem_cons_self) (hconverted t List.mem_cons_self),
      nesting_of_atom? h]
    rfl
  | .list opening items closing ho hc =>
    have hitems := items.deepest es
      (fun t ht => hnumeral t (List.mem_cons_of_mem _ (List.mem_append_left _ ht))) hconverted hc later
    change Standing.deepest more _ (.ok opening :: ((items.tokens ++ [closing]).map .ok ++ later)) = _
    rw [deepest_ok, next?_open ho, Option.elim_some, hitems, Form.value, Value.nesting]
    omega
  | .words opening ts closing ho hw hc =>
    change Standing.deepest more _ (.ok opening :: ((ts ++ [closing]).map .ok ++ later)) = _
    rw [deepest_ok, next?_bracket ho, Option.elim_some, deepest_words hw hc]
    change _ = max (es.length + 0) _
    omega
  | .quotation mark body hm =>
    have hbody := body.deepest (.quotation :: es)
      (fun t ht => hnumeral t (List.mem_cons_of_mem _ ht)) hconverted later
    change Standing.deepest more _ (.ok mark :: (body.tokens.map .ok ++ later)) = _
    rw [deepest_ok, next?_quote hm, Option.elim_some, hbody, List.length_cons, Form.value]
    change max _ (max _ (deepestBehind more es later)) =
      max (es.length + (max 0 (max body.value.nesting 0) + 1)) _
    omega

/-- Forms in a row in a list, with its closing parenthesis. -/
theorem Forms.deepest (fs : Forms) (es : List Enclosure) (hnumeral : ∀ t ∈ fs.tokens, t.IsNumeral)
    (hconverted : ∀ t ∈ fs.atoms, t.IsConverted) {closing : Token}
    (hc : closing.kind = .closeParen) (later : List (Except ReadError Token)) :
    Standing.deepest more { enclosures := .list :: es }
        ((fs.tokens ++ [closing]).map .ok ++ later) =
      max (es.length + 1 + Value.nestingAll fs.values) (deepestBehind more es later) := by
  match fs with
  | .none =>
    change Standing.deepest more _ (.ok closing :: later) = _
    rw [deepest_ok, next?_close hc]
    rfl
  | .cons f rest =>
    rw [Forms.tokens, List.forall_mem_append] at hnumeral
    rw [Forms.atoms, List.forall_mem_append] at hconverted
    have hrest := rest.deepest es hnumeral.2 hconverted.2 hc later
    rw [Forms.tokens, List.append_assoc, List.map_append, List.append_assoc,
      f.deepest (.list :: es) hnumeral.1 hconverted.1, Forms.values, Value.nestingAll]
    change max _ (Standing.deepest more { enclosures := .list :: es } _) = _
    rw [hrest, List.length_cons]
    omega

end

/-- Forms in a row in no other form, and the end of the text. -/
theorem Forms.deepest_program (fs : Forms) (hnumeral : ∀ t ∈ fs.tokens, t.IsNumeral)
    (hconverted : ∀ t ∈ fs.atoms, t.IsConverted) {last : Token} (hlast : last.kind = .endOfText) :
    Standing.deepest true {} (fs.tokens.map .ok ++ [.ok last]) = Value.nestingAll fs.values := by
  match fs with
  | .none => exact deepest_last hlast
  | .cons f rest =>
    rw [Forms.tokens, List.forall_mem_append] at hnumeral
    rw [Forms.atoms, List.forall_mem_append] at hconverted
    rw [Forms.tokens, List.map_append, List.append_assoc, f.deepest [] hnumeral.1 hconverted.1,
      Forms.values, Value.nestingAll]
    change max (0 + f.value.nesting) (Standing.deepest true {} _) = _
    rw [rest.deepest_program hnumeral.2 hconverted.2 hlast, Nat.zero_add]

end Grammar

namespace Reader

open Grammar

variable {source : String}

/-- **The only form of a text** is nested as deeply as its value. -/
theorem formNesting_eq {v : Value} (h : parse source = .ok v) : formNesting source = v.nesting := by
  obtain ⟨f, last, htokens, hlast, rfl, hconverted⟩ := parse_eq_ok.1 h
  have hnumeral := isNumeral_of_tokenize htokens
  rw [formNesting, tokenize_eq_ok.1 htokens, List.map_append,
    f.deepest [] (fun t ht => hnumeral t (List.mem_append_left _ ht)) hconverted]
  change max (0 + f.value.nesting) 0 = _
  rw [Nat.max_zero, Nat.zero_add]

/-- **The forms of a text** are nested as deeply as their values. -/
theorem programNesting_eq {vs : List Value} (h : parseProgram source = .ok vs) :
    programNesting source = Value.nestingAll vs := by
  obtain ⟨fs, last, htokens, hlast, rfl, hconverted⟩ := parseProgram_eq_ok.1 h
  have hnumeral := isNumeral_of_tokenize htokens
  rw [programNesting, tokenize_eq_ok.1 htokens, List.map_append]
  exact fs.deepest_program (fun t ht => hnumeral t (List.mem_append_left _ ht)) hconverted hlast

end Reader

end AmbLisp
