import AmbLisp.Proofs.Reader.Lowering
import AmbLisp.Proofs.Reader.Recognition
import AmbLisp.Value.Printer

/-!
# Texts in a row

Two texts with a line feed between them are read as the forms of the one and then those of the other
(`parseProgram_append_line`). The first text has to be readable: an open string, list or quote mark in
it would take in some of the second.
-/

namespace AmbLisp.Reader

open Grammar

/-- The reader on two texts in a row, in one equation. -/
theorem parseProgram_append {s s' : String} {vs : List Value} (h : parseProgram s = .ok vs) :
    parseProgram (s ++ "\n" ++ s') =
      (lowered (s.toList.count '\n' + 1) id (parseProgram s')).map (vs ++ ·) := by
  obtain ⟨fs, last, htokens, hlast, rfl, hconverted⟩ := parseProgram_eq_ok.1 h
  have hnumeral := isNumeral_of_tokenize htokens
  have hstream := tokens_append_line htokens hlast s'
  let k := s.toList.count '\n' + 1
  let later := (Cursor.ofSource s').tokens
  have hlater : later ≠ [] := by
    obtain ⟨last', xs, hxs, -⟩ := Cursor.closed_tokens (Cursor.ofSource s')
    rw [show later = xs ++ [.ok last'] from hxs]
    exact append_ne_nil xs (List.cons_ne_nil _ _)
  -- enough steps for both texts, and for the second when the first is read
  let n := 2 * (fs.tokens.length + later.length) + 2
  have hlowered : later.map (lowered k (Token.below k)) ≠ [] := by simpa using hlater
  obtain ⟨m, hm, hread⟩ := program_forms fs
    (fun t ht => hnumeral t (List.mem_append_left _ ht)) hconverted (n := n) (by omega) hlowered
  have hwhole : parseProgram (s ++ "\n" ++ s') = programOn n _ :=
    parseProgram_of_tokens hstream (by simp [n, later])
  have hrest : parseProgram s' = programOn m later := parseProgram_of_tokens rfl (by omega)
  rw [hwhole, hread, programOn_lowered hlater, hrest]

/-- **Reading is compositional.** Behind a readable text and a line feed another text is read as it is
alone. Its forms follow those of the first text, and its errors are the same, further down by the
lines of the first text. -/
theorem parseProgram_append_line {s : String} {vs : List Value} (h : parseProgram s = .ok vs)
    (s' : String) :
    (∀ us, parseProgram s' = .ok us → parseProgram (s ++ "\n" ++ s') = .ok (vs ++ us)) ∧
    ∀ e, parseProgram s' = .error e →
      parseProgram (s ++ "\n" ++ s') =
        .error ⟨e.reason, ⟨e.pos.line + 1 + s.toList.count '\n', e.pos.col⟩⟩ := by
  rw [parseProgram_append h]
  constructor
  · intro us hus
    rw [hus]
    rfl
  · intro e he
    rw [he, Nat.add_assoc, Nat.add_comm 1]
    rfl

/-- A comment in front ends with its text. Behind it stands a form, or a string that does not end. -/
theorem parseProgram_append_line_comment :
    ∃ vs us, parseProgram "'a\n; b" = .ok vs ∧ vs.map Value.print = ["'a"] ∧
      parseProgram ("'a\n; b" ++ "\n" ++ "[c d]") = .ok (vs ++ us) ∧
      us.map Value.print = ["\"c d\""] ∧
      parseProgram ("'a\n; b" ++ "\n" ++ "c \"d") = .error ⟨.unterminatedString, ⟨3, 3⟩⟩ := by
  obtain ⟨vs, hvs, hprint⟩ : ∃ vs, parseProgram "'a\n; b" = .ok vs ∧ vs.map Value.print = ["'a"] :=
    Except.exists_ok_of_map (by decide +kernel)
  obtain ⟨us, hus, hprint'⟩ : ∃ us, parseProgram "[c d]" = .ok us ∧
      us.map Value.print = ["\"c d\""] := Except.exists_ok_of_map (by decide +kernel)
  have hopen : parseProgram "c \"d" = .error ⟨.unterminatedString, ⟨1, 3⟩⟩ :=
    Except.eq_error_of_map (f := List.map Value.print) (by decide +kernel)
  exact ⟨vs, us, hvs, hprint, (parseProgram_append_line hvs "[c d]").1 us hus, hprint',
    (parseProgram_append_line hvs "c \"d").2 _ hopen⟩

end AmbLisp.Reader
