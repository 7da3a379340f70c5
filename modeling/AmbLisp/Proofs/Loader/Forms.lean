import AmbLisp.Loader
import AmbLisp.Proofs.Reader.Nesting
import AmbLisp.Proofs.Reader.RoundTrip

/-!
# What is loaded

A file is loaded if it holds a text (`Holds`) that can be read. The forms of a source text and of a
file are readable values.
-/

namespace AmbLisp.Loader

variable {host : Host} {source : String}

/-- A source text has a form if it can be read as one that is not nested too deeply. -/
theorem form_eq_ok {v : Value} :
    form host source = .ok v ↔ Reader.parse source = .ok v ∧ v.nesting ≤ host.readable := by
  unfold form
  cases hparse : Reader.parse source with
  | error e =>
    refine ⟨fun h => ?_, nofun⟩
    split at h <;> cases h
  | ok u =>
    rw [Reader.formNesting_eq hparse]
    constructor
    · intro h
      split at h
      · cases h
        exact ⟨rfl, ‹_›⟩
      · cases h
    · rintro ⟨⟨⟩, hnesting⟩
      rw [if_pos hnesting]
      rfl

theorem programForms_eq_ok {forms : List Value} :
    programForms host source = .ok forms ↔
      Reader.parseProgram source = .ok forms ∧ Value.nestingAll forms ≤ host.readable := by
  unfold programForms
  cases hparse : Reader.parseProgram source with
  | error e =>
    refine ⟨fun h => ?_, nofun⟩
    split at h <;> cases h
  | ok vs =>
    rw [Reader.programNesting_eq hparse]
    constructor
    · intro h
      split at h
      · cases h
        exact ⟨rfl, ‹_›⟩
      · cases h
    · rintro ⟨⟨⟩, hnesting⟩
      rw [if_pos hnesting]
      rfl

/-- Forms that are nested too deeply are not read. -/
theorem programForms_tooDeep {forms : List Value} (h : Reader.parseProgram source = .ok forms)
    (hdeep : host.readable < Value.nestingAll forms) : programForms host source = .error .tooDeep := by
  rw [programForms, Reader.programNesting_eq h, if_neg (Nat.not_le.2 hdeep)]

/-- What is nested too deeply before the error is met is not read that far. -/
theorem programForms_unread {e : ReadError} (h : Reader.parseProgram source = .error e) :
    programForms host source =
      .error (if Reader.programNesting source ≤ host.readable then .ofRead e else .tooDeep) := by
  rw [programForms, h]
  split <;> rfl

/-- The file at a path holds this text, once its lines are ended by line feeds. -/
def Holds (disk : Disk) (path text : String) : Prop :=
  Char.ofNat 0 ∉ path.toList ∧ ∃ bytes cs, disk (Disk.Path.normalize path) = .content bytes ∧
    Text.Utf8.decode bytes = .ok cs ∧ text = String.ofList (Text.unifyLineEnds cs)

theorem sourceText_eq_ok {disk : Disk} {path text : String} :
    sourceText disk path = .ok text ↔ Holds disk path text := by
  constructor
  · intro h
    unfold sourceText at h
    split at h
    · cases h
    · next hnul =>
      dsimp only at h
      split at h
      · next bytes hanswer =>
        split at h
        · next cs hdecode =>
          cases h
          exact ⟨by simpa using hnul, bytes, cs, hanswer, hdecode, rfl⟩
        · cases h
      · cases h
      · cases h
  · rintro ⟨hnul, bytes, cs, hanswer, hdecode, rfl⟩
    unfold sourceText
    rw [if_neg (by simpa using hnul), hanswer]
    simp only [hdecode]

theorem fileForms_eq_ok {host : Host} {path : String} {forms : List Value} :
    fileForms host path = .ok forms ↔
      ∃ text, sourceText host.disk path = .ok text ∧ programForms host text = .ok forms := by
  unfold fileForms
  cases sourceText host.disk path with
  | error fault => exact ⟨nofun, fun ⟨_, h, _⟩ => nomatch h⟩
  | ok text => exact ⟨fun h => ⟨text, rfl, h⟩, fun ⟨_, h, hforms⟩ => Except.ok.inj h ▸ hforms⟩

theorem readable_form {v : Value} (h : form host source = .ok v) : Readable v :=
  Reader.readable_of_parse (form_eq_ok.1 h).1

theorem readable_programForms {host : Host} {source : String} {forms : List Value}
    (h : programForms host source = .ok forms) : ∀ v ∈ forms, Readable v :=
  Reader.readable_of_parseProgram (programForms_eq_ok.1 h).1

theorem readable_fileForms {host : Host} {path : String} {forms : List Value}
    (h : fileForms host path = .ok forms) : ∀ v ∈ forms, Readable v := by
  obtain ⟨text, -, hforms⟩ := fileForms_eq_ok.1 h
  exact readable_programForms hforms

/-- There is no file to read where there is none at all. -/
theorem sourceText_empty (path : String) : ∃ fault, sourceText Disk.empty path = .error fault := by
  unfold sourceText
  split
  · exact ⟨_, rfl⟩
  · exact ⟨_, rfl⟩

theorem fileForms_empty {host : Host} (hdisk : host.disk = Disk.empty) (path : String)
    (forms : List Value) : fileForms host path ≠ .ok forms := by
  intro h
  obtain ⟨text, htext, -⟩ := fileForms_eq_ok.1 h
  obtain ⟨fault, hfault⟩ := sourceText_empty path
  rw [hdisk] at htext
  cases hfault.symm.trans htext

end AmbLisp.Loader
