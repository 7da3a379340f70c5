import AmbLisp.Proofs.Prelude.Standard
import AmbLisp.Proofs.Session.Responses

/-!
# Sessions without the prelude

A session with the prelude and one without it answer the same requests in the same way, as long as the
code mentions no name of the prelude and loads nothing (`responses_initial`). For the two bind all other
words alike (`Session.alike_initial`), and so they answer alike when they are asked in these words.
-/

namespace AmbLisp

open Prelude

namespace Store

theorem size_foldl_install (fs : List Function) (σ : Store) :
    (fs.foldl install σ).scopes.size = σ.scopes.size := by
  induction fs generalizing σ with
  | nil => rfl
  | cons f fs ih => rw [List.foldl_cons, ih, size_install]

/-- Each function is one closure. -/
theorem closures_foldl_install (fs : List Function) (σ : Store) :
    (fs.foldl install σ).closures = σ.closures + fs.length := by
  induction fs generalizing σ with
  | nil => rfl
  | cons f fs ih =>
    rw [List.foldl_cons, ih, List.length_cons, Nat.add_comm fs.length, ← Nat.add_assoc]
    rfl

/-- **The prelude binds no words but its names**, and its functions are the first closures. -/
theorem alike_initial {words : String → Prop} (hwords : ∀ name, words name → name ∉ names) :
    (initial false).Alike words functions.length (initial true) where
  size := by
    rw [initial_true_eq, size_foldl_install]
    rfl
  closures := by
    rw [initial_true_eq, closures_foldl_install]
    rfl
  scopes {i s t} hs ht := by
    obtain rfl : i = globalScope := by
      obtain ⟨hlt, -⟩ := Array.getElem?_eq_some_iff.1 hs
      exact Nat.lt_one_iff.1 hlt
    obtain ⟨s, hs', hsouter, hsget⟩ := (sound_initial false).1.exists_global (sound_initial false).2
    obtain ⟨t, ht', htouter, htget⟩ := (sound_initial true).1.exists_global (sound_initial true).2
    cases hs.symm.trans hs'
    cases ht.symm.trans ht'
    refine ⟨htouter.trans hsouter.symm, fun {name} hword => ?_⟩
    rw [htget, hsget, lookup_initial (hwords name hword)]
    have hprimitives : primitives.Binds fun v => v.rename (.later functions.length) = v :=
      binds_primitives Value.rename_prim
    cases hl : (initial false).lookup globalScope name with
    | none => rfl
    | some v => exact congrArg some (hprimitives.lookup hl).symm

end Store

namespace Session

theorem alike_initial {words : String → Prop} (hwords : ∀ name, words name → name ∉ names) :
    (initial false).Alike words functions.length (initial true) := by
  have hstores := Store.alike_initial hwords
  unfold initial
  generalize Store.initial true = τ at hstores ⊢
  exact alike_new hstores (Store.binds_primitives fun _ => trivial)

variable {cfg : Setting} {asks : List Ask}

theorem responses_initial_of_words (words : String → Prop) (hdo : words Keyword.sequence.name)
    (hwords : ∀ name, words name → name ∉ names)
    (hcode : ∀ ask ∈ asks, ∀ code ∈ ask.code?, code.SpelledIn words)
    (hunread : ∀ a ∈ responses cfg asks (initial false), Unread words a.events) :
    responses cfg (asks.map (Ask.rename (.later functions.length))) (initial true) =
      responses cfg asks (initial false) :=
  (alike_initial hwords).responses hdo hcode hunread

/-- **The prelude is conservative.** A session with the prelude and one without it give the same
answers to requests whose code mentions no name of the prelude, if it does not load: either it has no
word for that, or no file is read in the end. Closures in the code, which no text has, are to have the
numbers that they have with the prelude. -/
theorem responses_initial (hcode : ∀ ask ∈ asks, ∀ code ∈ ask.code?, code.SpelledIn (· ∉ names))
    (hload : (∀ ask ∈ asks, ∀ code ∈ ask.code?, code.SpelledIn (· ≠ Keyword.load.name)) ∨
      ∀ a ∈ responses cfg asks (initial false), ∀ path forms, .loading path forms ∉ a.events) :
    responses cfg (asks.map (Ask.rename (.later functions.length))) (initial true) =
        responses cfg asks (initial false) ∧
      ((∀ ask ∈ asks, ∀ code ∈ ask.code?, code.closureFree = true) →
        responses cfg asks (initial true) = responses cfg asks (initial false)) := by
  have hdo : Keyword.sequence.name ∉ names := reserved_not_mem_names.2 .sequence
  have hrenamed : responses cfg (asks.map (Ask.rename (.later functions.length))) (initial true) =
      responses cfg asks (initial false) := by
    rcases hload with hload | hevents
    · refine responses_initial_of_words (fun name => name ∉ names ∧ name ≠ Keyword.load.name)
        ⟨hdo, by decide⟩ (fun _ h => h.1) (fun ask hask code hmem => ?_) ?_
      · exact (hcode ask hask code hmem).and (hload ask hask code hmem)
      · exact fun _ _ h => absurd rfl h.2
    · exact responses_initial_of_words (· ∉ names) hdo (fun _ h => h) hcode fun a ha _ => hevents a ha
  refine ⟨hrenamed, fun hfree => ?_⟩
  have hsame : asks.map (Ask.rename (.later functions.length)) = asks := by
    refine (List.map_congr_left fun ask hask => ?_).trans (List.map_id asks)
    cases ask with
    | again => rfl
    | run code => exact congrArg Ask.run (Value.rename_of_closureFree (hfree _ hask code rfl))
  rw [hsame] at hrenamed
  exact hrenamed

open Value (call) in
theorem responses_initial_pick :
    let asks : List Ask := [
      .run (call "define" [.sym "pick", call "lambda" [.list [.sym "x"],
        call "amb" [.sym "x", call "+" [.sym "x", .int 1]]]]),
      .run (call "println" [call "pick" [.int 5]]), .again, .again]
    responses { passes := 64 } asks (initial true) =
      responses { passes := 64 } asks (initial false) := by
  dsimp only
  refine (responses_initial ?_ (.inl ?_)).2 ?_
  · decide +kernel
  · decide +kernel
  · decide +kernel

end Session

end AmbLisp
