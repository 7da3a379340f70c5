import AmbLisp.Position

/-!
# Positions, counted

A position is kept character by character. `afterAll_origin` says what it comes to: its line is
counted by the line feeds before it, and its column from the last of them on. Whole lines in front of
a text move the positions in it down and leave their columns alone (`afterAll_below`).
-/

namespace AmbLisp.Position

/-- The position behind a text, by what the text has before it. -/
def behind (cs : List Char) : Position :=
  ⟨1 + cs.count '\n', 1 + (cs.reverse.takeWhile (· ≠ '\n')).length⟩

theorem after_behind (cs : List Char) (c : Char) : (behind cs).after c = behind (cs ++ [c]) := by
  by_cases hc : c = '\n'
  · subst hc
    simp [after, behind, Nat.add_assoc]
  · simp [after, behind, hc, Nat.add_comm]

theorem afterAll_behind (cs ds : List Char) : (behind cs).afterAll ds = behind (cs ++ ds) := by
  induction ds generalizing cs with
  | nil => rw [afterAll_nil, List.append_nil]
  | cons d ds ih => rw [afterAll_cons, after_behind, ih, List.append_assoc, List.singleton_append]

/-- **Behind a text** stands the position that it counts up to. -/
theorem afterAll_origin (cs : List Char) : ({} : Position).afterAll cs = behind cs :=
  afterAll_behind [] cs

/-- The position so many lines further down. -/
def below (k : Nat) (p : Position) : Position :=
  ⟨p.line + k, p.col⟩

theorem after_below (k : Nat) (p : Position) (c : Char) :
    (p.below k).after c = (p.after c).below k := by
  unfold after
  split
  · exact congrArg (Position.mk · 1) (Nat.add_right_comm p.line k 1)
  · rfl

/-- Behind whole lines, a text begins where it would begin without them, only further down. -/
theorem behind_line (cs : List Char) :
    behind (cs ++ ['\n']) = ({} : Position).below (cs.count '\n' + 1) := by
  simp [behind, below]

end AmbLisp.Position
