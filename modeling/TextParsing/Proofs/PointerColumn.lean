import TextParsing.Parser.Scanner
import TextParsing.Proofs.MessageWindow
import TextParsing.Run

/-! The column of the pointer. It is counted in bytes, so that the pointer stands under the place
exactly if the line up to there is ASCII, and too far to the right otherwise. -/
namespace TextParsing

namespace Text
variable {t : Text}

lemma utf8Size_eq_one_iff {ch : Char} : ch.utf8Size = 1 ↔ ch.toNat < 128 := by
  rw [Char.utf8Size_eq_one_iff, UInt32.le_iff_toNat_le]
  exact Nat.lt_succ_iff.symm

/-- A text has as many bytes as characters exactly if it is ASCII. -/
lemma byteLength_eq_length_iff : t.byteLength = t.length ↔ ∀ ch ∈ t, ch.toNat < 128 := by
  induction t with
  | nil => simp
  | cons ch t ih =>
    have hle := length_le_byteLength t
    have hpos := ch.utf8Size_pos
    rw [List.forall_mem_cons, ← ih, ← utf8Size_eq_one_iff, byteLength_cons, List.length_cons]
    omega

end Text

namespace Location

/-- The mark, the number and the bar in front of the line of the place have single bytes only. -/
lemma byteLength_margin_true (line : Nat) :
    (margin true line).byteLength = (margin true line).length := by
  have hnumber : Text.byteLength (Nat.toDigits 10 line) = (Nat.toDigits 10 line).length := by
    rw [Text.byteLength_eq_length_iff]
    intro ch hch
    have hdigit := Nat.isDigit_of_mem_toDigits (by decide) (by decide) hch
    simp [Char.isDigit, UInt32.le_iff_toNat_le] at hdigit
    have : ch.toNat = ch.val.toNat := rfl
    omega
  rw [margin_true, Text.byteLength_append, Text.byteLength_append, List.length_append,
    List.length_append, hnumber]
  rfl

/-- In the excerpt the line of the place stands above its pointer. -/
lemma exists_excerpt_eq_pointer (l : Location) :
    ∃ before front back behind above below, l.text.lines = before ++ (front ++ back) :: behind ∧
      Text.unlines before ++ front = l.passed ∧
      l.excerpt = above ++ (margin true (before.length + 1) ++ (front ++ back)) ::
        pointer ((margin true (before.length + 1)).byteLength + front.byteLength) :: below := by
  obtain ⟨before, front, back, behind, hlines, hposition, hpassed⟩ := l.exists_lines_eq
  obtain ⟨above, below, -, hexcerpt⟩ := l.exists_excerpt_eq
  have hcontent : l.text.lines.getD (before.length + 1 - 1) [] = front ++ back := by
    simp [hlines]
  refine ⟨before, front, back, behind, above.map (l.numbered "    ".toList),
    below.map (l.numbered "    ".toList), hlines, hpassed, ?_⟩
  rw [hexcerpt, hposition, hcontent]
  simp [excerptOf]

end Location

namespace Failure

/-- The message shows the line of the place, cut there into `shown` and `back`, and the pointer below
it. In front of the tip of the pointer there are as many characters more than in front of the place as
the line has bytes more than characters up to there. There are as many exactly if that part of the line
is ASCII, and the pointer never stands too far to the left. -/
theorem pointer_under_place_iff (f : Failure) :
    ∃ before front back behind above shown spaces below,
      f.location.text.lines = before ++ (front ++ back) :: behind ∧
      Text.unlines before ++ front ++ f.location.residue = f.location.text ∧
      (f.location.text.IsBoundary f.location.offset →
        (Text.unlines before ++ front).byteLength = f.location.offset) ∧
      f.message.lines = above ++ (shown ++ back) :: (spaces ++ "^--- here".toList) :: below ∧
      shown = "  > ".toList ++ Nat.toDigits 10 (before.length + 1) ++ " | ".toList ++ front ∧
      (∀ ch ∈ spaces, ch = ' ') ∧
      spaces.length + front.length = shown.length + front.byteLength ∧
      (spaces.length = shown.length ↔ ∀ ch ∈ front, ch.toNat < 128) ∧
      shown.length ≤ spaces.length := by
  obtain ⟨before, front, back, behind, above, below, hlines, hpassed, hexcerpt⟩ :=
    f.location.exists_excerpt_eq_pointer
  have hmargin := Location.byteLength_margin_true (before.length + 1)
  have hle := Text.length_le_byteLength front
  refine ⟨before, front, back, behind, f.headline :: [] :: above,
    Location.margin true (before.length + 1) ++ front,
    List.replicate ((Location.margin true (before.length + 1)).byteLength + front.byteLength) ' ',
    below ++ [[]], hlines, ?_, fun h => ?_, ?_, ?_, fun ch hch => List.eq_of_mem_replicate hch, ?_,
    ?_, ?_⟩
  · rw [hpassed, Location.passed_append_residue]
  · rw [hpassed, Location.byteLength_passed h]
  · rw [lines_message, hexcerpt]
    simp [Location.pointer]
  · rw [Location.margin_true]
  · rw [List.length_replicate, List.length_append]
    omega
  · rw [List.length_replicate, List.length_append, ← Text.byteLength_eq_length_iff]
    omega
  · rw [List.length_replicate, List.length_append]
    omega

/-- Behind a character of two bytes the pointer stands one character too far to the right, at the end
of the line in place of its second character. -/
theorem pointer_past_place :
    ∃ verdict f shown spaces, Parser.anyChar.runToEnd ['é', 'x'] = some verdict ∧
      verdict.result = .error f ∧ f.location = ⟨['é', 'x'], 2⟩ ∧ f.location.residue = ['x'] ∧
      f.location.text.IsBoundary f.location.offset ∧
      f.message.lines = [f.headline, [], shown ++ ['x'], spaces ++ "^--- here".toList, []] ∧
      shown = "  > 1 | é".toList ∧ (∀ ch ∈ spaces, ch = ' ') ∧ spaces.length = shown.length + 1 := by
  refine ⟨_, ⟨.trailingInput, ⟨['é', 'x'], 2⟩⟩, _, List.replicate 10 ' ', rfl, rfl, rfl, rfl,
    ⟨['é'], ['x'], rfl, rfl⟩, ?_, rfl, fun ch hch => List.eq_of_mem_replicate hch, rfl⟩
  rw [lines_message]
  rfl

end Failure
end TextParsing
