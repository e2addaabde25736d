import Mathlib.Data.List.Basic
import TextParsing.Failure.Basic
import TextParsing.Proofs.LinePlaces

/-! The message of a failure. Below its first line and an empty one stand the lines around the line
of the place, each once and in their order, and a pointer stands under the place. -/
namespace TextParsing

namespace Text
variable {t line : Text}

lemma newline_not_mem_of_mem_lines (h : line ∈ t.lines) : '\n' ∉ line := by
  induction t generalizing line with
  | nil =>
    obtain rfl := List.mem_singleton.mp h
    exact List.not_mem_nil
  | cons ch t ih =>
    by_cases hch : ch = '\n'
    · subst hch
      rw [lines_newline_cons] at h
      rcases List.mem_cons.mp h with rfl | h
      · exact List.not_mem_nil
      · exact ih h
    · obtain ⟨first, behind, ht⟩ := List.exists_cons_of_ne_nil (lines_ne_nil t)
      rw [lines_cons hch, ht, List.modifyHead_cons] at h
      rw [ht] at ih
      rcases List.mem_cons.mp h with rfl | h
      · simpa [Ne.symm hch] using ih (List.mem_cons_self ..)
      · exact ih (List.mem_cons_of_mem _ h)

lemma unlines_eq_intercalate (ls : List Text) : unlines ls = ['\n'].intercalate (ls ++ [[]]) := by
  induction ls with
  | nil => rfl
  | cons line ls ih =>
    rw [List.cons_append, List.intercalate_cons_of_ne_nil (by simp), ← ih, unlines, unlines,
      List.flatMap_cons]

/-- Behind the newline of the last line stands an empty piece. -/
lemma lines_unlines {ls : List Text} (h : ∀ line ∈ ls, '\n' ∉ line) :
    (unlines ls).lines = ls ++ [[]] := by
  rw [unlines_eq_intercalate, lines]
  refine List.splitOn_intercalate '\n' (fun line hline => ?_) (by simp)
  rcases List.mem_append.mp hline with hline | hline
  · exact h line hline
  · rw [List.mem_singleton.mp hline]
    exact List.not_mem_nil

lemma newline_not_mem_toDigits (n : Nat) : '\n' ∉ Nat.toDigits 10 n := by
  intro h
  cases Nat.isDigit_of_mem_toDigits (by decide) (by decide) h

lemma byteLength_replicate_space (n : Nat) : byteLength (List.replicate n ' ') = n := by
  induction n with
  | zero => rfl
  | succ n ih =>
    rw [List.replicate_succ, byteLength_cons, ih, Nat.add_comm]
    rfl

end Text

section
variable {α β : Type}

/-- The elements of a list with their numbers are the numbers with their elements. -/
lemma zipIdx_flatMap (d : α) (f : α × Nat → List β) (xs : List α) (n : Nat) :
    (xs.zipIdx n).flatMap f =
      (List.range' n xs.length).flatMap fun i => f (xs.getD (i - n) d, i) := by
  induction xs generalizing n with
  | nil => rfl
  | cons x xs ih =>
    rw [List.zipIdx_cons, List.flatMap_cons, ih, List.length_cons, List.range'_succ,
      List.flatMap_cons, Nat.sub_self, List.getD_cons_zero]
    congr 1
    apply List.flatMap_congr
    intro i hi
    obtain ⟨hle, -⟩ := List.mem_range'_1.mp hi
    obtain ⟨k, rfl⟩ := Nat.exists_eq_add_of_le hle
    rw [Nat.add_sub_cancel_left, Nat.add_assoc, Nat.add_sub_cancel_left, Nat.add_comm 1,
      List.getD_cons_succ]

/-- Of consecutive numbers those between two bounds are consecutive. -/
lemma range'_flatMap_between (f : Nat → List β) (n first last count : Nat) :
    ((List.range' n count).flatMap fun i => if first ≤ i ∧ i ≤ last then f i else []) =
      (List.range' (max n first) (min (n + count) (last + 1) - max n first)).flatMap f := by
  -- By induction from the end, where one more number makes the selection longer or not.
  induction count with
  | zero =>
    have : min (n + 0) (last + 1) - max n first = 0 := by omega
    rw [this]
    rfl
  | succ count ih =>
    rw [List.range'_1_concat, List.flatMap_append, ih, List.flatMap_singleton]
    split
    case isTrue h =>
      have hcount : min (n + (count + 1)) (last + 1) - max n first =
          min (n + count) (last + 1) - max n first + 1 := by omega
      have hlast : max n first + (min (n + count) (last + 1) - max n first) = n + count := by omega
      rw [hcount, List.range'_1_concat, List.flatMap_append, List.flatMap_singleton, hlast]
    case isFalse h =>
      have hcount : min (n + (count + 1)) (last + 1) - max n first =
          min (n + count) (last + 1) - max n first := by omega
      rw [hcount, List.append_nil]

end

namespace Location

/-- The numbers of the lines that are shown around a line of a text: two in front of it and two
behind it, as far as there are any. -/
def window (line count : Nat) : List Nat :=
  List.range' (max 1 (line - 2)) (min count (line + 2) + 1 - max 1 (line - 2))

/-- A line of the text as it is shown, behind a mark and its number. -/
def numbered (l : Location) (mark : Text) (line : Nat) : Text :=
  mark ++ Nat.toDigits 10 line ++ " | ".toList ++ l.text.lines.getD (line - 1) []

lemma margin_true (line : Nat) :
    margin true line = "  > ".toList ++ Nat.toDigits 10 line ++ " | ".toList := by
  rw [margin, Decimal.renderNat_eq, if_pos rfl]

lemma margin_false (line : Nat) :
    margin false line = "    ".toList ++ Nat.toDigits 10 line ++ " | ".toList := by
  rw [margin, Decimal.renderNat_eq, if_neg Bool.false_ne_true]

lemma excerpt_eq_flatMap_window (l : Location) :
    l.excerpt = (window l.linePosition.line l.text.lines.length).flatMap fun line =>
      excerptOf l.linePosition (l.text.lines.getD (line - 1) []) line := by
  -- The distance of two on either side, as a first and a last number.
  have hbounds (place line : Nat) : place ≤ line + 2 ∧ line ≤ place + 2 ↔
      place - 2 ≤ line ∧ line ≤ place + 2 := by omega
  rw [excerpt, zipIdx_flatMap []]
  simp only [hbounds]
  rw [range'_flatMap_between fun line =>
    excerptOf l.linePosition (l.text.lines.getD (line - 1) []) line]
  have hcount : min (1 + l.text.lines.length) (l.linePosition.line + 2 + 1) =
      min l.text.lines.length (l.linePosition.line + 2) + 1 := by omega
  rw [hcount, window]

/-- A line in which the place is not takes one line, with spaces in the place of the mark. -/
lemma flatMap_excerptOf (l : Location) {numbers : List Nat} (h : l.linePosition.line ∉ numbers) :
    (numbers.flatMap fun line =>
      excerptOf l.linePosition (l.text.lines.getD (line - 1) []) line) =
      numbers.map (l.numbered "    ".toList) := by
  rw [List.map_eq_flatMap]
  apply List.flatMap_congr
  intro line hline
  have hne : line ≠ l.linePosition.line := by
    rintro rfl
    exact h hline
  simp [excerptOf, hne, numbered, margin_false]

lemma line_mem_window (l : Location) :
    l.linePosition.line ∈ window l.linePosition.line l.text.lines.length := by
  obtain ⟨before, front, back, behind, hlines, hposition, -⟩ := l.exists_lines_eq
  rw [window, List.mem_range'_1, hlines, hposition, List.length_append, List.length_cons]
  dsimp only
  omega

/-- The line of the place takes its own lines among the others. -/
lemma exists_excerpt_eq (l : Location) :
    ∃ above below, window l.linePosition.line l.text.lines.length =
        above ++ l.linePosition.line :: below ∧
      l.excerpt = above.map (l.numbered "    ".toList) ++
        (excerptOf l.linePosition (l.text.lines.getD (l.linePosition.line - 1) [])
          l.linePosition.line ++ below.map (l.numbered "    ".toList)) := by
  obtain ⟨above, below, hwindow⟩ := List.append_of_mem l.line_mem_window
  have hnodup : (above ++ l.linePosition.line :: below).Nodup := hwindow ▸ List.nodup_range'
  obtain ⟨-, hnodup, hdisjoint⟩ := List.nodup_append.mp hnodup
  have habove : l.linePosition.line ∉ above := fun h =>
    hdisjoint _ h _ (List.mem_cons_self ..) rfl
  have hbelow : l.linePosition.line ∉ below := (List.nodup_cons.mp hnodup).1
  refine ⟨above, below, hwindow, ?_⟩
  rw [excerpt_eq_flatMap_window, hwindow, List.flatMap_append, List.flatMap_cons,
    flatMap_excerptOf l habove, flatMap_excerptOf l hbelow]

lemma newline_not_mem_margin (isMarked : Bool) (line : Nat) : '\n' ∉ margin isMarked line := by
  have hline := Text.newline_not_mem_toDigits line
  cases isMarked <;> simp [margin_true, margin_false, hline]

/-- No line of the excerpt has a newline in it. -/
lemma newline_not_mem_of_mem_excerpt {l : Location} {line : Text} (h : line ∈ l.excerpt) :
    '\n' ∉ line := by
  obtain ⟨⟨content, number⟩, hmem, h⟩ := List.mem_flatMap.mp h
  have hcontent := Text.newline_not_mem_of_mem_lines (List.fst_mem_of_mem_zipIdx hmem)
  have hmargin := newline_not_mem_margin (number = l.linePosition.line) number
  dsimp only at h
  split at h
  case isTrue =>
    unfold excerptOf at h
    split at h
    case isTrue =>
      rcases List.mem_cons.mp h with rfl | h
      · simpa using ⟨hmargin, hcontent⟩
      · rw [List.mem_singleton.mp h]
        simp [pointer]
    case isFalse =>
      rw [List.mem_singleton.mp h]
      simpa using ⟨hmargin, hcontent⟩
  case isFalse => cases h

end Location

namespace Failure

lemma newline_not_mem_headline (f : Failure) : '\n' ∉ f.headline := by
  have htitle : '\n' ∉ f.kind.title := by
    cases f.kind <;> decide
  have hn := Text.newline_not_mem_toDigits
  simp only [headline, Decimal.renderNat_eq, List.mem_append, not_or]
  exact ⟨⟨⟨⟨⟨⟨⟨htitle, by decide⟩, hn _⟩, by decide⟩, hn _⟩, by decide⟩, hn _⟩, by decide⟩

lemma lines_message (f : Failure) :
    f.message.lines = f.headline :: [] :: f.location.excerpt ++ [[]] := by
  refine Text.lines_unlines fun line hline => ?_
  rcases List.mem_cons.mp hline with rfl | hline
  · exact f.newline_not_mem_headline
  · rcases List.mem_cons.mp hline with rfl | hline
    · exact List.not_mem_nil
    · exact Location.newline_not_mem_of_mem_excerpt hline

/-- The first line of the message says what happened and where. Below it and an empty line the message
shows the line of the place with up to two lines before and two lines after it, each once, in their
order and behind its number, and one pointer only. It stands below the line of the place, and in front
of its tip there are as many spaces as there are bytes in front of the place in that line as it is
shown. -/
theorem message_shows_window (f : Failure) :
    ∃ number offset front back spaces above below,
      f.location.linePosition = ⟨number, offset⟩ ∧
      f.location.text.lines[number - 1]? = some (front ++ back) ∧ front.byteLength = offset ∧
      Location.window number f.location.text.lines.length = above ++ number :: below ∧
      f.message.lines = f.headline :: [] ::
        (above.map (f.location.numbered "    ".toList) ++
          f.location.numbered "  > ".toList number :: (spaces ++ "^--- here".toList) ::
            below.map (f.location.numbered "    ".toList)) ++ [[]] ∧
      f.headline =
        (match f.kind with
          | .noMatch => "No match".toList
          | .trailingInput => "Unconsumed input".toList) ++ " at line ".toList ++
        Nat.toDigits 10 number ++ ", byte offset ".toList ++ Nat.toDigits 10 offset ++
        " (absolute position: ".toList ++ Nat.toDigits 10 f.location.offset ++ [')'] ∧
      (∀ ch ∈ spaces, ch = ' ') ∧
      ∃ shown, f.location.numbered "  > ".toList number = shown ++ back ∧
        shown = "  > ".toList ++ Nat.toDigits 10 number ++ " | ".toList ++ front ∧
        spaces.byteLength = shown.byteLength := by
  obtain ⟨before, front, back, behind, hlines, hposition, -⟩ := f.location.exists_lines_eq
  obtain ⟨above, below, hwindow, hexcerpt⟩ := f.location.exists_excerpt_eq
  have hcontent : f.location.text.lines.getD (before.length + 1 - 1) [] = front ++ back := by
    simp [hlines]
  have hmargin := Location.margin_true (before.length + 1)
  rw [hposition] at hwindow hexcerpt
  refine ⟨before.length + 1, front.byteLength, front, back,
    List.replicate ((Location.margin true (before.length + 1)).byteLength + front.byteLength) ' ',
    above, below, hposition, by simp [hlines], rfl, hwindow, ?_, ?_,
    fun ch hch => List.eq_of_mem_replicate hch, _, ?_, rfl, ?_⟩
  · rw [lines_message, hexcerpt]
    simp [Location.excerptOf, Location.pointer, Location.numbered, hmargin]
  · rw [headline, hposition, Decimal.renderNat_eq, Decimal.renderNat_eq, Decimal.renderNat_eq]
    cases f.kind <;> rfl
  · rw [Location.numbered, hcontent, List.append_assoc _ front]
  · rw [Text.byteLength_replicate_space, hmargin, ← Text.byteLength_append]

end Failure
end TextParsing
