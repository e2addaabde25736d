import Mathlib.Data.List.Induction
import TextParsing.Failure.Location
import TextParsing.Proofs.Boundary

/-! Places by lines. The line of a place, the offset in that line and the residue cut the text at one
and the same place, and a place further on has a greater line or a greater offset. -/
namespace TextParsing

namespace Text
variable {s t u : Text} {ch : Char}

@[simp] lemma lines_nil : lines [] = [[]] := rfl

lemma lines_ne_nil (t : Text) : t.lines ≠ [] := List.splitOn_ne_nil '\n' t

lemma lines_newline_cons (t : Text) : lines ('\n' :: t) = [] :: t.lines := by
  simp [lines, List.splitOn_cons_eq_if_modifyHead]

lemma lines_cons (hch : ch ≠ '\n') (t : Text) : lines (ch :: t) = t.lines.modifyHead (ch :: ·) := by
  simp [lines, List.splitOn_cons_eq_if_modifyHead, hch]

@[simp] lemma lastLine_nil : lastLine [] = [] := rfl

@[simp] lemma lastLine_append_newline (t : Text) : lastLine (t ++ ['\n']) = [] := by
  simp [lastLine]

/-- Without a newline the last line goes on. -/
lemma lastLine_append (hu : '\n' ∉ u) (t : Text) : lastLine (t ++ u) = t.lastLine ++ u := by
  have hall : ∀ ch ∈ u.reverse, (ch != '\n') = true := by
    intro ch hch
    rw [bne_iff_ne]
    rintro rfl
    exact hu (List.mem_reverse.mp hch)
  simp [lastLine, List.takeWhile_append_of_pos hall]

/-- Every line with its newline. -/
def unlines (lines : List Text) : Text := lines.flatMap (· ++ ['\n'])

/-- Behind the lines that a text ends stands the beginning of the line that it does not end, and what
follows the text goes on from there. -/
lemma exists_lines_append (s t : Text) :
    ∃ before line behind, t.lines = line :: behind ∧
      lines (s ++ t) = before ++ (lastLine s ++ line) :: behind ∧
      before.length = s.count '\n' ∧ unlines before ++ lastLine s = s := by
  induction s using List.reverseRecOn generalizing t with
  | nil =>
    obtain ⟨line, behind, ht⟩ := List.exists_cons_of_ne_nil t.lines_ne_nil
    exact ⟨[], line, behind, ht, by simp [ht], by simp, rfl⟩
  | append_singleton s ch ih =>
    obtain ⟨before, line, behind, hline, hlines, hlength, hs⟩ := ih (ch :: t)
    obtain ⟨line', behind', ht⟩ := List.exists_cons_of_ne_nil t.lines_ne_nil
    rw [List.append_assoc, List.singleton_append]
    by_cases hch : ch = '\n'
    · subst hch
      rw [lines_newline_cons, List.cons.injEq] at hline
      obtain ⟨rfl, rfl⟩ := hline
      refine ⟨before ++ [lastLine s], line', behind', ht, ?_, ?_, ?_⟩
      · simp [hlines, ht]
      · simp [hlength]
      · calc unlines (before ++ [lastLine s]) ++ lastLine (s ++ ['\n'])
          _ = unlines before ++ lastLine s ++ ['\n'] := by simp [unlines]
          _ = s ++ ['\n'] := by rw [hs]
    · rw [lines_cons hch, ht, List.modifyHead_cons, List.cons.injEq] at hline
      obtain ⟨rfl, rfl⟩ := hline
      have hlast := lastLine_append (u := [ch]) (by simpa using Ne.symm hch) s
      refine ⟨before, line', behind', ht, ?_, ?_, ?_⟩
      · simp [hlines, hlast]
      · simp [hlength, hch]
      · rw [hlast, ← List.append_assoc, hs]

/-- Of two beginnings of a text the longer one ends on a later line, or further on in the same. -/
lemma count_lt_or_byteLength_lt (s : Text) (hu : u ≠ []) :
    s.count '\n' < (s ++ u).count '\n' ∨
      s.count '\n' = (s ++ u).count '\n' ∧
        (lastLine s).byteLength < (lastLine (s ++ u)).byteLength := by
  rw [List.count_append]
  by_cases hmem : '\n' ∈ u
  · have := List.count_pos_iff.mpr hmem
    exact .inl (by omega)
  · have := Nat.pos_of_ne_zero (mt byteLength_eq_zero.mp hu)
    rw [List.count_eq_zero.mpr hmem, lastLine_append hmem, byteLength_append]
    exact .inr ⟨rfl, by omega⟩

end Text

/-- An earlier line, or an earlier byte of the same line. -/
def LinePosition.Precedes (a b : LinePosition) : Prop :=
  a.line < b.line ∨ a.line = b.line ∧ a.byteOffset < b.byteOffset

lemma LinePosition.Precedes.ne {a b : LinePosition} (h : a.Precedes b) : a ≠ b := by
  rintro rfl
  unfold Precedes at h
  omega

namespace Location
variable {l : Location} {m n : Nat}

/-- Between two characters the place cuts the text there. -/
lemma passed_and_residue_of_append {before behind : Text} (ht : l.text = before ++ behind)
    (hn : l.offset = before.byteLength) : l.passed = before ∧ l.residue = behind := by
  have hsplit := Text.splitBytes?_eq_some_iff.mpr ⟨ht, hn⟩
  constructor
  · rw [passed, Text.takeBytes?_eq_map, hsplit, Option.map_some, Option.getD_some]
  · rw [residue, Text.dropBytes?_eq_map, hsplit, Option.map_some, Option.getD_some]

lemma byteLength_passed (h : l.text.IsBoundary l.offset) : l.passed.byteLength = l.offset := by
  obtain ⟨before, behind, ht, hn⟩ := h
  rw [(passed_and_residue_of_append ht hn.symm).1, hn]

/-- Elsewhere there is neither a text in front of the place nor one behind it, and both fall back to
the end. -/
lemma passed_and_residue_of_not_isBoundary (h : ¬ l.text.IsBoundary l.offset) :
    l.passed = l.text ∧ l.residue = [] := by
  have hdrop : Text.dropBytes? l.offset l.text = none := by
    rw [Text.dropBytes?_eq_map, Option.map_eq_none_iff, Option.eq_none_iff_forall_ne_some]
    intro parts hs
    obtain ⟨ht, hn⟩ := Text.splitBytes?_eq_some_iff.mp hs
    exact h ⟨parts.1, parts.2, ht, hn.symm⟩
  rw [passed, residue, Text.takeBytes?_eq_none_iff.mpr hdrop, hdrop]
  exact ⟨rfl, rfl⟩

lemma passed_and_residue_byteLength (t : Text) :
    (⟨t, t.byteLength⟩ : Location).passed = t ∧ (⟨t, t.byteLength⟩ : Location).residue = [] :=
  passed_and_residue_of_append (List.append_nil t).symm rfl

/-- The lines in front of the line of a place, and that line as far as the place, are what was
passed. -/
lemma exists_lines_eq (l : Location) :
    ∃ before front back behind, l.text.lines = before ++ (front ++ back) :: behind ∧
      l.linePosition = ⟨before.length + 1, front.byteLength⟩ ∧
      Text.unlines before ++ front = l.passed := by
  obtain ⟨before, back, behind, -, hlines, hlength, hpassed⟩ :=
    Text.exists_lines_append l.passed l.residue
  rw [passed_append_residue] at hlines
  exact ⟨before, Text.lastLine l.passed, back, behind, hlines, by rw [linePosition, hlength], hpassed⟩

/-- A place further on has a greater line or a greater offset in the same line. -/
lemma linePosition_precedes {t : Text} (hm : t.IsBoundary m) (hn : t.IsBoundary n) (h : m < n) :
    (⟨t, m⟩ : Location).linePosition.Precedes (⟨t, n⟩ : Location).linePosition := by
  have hpm : (passed ⟨t, m⟩).byteLength = m := byteLength_passed hm
  have hpn : (passed ⟨t, n⟩).byteLength = n := byteLength_passed hn
  have htm := passed_append_residue ⟨t, m⟩
  have htn := passed_append_residue ⟨t, n⟩
  obtain ⟨u, hu, -⟩ := Text.exists_append_of_byteLength_le (htm.trans htn.symm) (by omega)
  have hne : u ≠ [] := by
    rintro rfl
    rw [List.append_nil] at hu
    rw [hu] at hpn
    omega
  have hless := Text.count_lt_or_byteLength_lt (passed ⟨t, m⟩) hne
  rw [← hu] at hless
  unfold LinePosition.Precedes linePosition
  dsimp only
  omega

/-- The line, the offset in it and the residue cut the text in one place: the lines in front, the
bytes of the line in front of the offset and the residue are the text. Between two characters what
lies in front of the residue is as long as the offset into the text says, so that no two places have
one line and offset, and a place further on has a greater line or a greater offset in the same line.
Everything else is the end of the text. -/
theorem linePosition_and_residue_cut_text (l : Location) :
    (∃ number offset line front back,
      l.linePosition = ⟨number, offset⟩ ∧ 1 ≤ number ∧ number ≤ l.text.lines.length ∧
      l.text.lines[number - 1]? = some line ∧ offset ≤ line.byteLength ∧
      line.splitBytes? offset = some (front, back) ∧
      Text.unlines (l.text.lines.take (number - 1)) ++ front ++ l.residue = l.text ∧
      (l.text.IsBoundary l.offset →
        (Text.unlines (l.text.lines.take (number - 1)) ++ front).byteLength = l.offset)) ∧
    (∀ m n, l.text.IsBoundary m → l.text.IsBoundary n →
      (m < n → (⟨l.text, m⟩ : Location).linePosition.Precedes (⟨l.text, n⟩ : Location).linePosition) ∧
      (m ≠ n → (⟨l.text, m⟩ : Location).linePosition ≠ (⟨l.text, n⟩ : Location).linePosition)) ∧
    (¬ l.text.IsBoundary l.offset →
      l.linePosition = (⟨l.text, l.text.byteLength⟩ : Location).linePosition ∧
      l.residue = (⟨l.text, l.text.byteLength⟩ : Location).residue ∧ l.residue = []) := by
  refine ⟨?_, fun m n hm hn => ⟨linePosition_precedes hm hn, fun hne => ?_⟩, fun h => ?_⟩
  · obtain ⟨before, front, back, behind, hlines, hposition, hpassed⟩ := l.exists_lines_eq
    have htake : l.text.lines.take (before.length + 1 - 1) = before := by
      rw [hlines, Nat.add_sub_cancel, List.take_left]
    refine ⟨before.length + 1, front.byteLength, front ++ back, front, back, hposition,
      Nat.le_add_left 1 before.length, ?_, ?_, ?_, ?_, ?_, ?_⟩
    · simp [hlines]
    · simp [hlines]
    · simp
    · exact Text.splitBytes?_byteLength_append front back
    · rw [htake, hpassed]
      exact l.passed_append_residue
    · rw [htake, hpassed]
      exact byteLength_passed
  · rcases Nat.lt_or_gt_of_ne hne with hlt | hlt
    · exact (linePosition_precedes hm hn hlt).ne
    · exact (linePosition_precedes hn hm hlt).ne.symm
  · obtain ⟨hpassed, hresidue⟩ := passed_and_residue_of_not_isBoundary h
    obtain ⟨hpassed', hresidue'⟩ := passed_and_residue_byteLength l.text
    refine ⟨?_, hresidue.trans hresidue'.symm, hresidue⟩
    rw [linePosition, linePosition, hpassed, hpassed']

/-- In front of and behind an empty line, and an offset inside a character. -/
theorem linePosition_and_residue_cut_text_inside :
    ¬ Text.IsBoundary ['a', '\n', '\n', 'é'] 4 ∧
    Text.IsBoundary ['a', '\n', '\n', 'é'] 2 ∧ Text.IsBoundary ['a', '\n', '\n', 'é'] 3 ∧
    (⟨['a', '\n', '\n', 'é'], 4⟩ : Location).linePosition = ⟨3, 2⟩ ∧
    (⟨['a', '\n', '\n', 'é'], 4⟩ : Location).residue = [] ∧
    (⟨['a', '\n', '\n', 'é'], 2⟩ : Location).linePosition.Precedes
      (⟨['a', '\n', '\n', 'é'], 3⟩ : Location).linePosition := by
  have hinside : ¬ Text.IsBoundary ['a', '\n', '\n', 'é'] 4 := by
    rintro ⟨passed, rest, ht, hn⟩
    have h := Text.splitBytes?_byteLength_append passed rest
    rw [← ht, hn] at h
    cases h
  have htwo : Text.IsBoundary ['a', '\n', '\n', 'é'] 2 := ⟨['a', '\n'], ['\n', 'é'], rfl, rfl⟩
  have hthree : Text.IsBoundary ['a', '\n', '\n', 'é'] 3 := ⟨['a', '\n', '\n'], ['é'], rfl, rfl⟩
  have h := linePosition_and_residue_cut_text ⟨['a', '\n', '\n', 'é'], 4⟩
  obtain ⟨hposition, -, hresidue⟩ := h.2.2 hinside
  exact ⟨hinside, htwo, hthree, hposition.trans rfl, hresidue,
    (h.2.1 2 3 htwo hthree).1 (by decide)⟩

end Location
end TextParsing
