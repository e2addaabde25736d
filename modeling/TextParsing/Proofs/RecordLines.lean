import Mathlib.Algebra.GroupWithZero.Nat
import TextParsing.Proofs.LinePlaces
import TextParsing.Proofs.TableFailure

/-! The lines of a table. A record takes a line for each of its five cells, and one more for every
newline in the writing of its name, which is the only cell that can go over several lines. -/
namespace TextParsing

namespace Text
variable {n : Nat} {t : Text} {ls ts : List Text} {ch : Char}

/-- A text of the given number of lines, each with its newline. -/
def IsLines (n : Nat) (t : Text) : Prop :=
  ∃ ls : List Text, ls.length = n ∧ (∀ line ∈ ls, '\n' ∉ line) ∧ t = unlines ls

lemma count_unlines (h : ∀ line ∈ ls, '\n' ∉ line) : (unlines ls).count '\n' = ls.length := by
  induction ls with
  | nil => rfl
  | cons line ls ih =>
    obtain ⟨hline, hls⟩ := List.forall_mem_cons.mp h
    have hunlines : unlines (line :: ls) = line ++ ['\n'] ++ unlines ls := rfl
    rw [hunlines, List.count_append, List.count_append, List.count_eq_zero.mpr hline, ih hls,
      List.length_cons]
    simp [Nat.add_comm]

lemma IsLines.count_eq (h : t.IsLines n) : t.count '\n' = n := by
  obtain ⟨ls, rfl, hls, rfl⟩ := h
  exact count_unlines hls

lemma count_intercalate (separator : Text) (ch : Char) (hts : ts ≠ []) :
    (separator.intercalate ts).count ch + separator.count ch =
      (ts.map (·.count ch)).sum + ts.length * separator.count ch := by
  induction ts with
  | nil => exact absurd rfl hts
  | cons t ts ih =>
    cases ts with
    | nil => simp
    | cons t' ts =>
      have ih := ih (by simp)
      rw [List.intercalate_cons_cons, List.count_append, List.count_append, List.map_cons,
        List.sum_cons, List.length_cons, Nat.succ_mul]
      omega

end Text

namespace Decimal
variable {t whole fraction digits : Text} {negative : Bool} {n : Int}

lemma newline_not_mem_of_isDigit (h : ∀ ch ∈ digits, ch.isDigit = true) : '\n' ∉ digits := by
  intro hmem
  cases h '\n' hmem

lemma IsSign.newline_not_mem (h : IsSign t negative) : '\n' ∉ t := by
  cases h <;> decide

lemma IsInteger.newline_not_mem (h : IsInteger t n) : '\n' ∉ t := by
  obtain ⟨s, negative, digits, rfl, hsign, -, hdigits, -⟩ := h
  rw [List.mem_append, not_or]
  exact ⟨hsign.newline_not_mem, newline_not_mem_of_isDigit hdigits⟩

lemma IsFraction.newline_not_mem (h : IsFraction t fraction) : '\n' ∉ t := by
  cases h with
  | none => exact List.not_mem_nil
  | some hdigits => simpa using newline_not_mem_of_isDigit hdigits

lemma IsDecimal.newline_not_mem (h : IsDecimal t negative whole fraction) : '\n' ∉ t := by
  obtain ⟨s, point, rfl, hsign, hwhole, hpoint, -⟩ := h
  rw [List.mem_append, List.mem_append, not_or, not_or]
  exact ⟨hsign.newline_not_mem, newline_not_mem_of_isDigit hwhole, hpoint.newline_not_mem⟩

end Decimal

namespace Table
variable {r : Record} {rs : List Record} {t : Text} {blocks : List Text}

lemma IsValue.newline_not_mem {d : Double} (h : IsValue t d) : '\n' ∉ t := by
  obtain ⟨⟨negative, whole, fraction, hdecimal⟩, -⟩ := h
  exact hdecimal.newline_not_mem

/-- What stands in the cells of a record. -/
structure Cells where
  id : Text
  name : Text
  first : Text
  second : Text
  third : Text

namespace Cells

/-- The block of a record with these cells. -/
def block (s : Cells) : Text :=
  line s.id ++ (line (flag s.name) ++ (line s.first ++ (line s.second ++ line s.third)))

/-- The cells write the parts of a record. -/
structure Write (s : Cells) (r : Record) : Prop where
  id : Decimal.IsInteger s.id r.id.toInt
  name : IsName s.name r.name
  first : IsValue s.first r.first
  second : IsValue s.second r.second
  third : IsValue s.third r.third

variable {s : Cells}

lemma Write.newline_not_mem_name (h : s.Write r) (hname : '\n' ∉ s.name) : '\n' ∉ r.name := by
  intro hmem
  exact hname (h.name.2.mem hmem)

/-- Only the name has newlines besides those at the ends of the five cells. -/
lemma Write.count_block (h : s.Write r) : s.block.count '\n' = 5 + s.name.count '\n' := by
  have hid := List.count_eq_zero.mpr h.id.newline_not_mem
  have hfirst := List.count_eq_zero.mpr h.first.newline_not_mem
  have hsecond := List.count_eq_zero.mpr h.second.newline_not_mem
  have hthird := List.count_eq_zero.mpr h.third.newline_not_mem
  simp [block, line, flag, hid, hfirst, hsecond, hthird]
  omega

lemma Write.isLines_block_iff (h : s.Write r) : s.block.IsLines 5 ↔ '\n' ∉ s.name := by
  constructor
  · intro hlines
    have hcount := h.count_block
    rw [hlines.count_eq] at hcount
    exact List.count_eq_zero.mp (by omega)
  · intro hname
    refine ⟨[['|', ' '] ++ s.id, ['|', ' '] ++ flag s.name, ['|', ' '] ++ s.first,
      ['|', ' '] ++ s.second, ['|', ' '] ++ s.third], rfl, ?_, ?_⟩
    · simp [flag, h.id.newline_not_mem, hname, h.first.newline_not_mem, h.second.newline_not_mem,
        h.third.newline_not_mem]
    · simp [block, line, Text.unlines]

end Cells

lemma isBlock_iff : IsBlock r t ↔ ∃ s : Cells, s.Write r ∧ t = s.block := by
  constructor
  · rintro ⟨id, name, first, second, third, rfl, hid, hname, hfirst, hsecond, hthird⟩
    exact ⟨⟨id, name, first, second, third⟩, ⟨hid, hname, hfirst, hsecond, hthird⟩, rfl⟩
  · rintro ⟨s, h, rfl⟩
    exact ⟨s.id, s.name, s.first, s.second, s.third, rfl, h.id, h.name, h.first, h.second, h.third⟩

lemma exists_cells_of_isBlock (h : List.Forall₂ IsBlock rs blocks) :
    ∃ ss : List Cells, List.Forall₂ (fun r s => s.Write r) rs ss ∧ blocks = ss.map Cells.block := by
  induction h with
  | nil => exact ⟨[], .nil, rfl⟩
  | cons hblock _ ih =>
    obtain ⟨s, hs, rfl⟩ := isBlock_iff.mp hblock
    obtain ⟨ss, hss, rfl⟩ := ih
    exact ⟨s :: ss, .cons hs hss, rfl⟩

lemma newline_not_mem_names {ss : List Cells} (h : List.Forall₂ (fun r s => s.Write r) rs ss)
    (hnames : ∀ s ∈ ss, '\n' ∉ s.name) : ∀ r ∈ rs, '\n' ∉ r.name := by
  induction h with
  | nil => exact fun r hr => absurd hr List.not_mem_nil
  | cons hs _ ih =>
    obtain ⟨hname, hnames⟩ := List.forall_mem_cons.mp hnames
    exact List.forall_mem_cons.mpr ⟨hs.newline_not_mem_name hname, ih hnames⟩

lemma sum_count_block {ss : List Cells} (h : List.Forall₂ (fun r s => s.Write r) rs ss) :
    ((ss.map Cells.block).map (·.count '\n')).sum =
      5 * rs.length + (ss.map fun s => s.name.count '\n').sum := by
  induction h with
  | nil => rfl
  | cons hs _ ih =>
    simp only [List.map_cons, List.sum_cons, List.length_cons, ih, hs.count_block]
    omega

/-- A record is read from a text of five lines exactly if there is no newline in the writing of its
name; the text has one line more for each newline in there. A table of `n` records has `6 * n - 1`
newlines exactly if no name is written with one, and then no record has one in its name; otherwise it
has so many more as the names are written with. -/
theorem five_lines_iff_newline_not_mem_name (c : Cursor) (input : Text) :
    (∀ r d, record c = .success r d → ∃ s : Cells, s.Write r ∧ c.Passes s.block d ∧
      s.block.count '\n' = 5 + s.name.count '\n' ∧ (s.block.IsLines 5 ↔ '\n' ∉ s.name)) ∧
    ∀ verdict rs, parse input = some verdict → verdict.result = .ok rs → rs ≠ [] →
      ∃ ss : List Cells, List.Forall₂ (fun r s => s.Write r) rs ss ∧
        input = ['|', '-', '\n'].intercalate (ss.map Cells.block) ∧
        input.count '\n' = 6 * rs.length - 1 + (ss.map fun s => s.name.count '\n').sum ∧
        (input.count '\n' = 6 * rs.length - 1 ↔ ∀ s ∈ ss, '\n' ∉ s.name) ∧
        ((∀ s ∈ ss, '\n' ∉ s.name) → ∀ r ∈ rs, '\n' ∉ r.name) := by
  constructor
  · intro r d h
    obtain ⟨t, hpass, hblock⟩ := (reads_record.success_iff c r d).mp h
    obtain ⟨s, hs, rfl⟩ := isBlock_iff.mp hblock
    exact ⟨s, hs, hpass, hs.count_block, hs.isLines_block_iff⟩
  · intro verdict rs hv hok hrs
    obtain ⟨blocks, hblocks, htable⟩ := exists_parse_ok_iff.mp ⟨verdict, hv, hok⟩
    obtain ⟨ss, hss, rfl⟩ := exists_cells_of_isBlock hblocks
    have hlength := hss.length_eq
    have hpos := List.length_pos_iff.mpr hrs
    have hne : ss.map Cells.block ≠ [] := by
      rw [← List.length_pos_iff, List.length_map]
      omega
    have hcount : input.count '\n' =
        6 * rs.length - 1 + (ss.map fun s => s.name.count '\n').sum := by
      have h := Text.count_intercalate ['|', '-', '\n'] '\n' hne
      rw [← htable, sum_count_block hss, List.length_map] at h
      simp at h
      omega
    refine ⟨ss, hss, htable, hcount, ?_, newline_not_mem_names hss⟩
    rw [hcount, Nat.add_eq_left, List.sum_eq_zero_iff_forall_eq_nat]
    simp [List.count_eq_zero]

/-- A record with a newline in its name. -/
def twoLineName : Text :=
  line ['1'] ++ (line (flag ['U', '\n', 'S']) ++ (line ['1'] ++ (line ['2'] ++ line ['3'])))

/-- It is read as a whole, from six lines, and makes up a table with one newline too many. -/
theorem record_over_six_lines :
    ∃ r d verdict, record (.ofText twoLineName) = .success r d ∧
      (Cursor.ofText twoLineName).Passes twoLineName d ∧ ¬ twoLineName.IsLines 5 ∧
      twoLineName.IsLines 6 ∧ parse twoLineName = some verdict ∧ verdict.result = .ok [r] ∧
      twoLineName.count '\n' ≠ 6 * [r].length - 1 ∧ '\n' ∈ r.name := by
  have hread : ((record.run twoLineName).map fun report =>
      (report.value.map Record.name, report.residue)) = some (some ['U', '\n', 'S'], []) := by
    decide +kernel
  have hcount : twoLineName.count '\n' = 6 := by decide
  obtain ⟨report, hrun, hreport⟩ := Option.map_eq_some_iff.mp hread
  obtain ⟨hvalue, hresidue⟩ := Prod.mk.inj hreport
  obtain ⟨r, hr, hname⟩ := Option.map_eq_some_iff.mp hvalue
  rcases Parser.run_eq_some_iff.mp hrun with ⟨-, rfl⟩ | ⟨_, d, h, rfl⟩
  · cases hr
  cases hr
  obtain ⟨t, hpass, hblock⟩ := (reads_record.success_iff _ r d).mp h
  obtain rfl : twoLineName = t := by
    have ht : twoLineName = t ++ d.rest := hpass.2.1
    rwa [show d.rest = [] from hresidue, List.append_nil] at ht
  obtain ⟨verdict, hv, hok⟩ := exists_parse_ok_iff.mpr
    ⟨[twoLineName], .cons hblock .nil, (List.intercalate_singleton ..).symm⟩
  refine ⟨r, d, verdict, h, hpass, fun hlines => ?_, ?_, hv, hok, ?_, by simp [hname]⟩
  · have := hlines.count_eq
    omega
  · exact ⟨twoLineName.lines.take 6, by decide, by decide, by decide⟩
  · rw [hcount]
    simp

end Table
end TextParsing
