import TextParsing.Text.Basic

/-! The characters with the Unicode property White_Space, and texts without them at either end. -/
namespace TextParsing.Text

/-- The property as ranges of code points, in increasing order. -/
def whiteSpaceRanges : List (Nat × Nat) :=
  [(0x9, 0xD), (0x20, 0x20), (0x85, 0x85), (0xA0, 0xA0), (0x1680, 0x1680), (0x2000, 0x200A),
    (0x2028, 0x2029), (0x202F, 0x202F), (0x205F, 0x205F), (0x3000, 0x3000)]

def isWhiteSpace (c : Char) : Bool := inRanges whiteSpaceRanges c

/-- The text without the white space at its beginning and at its end. -/
def trim (t : Text) : Text :=
  ((t.dropWhile isWhiteSpace).reverse.dropWhile isWhiteSpace).reverse

/-- The characters with the property, one by one. -/
def whiteSpaceChars : List Char :=
  ['\t', '\n', '\x0b', '\x0c', '\r', ' ', '\u0085', '\u00a0', '\u1680', '\u2000', '\u2001',
    '\u2002', '\u2003', '\u2004', '\u2005', '\u2006', '\u2007', '\u2008', '\u2009', '\u200a', '\u2028',
    '\u2029', '\u202f', '\u205f', '\u3000']

theorem isWhiteSpace_iff {c : Char} : isWhiteSpace c = true ↔ c ∈ whiteSpaceChars := by
  have hcodes : whiteSpaceChars.map Char.toNat =
      whiteSpaceRanges.flatMap fun range => List.range' range.1 (range.2 + 1 - range.1) := rfl
  have hmem : c ∈ whiteSpaceChars ↔ c.toNat ∈ whiteSpaceChars.map Char.toNat := by
    simp only [List.mem_map, Char.toNat_inj, exists_eq_right]
  rw [hmem, hcodes]
  simp only [isWhiteSpace, inRanges, List.any_eq_true, List.mem_flatMap, List.mem_range'_1,
    Bool.and_eq_true, decide_eq_true_eq]
  refine exists_congr fun range => and_congr_right fun _ => ?_
  omega

/-- `s` is what is left of `t` without the white space at its beginning and at its end. -/
def IsTrimmed (t s : Text) : Prop :=
  ∃ before after : Text, t = before ++ (s ++ after) ∧ (∀ c ∈ before, c ∈ whiteSpaceChars) ∧
    (∀ c ∈ after, c ∈ whiteSpaceChars) ∧ (∀ c ∈ s.head?, c ∉ whiteSpaceChars) ∧
    ∀ c ∈ s.getLast?, c ∉ whiteSpaceChars

/-- Passing the white space in front of a text cuts off characters with the property, up to one
without it. -/
theorem exists_eq_append_dropWhile (t : Text) :
    ∃ before : Text, t = before ++ t.dropWhile isWhiteSpace ∧ (∀ c ∈ before, c ∈ whiteSpaceChars) ∧
      ∀ c ∈ (t.dropWhile isWhiteSpace).head?, c ∉ whiteSpaceChars := by
  refine ⟨t.takeWhile isWhiteSpace, List.takeWhile_append_dropWhile.symm, fun c hc => ?_,
    fun c hc => ?_⟩
  · exact isWhiteSpace_iff.mp (List.all_eq_true.mp List.all_takeWhile c hc)
  · have h := List.head?_dropWhile_not isWhiteSpace t
    rw [hc] at h
    simp [← isWhiteSpace_iff, h]

/-- Nothing is passed in front of a character without the property. -/
theorem dropWhile_eq_self {t : Text} (h : ∀ c ∈ t.head?, c ∉ whiteSpaceChars) :
    t.dropWhile isWhiteSpace = t := by
  cases t with
  | nil => rfl
  | cons c t => exact List.dropWhile_cons_of_neg fun hc => h c rfl (isWhiteSpace_iff.mp hc)

theorem isTrimmed_trim (t : Text) : IsTrimmed t t.trim := by
  obtain ⟨before, ht, hbefore, hhead⟩ := exists_eq_append_dropWhile t
  obtain ⟨after, hs, hafter, hlast⟩ := exists_eq_append_dropWhile (t.dropWhile isWhiteSpace).reverse
  have hsplit : t.dropWhile isWhiteSpace = t.trim ++ after.reverse := by
    rw [trim, ← List.reverse_append, ← hs, List.reverse_reverse]
  refine ⟨before, after.reverse, hsplit ▸ ht, hbefore, by simpa using hafter, fun c hc => ?_, ?_⟩
  · rw [hsplit, List.head?_append, Option.mem_def.mp hc] at hhead
    exact hhead c rfl
  · rwa [trim, List.getLast?_reverse]

theorem IsTrimmed.trim_eq {t s : Text} (h : IsTrimmed t s) : t.trim = s := by
  obtain ⟨before, after, rfl, hbefore, hafter, hhead, hlast⟩ := h
  have hfront : (before ++ (s ++ after)).dropWhile isWhiteSpace =
      (s ++ after).dropWhile isWhiteSpace :=
    List.dropWhile_append_of_pos fun c hc => isWhiteSpace_iff.mpr (hbefore c hc)
  have hback : (after.reverse ++ s.reverse).dropWhile isWhiteSpace = s.reverse := by
    rw [List.dropWhile_append_of_pos fun c hc =>
      isWhiteSpace_iff.mpr (hafter c (List.mem_reverse.mp hc))]
    exact dropWhile_eq_self (List.head?_reverse ▸ hlast)
  rw [trim, hfront]
  cases s with
  | nil =>
    have hnil : (after ++ []).dropWhile isWhiteSpace = [] :=
      List.dropWhile_append_of_pos fun c hc => isWhiteSpace_iff.mpr (hafter c hc)
    rw [List.append_nil] at hnil
    rw [List.nil_append, hnil]
    rfl
  | cons c s =>
    have hself : (c :: s ++ after).dropWhile isWhiteSpace = c :: s ++ after :=
      dropWhile_eq_self hhead
    rw [hself, List.reverse_append, hback, List.reverse_reverse]

/-- Everything in what is left was there before. -/
theorem IsTrimmed.mem {t s : Text} {c : Char} (h : IsTrimmed t s) (hc : c ∈ s) : c ∈ t := by
  obtain ⟨before, after, rfl, -⟩ := h
  simp [hc]

end TextParsing.Text
