import TextParsing.Text.Unprintable

/-! Texts between double quotes, with escapes for what a terminal would not show as it is. -/
namespace TextParsing.Text

/-- A character without a short escape is written as it is if it can be shown, and else by its code
point, in lower-case hexadecimal without leading zeros. -/
def escape (c : Char) : Text :=
  if c = '\x00' then ['\\', '0']
  else if c = '\t' then ['\\', 't']
  else if c = '\n' then ['\\', 'n']
  else if c = '\r' then ['\\', 'r']
  else if c = '"' then ['\\', '"']
  else if c = '\\' then ['\\', '\\']
  else if isUnprintable c then
    ['\\', 'u', '{'] ++ Nat.toDigits 16 c.toNat ++ ['}']
  else [c]

def quoted (t : Text) : Text := ['"'] ++ t.flatMap escape ++ ['"']

theorem ascii_of_mem_toDigits {n : Nat} {c : Char} (h : c ∈ Nat.toDigits 16 n) :
    0x20 ≤ c.toNat ∧ c.toNat < 0x7F := by
  have hdigit : ∀ d < 16, 0x20 ≤ d.digitChar.toNat ∧ d.digitChar.toNat < 0x7F := by decide
  induction n using Nat.strongRecOn with
  | ind n ih =>
    rw [Nat.toDigits_eq_if (by decide)] at h
    split at h
    case isTrue hn =>
      rw [List.mem_singleton.mp h]
      exact hdigit n hn
    case isFalse hn =>
      rcases List.mem_append.mp h with h | h
      · exact ih (n / 16) (Nat.div_lt_self (by omega) (by decide)) h
      · rw [List.mem_singleton.mp h]
        exact hdigit (n % 16) (Nat.mod_lt n (by decide))

/-- What is shown of a character can be shown. -/
theorem isUnprintable_eq_false_of_mem_escape {c d : Char} (h : d ∈ escape c) :
    isUnprintable d = false := by
  have hascii {s : Text} (hs : (s.all fun d => 0x20 ≤ d.toNat && d.toNat < 0x7F) = true)
      (hd : d ∈ s) : isUnprintable d = false := by
    have h := List.all_eq_true.mp hs d hd
    rw [Bool.and_eq_true, decide_eq_true_eq, decide_eq_true_eq] at h
    exact isUnprintable_eq_false_of_ascii h.1 h.2
  unfold escape at h
  -- The six short escapes.
  iterate 6
    split at h
    · exact hascii rfl h
  split at h
  case isTrue =>
    rcases List.mem_append.mp h with h | h
    · rcases List.mem_append.mp h with h | h
      · exact hascii rfl h
      · have hdigit := ascii_of_mem_toDigits h
        exact isUnprintable_eq_false_of_ascii hdigit.1 hdigit.2
    · exact hascii rfl h
  case isFalse hc =>
    rw [List.mem_singleton.mp h]
    exact Bool.eq_false_iff.mpr hc

/-- A quoted text can be shown as it is. In particular it stands in one line. -/
theorem isUnprintable_eq_false_of_mem_quoted {t : Text} {d : Char} (h : d ∈ quoted t) :
    isUnprintable d = false := by
  have hquote : isUnprintable '"' = false := isUnprintable_eq_false_of_ascii (by decide) (by decide)
  rcases List.mem_append.mp h with h | h
  · rcases List.mem_append.mp h with h | h
    · rwa [List.mem_singleton.mp h]
    · obtain ⟨c, -, hd⟩ := List.mem_flatMap.mp h
      exact isUnprintable_eq_false_of_mem_escape hd
  · rwa [List.mem_singleton.mp h]

/-- A mark that joins the letter before it is not shown as it is, a letter that has one is. -/
example : quoted ['a', 'é', '世', '\u0301', '\u0085', '\u00ad', '\u200b', '\ue000'] =
    "\"aé世\\u\x7b301\x7d\\u\x7b85\x7d\\u\x7bad\x7d\\u\x7b200b\x7d\\u\x7be000\x7d\"".toList := by
  decide +kernel

end TextParsing.Text
