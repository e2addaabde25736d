import Mathlib.Algebra.GroupWithZero.Nat
import TextParsing.Proofs.Reading

/-! The arithmetic of places. To advance twice is to advance by the sum, the other moves advance by the
bytes of what they pass, and the texts between three places in their order join. No sum is larger than
the text is long. -/
namespace TextParsing

namespace Text
variable {s t : Text} {m : Nat}

/-- Behind a beginning of a text its boundaries are those of the rest. -/
lemma isBoundary_append_iff : (s ++ t).IsBoundary (s.byteLength + m) ↔ t.IsBoundary m := by
  constructor
  · rintro ⟨passed, rest, h, hn⟩
    obtain ⟨u, rfl, ht⟩ := exists_append_of_byteLength_le h (by omega)
    rw [byteLength_append] at hn
    exact ⟨u, rest, ht, by omega⟩
  · rintro ⟨passed, rest, rfl, rfl⟩
    exact ⟨s ++ passed, rest, (List.append_assoc ..).symm, byteLength_append s passed⟩

end Text

namespace Cursor
variable {a b c d e : Cursor} {t : Text} {m : Nat}

lemma exists_advance?_iff : (∃ d, c.advance? m = some d) ↔ c.rest.IsBoundary m := by
  constructor
  · rintro ⟨d, h⟩
    obtain ⟨t, ht, rfl⟩ := advance?_eq_some_iff.mp h
    exact ⟨t, d.rest, ht.2.1, rfl⟩
  · rintro ⟨t, rest, hr, rfl⟩
    obtain ⟨d, hadvance, -⟩ := exists_advance?_of_rest_eq hr
    exact ⟨d, hadvance⟩

lemma Valid.isBoundary_rest_iff (hc : c.Valid) :
    c.rest.IsBoundary m ↔ c.source.IsBoundary (c.position + m) := by
  obtain ⟨passed, hs, hp⟩ := hc
  rw [hs, hp, Text.isBoundary_append_iff]

lemma advance?_eq_none_of_lt (h : c.rest.byteLength < m) : c.advance? m = none := by
  rw [Option.eq_none_iff_forall_ne_some]
  intro d hd
  have hle := (exists_advance?_iff.mp ⟨d, hd⟩).le_byteLength
  omega

/-- An advance goes on where another one ended as one advance would, also where it fails. -/
theorem advance?_advance? (h : c.advance? m = some d) (n : Nat) :
    d.advance? n = c.advance? (m + n) := by
  obtain ⟨t, ht, rfl⟩ := advance?_eq_some_iff.mp h
  ext e
  rw [advance?_eq_some_iff, advance?_eq_some_iff]
  constructor
  · rintro ⟨u, hu, rfl⟩
    exact ⟨t ++ u, ht.trans hu, (Text.byteLength_append t u).symm⟩
  · rintro ⟨w, hw, hn⟩
    obtain ⟨u, rfl, -⟩ := Text.exists_append_of_byteLength_le (ht.2.1.symm.trans hw.2.1) (by omega)
    obtain ⟨d', hd', he⟩ := passes_append_iff.mp hw
    obtain rfl := hd'.unique ht
    rw [Text.byteLength_append] at hn
    exact ⟨u, he, by omega⟩

/-- The sum of two machine words is the new position: no carry is lost, since the sum is not larger
than the text is long. -/
lemma Passes.toNat_add (h : c.Passes t d) (hc : c.Valid) (hlt : c.source.byteLength < 2 ^ 64) :
    (UInt64.ofNat c.position + UInt64.ofNat t.byteLength).toNat = d.position := by
  have hle := (h.valid hc).isBoundary.le_byteLength
  rw [h.1, h.2.2] at hle
  rw [h.2.2, UInt64.toNat_add, UInt64.toNat_ofNat', UInt64.toNat_ofNat']
  omega

/-- The texts between three places in their order join. -/
lemma Valid.textUntil?_append (ha : a.Valid) (hb : b.Valid) (he : e.Valid)
    (hab : a.source = b.source) (hbe : b.source = e.source) (hle : a.position ≤ b.position)
    (hle' : b.position ≤ e.position) :
    ∃ s t, a.textUntil? b = some s ∧ b.textUntil? e = some t ∧ a.textUntil? e = some (s ++ t) ∧
      s ++ b.rest = a.rest := by
  obtain ⟨s, hs⟩ := ha.exists_passes hb hab hle
  obtain ⟨t, ht⟩ := hb.exists_passes he hbe hle'
  exact ⟨s, t, textUntil?_of_passes hs, textUntil?_of_passes ht, textUntil?_of_passes (hs.trans ht),
    hs.2.1.symm⟩

lemma Valid.beq_iff_position_eq (ha : a.Valid) (hb : b.Valid) (h : a.source = b.source) :
    (a == b) = true ↔ a.position = b.position := by
  rw [beq_iff_rest_eq]
  constructor
  · intro hr
    rw [ha.eq_of_rest_eq hb h hr]
  · intro hp
    rw [ha.eq_of_position_eq hb h hp]

/-- A cursor advances to exactly the boundaries of what is left, which are those of the source from its
position on. Nothing is added to the position elsewhere, and no sum is larger than the source is long.
An advance behind another one is the advance by the exact sum. Every beginning of what is left is passed
by an advance over its bytes, and so are the next character, a run of characters and whatever else
is taken character by character.

Of places in one source, the texts from the first to the second and from there to the third join to the
text from the first to the third, the text to a place and what is left there join to what was left
before, and there is none backwards. Two places are taken for the same exactly if their positions are the
same. -/
theorem positions_add_up (ha : a.Valid) (hb : b.Valid) (he : e.Valid) (hab : a.source = b.source)
    (hbe : b.source = e.source) :
    (∀ m, ((∃ d, a.advance? m = some d) ↔ a.rest.IsBoundary m) ∧
      (a.rest.IsBoundary m ↔ a.source.IsBoundary (a.position + m)) ∧
      (a.rest.byteLength < m → a.advance? m = none)) ∧
    (∀ m d, a.advance? m = some d → d.source = a.source ∧ d.position = a.position + m ∧
      d.position ≤ a.source.byteLength ∧
      (a.source.byteLength < 2 ^ 64 →
        (UInt64.ofNat a.position + UInt64.ofNat m).toNat = d.position) ∧
      ∀ n, d.advance? n = a.advance? (m + n)) ∧
    (∀ t rest, a.rest = t ++ rest → ∃ d, a.advance? t.byteLength = some d ∧ d.rest = rest) ∧
    (∀ ch, a.peek? = some ch → a.advance? ch.utf8Size = some a.next) ∧
    (∀ p, a.advance? (a.takeWhile p).1.byteLength = some (a.takeWhile p).2) ∧
    (∀ (σ : Type) (next : σ → Char → Option σ) (start : σ),
      a.advance? (a.scan next start).1.byteLength = some (a.scan next start).2) ∧
    (a.position ≤ b.position → b.position ≤ e.position →
      ∃ s t, a.textUntil? b = some s ∧ b.textUntil? e = some t ∧ a.textUntil? e = some (s ++ t) ∧
        s ++ b.rest = a.rest ∧ b.textUntil? a = some []) ∧
    ((a == b) = true ↔ a.position = b.position) := by
  have hscan {σ : Type} (next : σ → Char → Option σ) (start : σ) :
      a.advance? (a.scan next start).1.byteLength = some (a.scan next start).2 :=
    advance?_eq_some_iff.mpr ⟨_, a.passes_scan next start, rfl⟩
  refine ⟨fun m => ⟨exists_advance?_iff, ha.isBoundary_rest_iff, advance?_eq_none_of_lt⟩,
    fun m d h => ?_, fun t rest h => ?_, fun ch h => ?_, fun p => hscan (Text.passIf p) (),
    fun σ => hscan, fun hle hle' => ?_, ha.beq_iff_position_eq hb hab⟩
  · obtain ⟨t, ht, rfl⟩ := advance?_eq_some_iff.mp h
    have hbound := (ht.valid ha).isBoundary.le_byteLength
    rw [ht.1] at hbound
    exact ⟨ht.1, ht.2.2, hbound, ht.toNat_add ha, advance?_advance? h⟩
  · obtain ⟨d, hadvance, -, hr⟩ := exists_advance?_of_rest_eq h
    exact ⟨d, hadvance, hr⟩
  · obtain ⟨rest, hr⟩ := List.head?_eq_some_iff.mp h
    exact advance?_eq_some_iff.mpr ⟨[ch], passes_next_of_cons hr, by simp⟩
  · obtain ⟨s, t, hs, ht, hst, hr⟩ := ha.textUntil?_append hb he hab hbe hle hle'
    exact ⟨s, t, hs, ht, hst, hr, textUntil?_of_position_le hle⟩

/-- From the second of four characters to the third one, which has two bytes, and behind it. -/
theorem positions_add_up_twoBytes :
    ∃ a b e : Cursor, a.Valid ∧ b.Valid ∧ e.Valid ∧ a.source = ['é', 'a', 'é', 'b'] ∧
      b.source = a.source ∧ e.source = a.source ∧ a.position = 2 ∧ b.position = 3 ∧ e.position = 5 ∧
      a.advance? 1 = some b ∧ b.advance? 2 = a.advance? 3 ∧ a.advance? (2 ^ 64 - 1) = none ∧
      (∃ s t, a.textUntil? b = some s ∧ b.textUntil? e = some t ∧
        a.textUntil? e = some (s ++ t)) ∧ (a == b) = false := by
  have ha := valid_next (valid_ofText ['é', 'a', 'é', 'b'])
  have hb := valid_next ha
  have he := valid_next hb
  obtain ⟨hbounds, hsums, -, hnext, -, -, htexts, hsame⟩ := positions_add_up ha hb he rfl rfl
  have hone := hnext 'a' rfl
  obtain ⟨s, t, hs, ht, hst, -⟩ := htexts (by decide) (by decide)
  refine ⟨_, _, _, ha, hb, he, rfl, rfl, rfl, rfl, rfl, rfl, hone, (hsums 1 _ hone).2.2.2.2 2,
    (hbounds _).2.2 (by decide), ⟨s, t, hs, ht, hst⟩, ?_⟩
  rw [Bool.eq_false_iff]
  exact fun h => absurd (hsame.mp h) (by decide)

end Cursor
end TextParsing
