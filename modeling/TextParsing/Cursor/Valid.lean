import TextParsing.Cursor.Basic

/-! The invariant of cursors: the position is the length of what was passed, and the passed text and
the rest make up the source. Every operation keeps it. -/
namespace TextParsing.Cursor

def Valid (c : Cursor) : Prop :=
  ∃ passed : Text, c.source = passed ++ c.rest ∧ c.position = passed.byteLength

theorem valid_ofText (t : Text) : (ofText t).Valid := ⟨[], rfl, rfl⟩

/-- `c` moved past the text `t`, which is the beginning of what is left. -/
def Passes (c : Cursor) (t : Text) (d : Cursor) : Prop :=
  d.source = c.source ∧ c.rest = t ++ d.rest ∧ d.position = c.position + t.byteLength

theorem Passes.refl (c : Cursor) : c.Passes [] c := ⟨rfl, rfl, rfl⟩

theorem Passes.trans {a b c : Cursor} {s t : Text} (h : a.Passes s b) (k : b.Passes t c) :
    a.Passes (s ++ t) c :=
  ⟨k.1.trans h.1, by simp [h.2.1, k.2.1], by simp [k.2.2, h.2.2, Nat.add_assoc]⟩

theorem Passes.valid {c d : Cursor} {t : Text} (h : c.Passes t d) (hc : c.Valid) : d.Valid := by
  obtain ⟨passed, hs, hp⟩ := hc
  exact ⟨passed ++ t, by simp [h.1, hs, h.2.1], by simp [h.2.2, hp]⟩

theorem advance?_eq_some_iff {n : Nat} {c d : Cursor} :
    c.advance? n = some d ↔ ∃ t : Text, c.Passes t d ∧ n = t.byteLength := by
  simp only [advance?, Option.map_eq_some_iff]
  constructor
  · rintro ⟨⟨t, rest⟩, h, rfl⟩
    obtain ⟨hr, hn⟩ := Text.splitBytes?_eq_some_iff.mp h
    exact ⟨t, ⟨rfl, hr, by simp [hn]⟩, hn⟩
  · rintro ⟨t, ⟨hs, hr, hp⟩, rfl⟩
    exact ⟨(t, d.rest), Text.splitBytes?_eq_some_iff.mpr ⟨hr, rfl⟩, by cases d; simp_all⟩

theorem passes_next_of_cons {c : Cursor} {ch : Char} {rest : Text} (h : c.rest = ch :: rest) :
    c.Passes [ch] c.next := by
  simp [Passes, next, h]

theorem valid_next {c : Cursor} (h : c.Valid) : c.next.Valid := by
  cases hr : c.rest with
  | nil => simpa [next, hr] using h
  | cons ch rest => exact (passes_next_of_cons hr).valid h

theorem scan_eq_iff {σ : Type} {next : σ → Char → Option σ} {start : σ} {c d : Cursor} {t : Text} :
    c.scan next start = (t, d) ↔ c.Passes t d ∧ ∃ last, t.foldlM next start = some last ∧
      ∀ ch ∈ d.rest.head?, next last ch = none := by
  unfold scan
  constructor
  · intro h
    obtain ⟨rfl, rfl⟩ := Prod.mk.inj h
    obtain ⟨ht, hscan⟩ := Text.scan_eq_iff.mp (Prod.eta (c.rest.scan next start)).symm
    exact ⟨⟨rfl, ht, rfl⟩, hscan⟩
  · rintro ⟨⟨hs, hr, hp⟩, hscan⟩
    rw [Text.scan_eq_iff.mpr ⟨hr, hscan⟩]
    cases d
    simp_all

theorem passes_scan {σ : Type} (next : σ → Char → Option σ) (start : σ) (c : Cursor) :
    c.Passes (c.scan next start).1 (c.scan next start).2 :=
  (scan_eq_iff.mp rfl).1

/-- The position of a valid cursor and what is left add up to the whole length. -/
theorem Valid.position_add_byteLength_rest {c : Cursor} (h : c.Valid) :
    c.position + c.rest.byteLength = c.source.byteLength := by
  obtain ⟨passed, hs, hp⟩ := h
  simp [hs, hp]

theorem Valid.atEnd_iff {c : Cursor} (h : c.Valid) : c.atEnd = true ↔ c.rest = [] := by
  have := h.position_add_byteLength_rest
  rw [← Text.byteLength_eq_zero]
  simp only [atEnd, decide_eq_true_eq]
  omega

end TextParsing.Cursor
