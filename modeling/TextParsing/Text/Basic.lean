/-! Texts as lists of characters, with lengths and cuts counted in bytes of the UTF-8 encoding. -/
namespace TextParsing

/-- A text is the list of its characters. -/
abbrev Text := List Char

namespace Text

/-- The length of the UTF-8 encoding. -/
def byteLength (t : Text) : Nat := t.foldl (fun n c => n + c.utf8Size) 0

theorem foldl_utf8Size (n : Nat) (t : Text) :
    t.foldl (fun n c => n + c.utf8Size) n = n + byteLength t := by
  unfold byteLength
  induction t generalizing n with
  | nil => simp
  | cons c t ih => rw [List.foldl_cons, List.foldl_cons, ih, ih (0 + _)]; omega

@[simp] theorem byteLength_nil : byteLength [] = 0 := rfl

@[simp] theorem byteLength_cons (c : Char) (t : Text) :
    byteLength (c :: t) = c.utf8Size + byteLength t := by
  rw [byteLength, List.foldl_cons, foldl_utf8Size, Nat.zero_add]

@[simp] theorem byteLength_append (s t : Text) :
    byteLength (s ++ t) = byteLength s + byteLength t := by
  induction s with
  | nil => simp
  | cons c s ih => simp [ih, Nat.add_assoc]

theorem byteLength_eq_zero {t : Text} : byteLength t = 0 ↔ t = [] := by
  cases t with
  | nil => simp
  | cons c t => have := c.utf8Size_pos; simp; omega

/-- Cut a text behind its first `n` bytes. `seen` holds what was passed before, last character
first. -/
def cutBytes? (seen : Text) : Nat → Text → Option (Text × Text)
  | 0, t => some (seen.reverse, t)
  | _ + 1, [] => none
  | n + 1, c :: t =>
    if c.utf8Size ≤ n + 1 then cutBytes? (c :: seen) (n + 1 - c.utf8Size) t else none

/-- The first `n` bytes and what is left; there is no such cut when `n` falls inside a character or
past the end. -/
def splitBytes? (n : Nat) (t : Text) : Option (Text × Text) := cutBytes? [] n t

theorem cutBytes?_byteLength_append (seen s rest : Text) :
    cutBytes? seen (byteLength s) (s ++ rest) = some (seen.reverse ++ s, rest) := by
  induction s generalizing seen with
  | nil => simp [cutBytes?]
  | cons c s ih =>
    have hc := c.utf8Size_pos
    obtain ⟨n, hn⟩ : ∃ n, byteLength (c :: s) = n + 1 := ⟨byteLength (c :: s) - 1, by simp; omega⟩
    have hs : n + 1 - c.utf8Size = byteLength s := by rw [← hn]; simp
    have hle : c.utf8Size ≤ n + 1 := by rw [← hn]; simp
    rw [hn, List.cons_append, cutBytes?, if_pos hle, hs, ih]
    simp

theorem append_of_cutBytes? {seen t front rest : Text} {n : Nat}
    (h : cutBytes? seen n t = some (front, rest)) :
    ∃ s, front = seen.reverse ++ s ∧ t = s ++ rest ∧ n = byteLength s := by
  fun_induction cutBytes? seen n t with
  | case1 seen t =>
    obtain ⟨rfl, rfl⟩ := Prod.mk.inj (Option.some.inj h)
    exact ⟨[], by simp, rfl, rfl⟩
  | case2 => simp at h
  | case3 seen n c t hle ih =>
    obtain ⟨s, rfl, rfl, hs⟩ := ih h
    exact ⟨c :: s, by simp, rfl, by simp; omega⟩
  | case4 => simp at h

/-- The cuts of a text are exactly its divisions into two parts. -/
theorem splitBytes?_eq_some_iff {n : Nat} {t s rest : Text} :
    splitBytes? n t = some (s, rest) ↔ t = s ++ rest ∧ n = byteLength s := by
  constructor
  · intro h
    obtain ⟨s', rfl, ht, hn⟩ := append_of_cutBytes? h
    exact ⟨ht, hn⟩
  · rintro ⟨rfl, rfl⟩
    exact cutBytes?_byteLength_append [] s rest

@[simp] theorem splitBytes?_byteLength_append (s rest : Text) :
    splitBytes? (byteLength s) (s ++ rest) = some (s, rest) :=
  splitBytes?_eq_some_iff.mpr ⟨rfl, rfl⟩

/-- The first `n` bytes of a text, if they end between two characters. `seen` holds what was passed
before, last character first. -/
def takeBytesFrom? (seen : Text) : Nat → Text → Option Text
  | 0, _ => some seen.reverse
  | _ + 1, [] => none
  | n + 1, c :: t =>
    if c.utf8Size ≤ n + 1 then takeBytesFrom? (c :: seen) (n + 1 - c.utf8Size) t else none

def takeBytes? (n : Nat) (t : Text) : Option Text := takeBytesFrom? [] n t

/-- What is left of a text behind its first `n` bytes, if they end between two characters. -/
def dropBytes? : Nat → Text → Option Text
  | 0, t => some t
  | _ + 1, [] => none
  | n + 1, c :: t => if c.utf8Size ≤ n + 1 then dropBytes? (n + 1 - c.utf8Size) t else none

theorem takeBytesFrom?_eq_map (seen : Text) (n : Nat) (t : Text) :
    takeBytesFrom? seen n t = (cutBytes? seen n t).map Prod.fst := by
  fun_induction cutBytes? seen n t with
  | case1 => simp [takeBytesFrom?]
  | case2 => rfl
  | case3 seen n c t hle ih => rw [takeBytesFrom?, if_pos hle, ih]
  | case4 seen n c t hgt => rw [takeBytesFrom?, if_neg hgt, Option.map_none]

theorem takeBytes?_eq_map (n : Nat) (t : Text) : takeBytes? n t = (splitBytes? n t).map Prod.fst :=
  takeBytesFrom?_eq_map [] n t

theorem dropBytes?_eq_map_cutBytes? (seen : Text) (n : Nat) (t : Text) :
    dropBytes? n t = (cutBytes? seen n t).map Prod.snd := by
  fun_induction cutBytes? seen n t with
  | case1 => simp [dropBytes?]
  | case2 => rfl
  | case3 seen n c t hle ih => rw [dropBytes?, if_pos hle, ih]
  | case4 seen n c t hgt => rw [dropBytes?, if_neg hgt, Option.map_none]

theorem dropBytes?_eq_map (n : Nat) (t : Text) : dropBytes? n t = (splitBytes? n t).map Prod.snd :=
  dropBytes?_eq_map_cutBytes? [] n t

/-- A text has no first `n` bytes where nothing can be left behind them. -/
theorem takeBytes?_eq_none_iff {n : Nat} {t : Text} :
    takeBytes? n t = none ↔ dropBytes? n t = none := by
  rw [takeBytes?_eq_map, dropBytes?_eq_map, Option.map_eq_none_iff, Option.map_eq_none_iff]

/-- Cut a text in front of the first occurrence of a word. `seen` holds what was passed before, last
character first. -/
def cutFirst? (word seen : Text) : Text → Option (Text × Text)
  | [] => if word.isPrefixOf [] then some (seen.reverse, []) else none
  | c :: t =>
    if word.isPrefixOf (c :: t) then some (seen.reverse, c :: t) else cutFirst? word (c :: seen) t

/-- The parts of a text in front of the first occurrence of a word and from there on. -/
def splitFirst? (word t : Text) : Option (Text × Text) := cutFirst? word [] t

/-- `s` is what a first occurrence of the word leaves in front of it in `t`. -/
def IsBeforeFirst (word s rest t : Text) : Prop :=
  t = s ++ rest ∧ word <+: rest ∧
    ∀ s' rest' : Text, t = s' ++ rest' → word <+: rest' → s.length ≤ s'.length

theorem isBeforeFirst_nil {word t : Text} (h : word <+: t) : IsBeforeFirst word [] t t :=
  ⟨rfl, h, fun _ _ _ _ => Nat.zero_le _⟩

theorem IsBeforeFirst.cons {word s rest t : Text} {c : Char} (h : ¬ word <+: c :: t)
    (hs : IsBeforeFirst word s rest t) : IsBeforeFirst word (c :: s) rest (c :: t) := by
  obtain ⟨ht, hw, hmin⟩ := hs
  refine ⟨by simp [ht], hw, fun s' rest' hs' hw' => ?_⟩
  cases s' with
  | nil => exact absurd (by simpa [hs'] using hw') h
  | cons d s' =>
    rw [List.cons_append] at hs'
    exact Nat.succ_le_succ (hmin s' rest' (List.cons.inj hs').2 hw')

theorem isBeforeFirst_of_cutFirst? {word seen t front rest : Text}
    (h : cutFirst? word seen t = some (front, rest)) :
    ∃ s, front = seen.reverse ++ s ∧ IsBeforeFirst word s rest t := by
  fun_induction cutFirst? word seen t with
  | case1 seen hw =>
    obtain ⟨rfl, rfl⟩ := Prod.mk.inj (Option.some.inj h)
    exact ⟨[], by simp, isBeforeFirst_nil (List.isPrefixOf_iff_prefix.mp hw)⟩
  | case2 => simp at h
  | case3 seen c t hw =>
    obtain ⟨rfl, rfl⟩ := Prod.mk.inj (Option.some.inj h)
    exact ⟨[], by simp, isBeforeFirst_nil (List.isPrefixOf_iff_prefix.mp hw)⟩
  | case4 seen c t hw ih =>
    obtain ⟨s, rfl, hs⟩ := ih h
    exact ⟨c :: s, by simp, hs.cons fun h => hw (List.isPrefixOf_iff_prefix.mpr h)⟩

theorem splitFirst?_eq_some {word t s rest : Text} (h : splitFirst? word t = some (s, rest)) :
    IsBeforeFirst word s rest t := by
  obtain ⟨s', rfl, hs⟩ := isBeforeFirst_of_cutFirst? h
  exact hs

/-- The search fails only where the word occurs nowhere. -/
theorem not_prefix_of_cutFirst?_eq_none {word seen t s rest : Text}
    (h : cutFirst? word seen t = none) (ht : t = s ++ rest) : ¬ word <+: rest := by
  fun_induction cutFirst? word seen t generalizing s with
  | case1 => simp at h
  | case2 seen hw =>
    obtain ⟨rfl, rfl⟩ := List.append_eq_nil_iff.mp ht.symm
    exact fun h => hw (List.isPrefixOf_iff_prefix.mpr h)
  | case3 => simp at h
  | case4 seen c t hw ih =>
    cases s with
    | nil =>
      rw [List.nil_append] at ht
      exact fun h => hw (List.isPrefixOf_iff_prefix.mpr (ht ▸ h))
    | cons d s => exact ih h (List.cons.inj ht).2

/-- Take a text character by character, as long as `next` has a state to go on in. `seen` holds what
was taken before, last character first. -/
def scanFrom {σ : Type} (next : σ → Char → Option σ) (state : σ) (seen : Text) :
    Text → Text × Text
  | [] => (seen.reverse, [])
  | c :: t =>
    match next state c with
    | some state => scanFrom next state (c :: seen) t
    | none => (seen.reverse, c :: t)

/-- The longest beginning of a text that is taken character by character, and what is left. -/
def scan {σ : Type} (next : σ → Char → Option σ) (start : σ) (t : Text) : Text × Text :=
  scanFrom next start [] t

/-- A step that decides about each character by itself. -/
def passIf (p : Char → Bool) (_ : Unit) (c : Char) : Option Unit := if p c then some () else none

/-- A step that knows what was taken before, last character first. -/
def passIfSeen (p : Text → Char → Bool) (seen : Text) (c : Char) : Option Text :=
  if p seen c then some (c :: seen) else none

section
variable {σ : Type} {next : σ → Char → Option σ} {start state last : σ}

theorem append_of_scanFrom {seen t front rest : Text}
    (h : scanFrom next state seen t = (front, rest)) :
    ∃ s last, front = seen.reverse ++ s ∧ t = s ++ rest ∧ s.foldlM next state = some last ∧
      ∀ c ∈ rest.head?, next last c = none := by
  fun_induction scanFrom next state seen t with
  | case1 state seen =>
    obtain ⟨rfl, rfl⟩ := Prod.mk.inj h
    exact ⟨[], state, by simp, rfl, rfl, by simp⟩
  | case2 state seen c t state' hc ih =>
    obtain ⟨s, last, rfl, rfl, hs, hrest⟩ := ih h
    exact ⟨c :: s, last, by simp, rfl, by simp [hc, hs], hrest⟩
  | case3 state seen c t hc =>
    obtain ⟨rfl, rfl⟩ := Prod.mk.inj h
    exact ⟨[], state, by simp, rfl, rfl, by simpa using hc⟩

theorem scanFrom_append {s rest : Text} (seen : Text) (hs : s.foldlM next state = some last)
    (hrest : ∀ c ∈ rest.head?, next last c = none) :
    scanFrom next state seen (s ++ rest) = (seen.reverse ++ s, rest) := by
  induction s generalizing state seen with
  | nil =>
    obtain rfl : state = last := by simpa using hs
    cases rest with
    | nil => simp [scanFrom]
    | cons c rest => simp [scanFrom, hrest c rfl]
  | cons c s ih =>
    rw [List.foldlM_cons] at hs
    obtain ⟨state', hc, hs⟩ := Option.bind_eq_some_iff.mp hs
    simp [scanFrom, hc, ih (c :: seen) hs]

/-- A scan takes what runs through the states, up to a character that no state follows. -/
theorem scan_eq_iff {t s rest : Text} : scan next start t = (s, rest) ↔
    t = s ++ rest ∧ ∃ last, s.foldlM next start = some last ∧
      ∀ c ∈ rest.head?, next last c = none := by
  constructor
  · intro h
    obtain ⟨s, last, rfl, ht, hs, hrest⟩ := append_of_scanFrom h
    exact ⟨ht, last, hs, hrest⟩
  · rintro ⟨rfl, last, hs, hrest⟩
    exact scanFrom_append [] hs hrest

theorem foldlM_reverse_cons {seen : Text} (hseen : seen.reverse.foldlM next start = some state)
    (c : Char) : (c :: seen).reverse.foldlM next start = next state c := by
  rw [List.reverse_cons, List.foldlM_append, hseen]
  simp

/-- Whether a text runs through the states can be said of what was taken of it before. -/
theorem foldlM_passIfSeen {seen s : Text} (hseen : seen.reverse.foldlM next start = some state)
    (hs : s.foldlM next state = some last) :
    s.foldlM (passIfSeen fun seen c => ((c :: seen).reverse.foldlM next start).isSome) seen =
      some (s.reverse ++ seen) := by
  induction s generalizing state seen with
  | nil => rfl
  | cons c s ih =>
    rw [List.foldlM_cons] at hs
    obtain ⟨state', hc, hs⟩ := Option.bind_eq_some_iff.mp hs
    have hnext := (foldlM_reverse_cons hseen c).trans hc
    rw [List.foldlM_cons, passIfSeen, hnext]
    simpa using ih hnext hs

/-- What was taken before is all that a step with a state can know. -/
theorem scan_eq_scan_passIfSeen (next : σ → Char → Option σ) (start : σ) (t : Text) :
    scan next start t =
      scan (passIfSeen fun seen c => ((c :: seen).reverse.foldlM next start).isSome) [] t := by
  obtain ⟨ht, last, hs, hrest⟩ := scan_eq_iff.mp (Prod.eta (scan next start t)).symm
  refine (scan_eq_iff.mpr ⟨ht, _, foldlM_passIfSeen rfl hs, fun c hc => ?_⟩).symm
  have hlast : (scan next start t).1.reverse.reverse.foldlM next start = some last := by
    rw [List.reverse_reverse, hs]
  rw [List.append_nil, passIfSeen, foldlM_reverse_cons hlast, hrest c hc]
  simp

end

/-- Whether the code point of a character lies in one of the ranges. -/
def inRanges (ranges : List (Nat × Nat)) (c : Char) : Bool :=
  ranges.any fun range => range.1 ≤ c.toNat && c.toNat ≤ range.2

/-- The lines of a text: the pieces between its newlines, at least one. -/
def lines (t : Text) : List Text := t.splitOn '\n'

/-- What stands after the last newline. -/
def lastLine (t : Text) : Text := (t.reverse.takeWhile (· != '\n')).reverse

end Text
end TextParsing
