import TextParsing.Proofs.Closures
import TextParsing.Proofs.Expansion
import TextParsing.Session

/-! The cursors of a session. Every step keeps all of them valid, the current one and the saved ones,
so that no session asks for a slice that is out of range or begins inside a character. -/
namespace TextParsing

namespace Text
variable {p : Char → Bool} {t : Text}

lemma foldlM_passIfSeen_of_forall (h : ∀ ch ∈ t, p ch = true) (seen : Text) :
    t.foldlM (passIfSeen fun _ => p) seen = some (t.reverse ++ seen) := by
  induction t generalizing seen with
  | nil => rfl
  | cons ch t ih =>
    obtain ⟨hch, ht⟩ := List.forall_mem_cons.mp h
    rw [List.foldlM_cons, passIfSeen, if_pos hch]
    simpa using ih ht (ch :: seen)

/-- To know what was taken before is of no use where each character is decided about by itself. -/
lemma scan_passIfSeen_const (p : Char → Bool) (t : Text) :
    t.scan (passIfSeen fun _ => p) [] = t.scan (passIf p) () := by
  obtain ⟨ht, last, hs, hrest⟩ := scan_eq_iff.mp (Prod.eta (t.scan (passIf p) ())).symm
  refine scan_eq_iff.mpr ⟨ht, _, foldlM_passIfSeen_of_forall (foldlM_passIf.mp hs) [], ?_⟩
  intro ch hch
  have hout : p ch = false := by
    rw [← isSome_passIf p last, hrest ch hch, Option.isSome_none]
  simp [passIfSeen, hout]

end Text

namespace Session

/-- The current cursor and the saved ones. -/
def cursors (s : Session) : List Cursor := s.current :: s.saved.map Prod.snd

/-- All cursors of a session are valid. -/
def Valid (s : Session) : Prop := ∀ c ∈ s.cursors, c.Valid

lemma valid_ofText (t : Text) : (ofText t).Valid := by
  intro c hc
  rw [List.mem_singleton.mp hc]
  exact Cursor.valid_ofText t

lemma Valid.current {s : Session} (h : s.Valid) : s.current.Valid := h _ (List.mem_cons_self ..)

/-- Another current cursor does not touch the saved ones. -/
lemma Valid.move {s : Session} (h : s.Valid) {c : Cursor} (hc : c.Valid) :
    Valid { s with current := c } := by
  intro d hd
  rcases List.mem_cons.mp hd with rfl | hd
  · exact hc
  · exact h d (List.mem_cons_of_mem _ hd)

lemma Valid.save {s : Session} (h : s.Valid) (register : String) :
    Valid { s with saved := (register, s.current) :: s.saved } := by
  intro d hd
  rcases List.mem_cons.mp hd with rfl | hd
  · exact h.current
  · exact h d hd

lemma mem_cursors_of_load {s : Session} {register : String} {c : Cursor}
    (h : s.load register = .ok c) : c ∈ s.cursors := by
  unfold load at h
  cases hl : s.saved.lookup register with
  | none => simp [hl] at h
  | some d =>
    rw [hl] at h
    cases h
    obtain ⟨front, back, hs, -⟩ := List.lookup_eq_some_iff.mp hl
    exact List.mem_cons_of_mem _ (List.mem_map.mpr ⟨(register, c), by simp [hs], rfl⟩)

variable {defs : Definitions}

/-- The scans of a session are those of conditions with a state of any kind. -/
theorem step_scan {σ : Type} (s : Session) (next : σ → Char → Option σ) (start : σ) :
    s.step defs (.scan fun seen ch => ((ch :: seen).reverse.foldlM next start).isSome) =
      .ok (.text (s.current.scan next start).1,
        { s with current := (s.current.scan next start).2 }) := by
  simp only [Session.step, Cursor.scan, ← Text.scan_eq_scan_passIfSeen]

/-- Those that decide about each character by itself take the runs of a class of characters. -/
theorem step_takeWhile (s : Session) (p : Char → Bool) :
    s.step defs (.takeWhile p) =
      .ok (.text (s.current.takeWhile p).1, { s with current := (s.current.takeWhile p).2 }) := by
  simp only [Step.takeWhile, Session.step, Cursor.takeWhile, Cursor.scan, Text.scan_passIfSeen_const]

/-- A step leaves the session as it is, saves the current cursor, or moves it to a valid place. -/
lemma step_cases (hdefs : defs.EveryCustom Parser.StaysValid) {step : Step}
    (hstep : ∀ g, step = .parse g → g.EveryCustom Parser.StaysValid) {s next : Session}
    {answer : Answer} (hs : s.Valid) (h : s.step defs step = .ok (answer, next)) :
    next = s ∨ (∃ register, next = { s with saved := (register, s.current) :: s.saved }) ∨
      ∃ c, c.Valid ∧ next = { s with current := c } := by
  cases step with
  | restart t =>
    cases h
    exact .inr (.inr ⟨_, Cursor.valid_ofText t, rfl⟩)
  | save register =>
    cases h
    exact .inr (.inl ⟨register, rfl⟩)
  | load register =>
    cases hl : s.load register with
    | error e => simp [Session.step, hl, bind, Except.bind] at h
    | ok c =>
      simp only [Session.step, hl, bind, Except.bind] at h
      cases h
      exact .inr (.inr ⟨c, hs c (mem_cursors_of_load hl), rfl⟩)
  | next =>
    cases h
    exact .inr (.inr ⟨_, Cursor.valid_next hs.current, rfl⟩)
  | advance n =>
    simp only [Session.step] at h
    cases hn : s.current.advance? n with
    | none =>
      rw [hn] at h
      cases h
      exact .inl rfl
    | some c =>
      rw [hn] at h
      cases h
      obtain ⟨t, ht, -⟩ := Cursor.advance?_eq_some_iff.mp hn
      exact .inr (.inr ⟨c, ht.valid hs.current, rfl⟩)
  | scan p =>
    cases h
    exact .inr (.inr ⟨_, (s.current.passes_scan (Text.passIfSeen p) []).valid hs.current, rfl⟩)
  | textUntil register | textSince register =>
    simp only [Session.step, bind, Except.bind] at h
    split at h
    · cases h
    · split at h
      · cases h
      · cases h
        exact .inl rfl
  | isSameAs register =>
    simp only [Session.step, bind, Except.bind] at h
    split at h
    · cases h
    · cases h
      exact .inl rfl
  | parse g =>
    simp only [Session.step] at h
    split at h
    case h_1 v c hp =>
      cases h
      have hc := Grammar.parser_staysValid hdefs (hstep g rfl) hs.current hp
      exact .inr (.inr ⟨c, hc.1, rfl⟩)
    case h_2 =>
      cases h
      exact .inl rfl
    case h_3 => cases h
  | peek | atEnd | rest | source | place | startsWith | display | displayLines =>
    cases h
    exact .inl rfl

/-- A step keeps all cursors valid. -/
theorem step_valid (hdefs : defs.EveryCustom Parser.StaysValid) {step : Step}
    (hstep : ∀ g, step = .parse g → g.EveryCustom Parser.StaysValid) {s next : Session}
    {answer : Answer} (hs : s.Valid) (h : s.step defs step = .ok (answer, next)) :
    next.Valid := by
  obtain rfl | ⟨register, rfl⟩ | ⟨c, hc, rfl⟩ := step_cases hdefs hstep hs h
  · exact hs
  · exact hs.save register
  · exact hs.move hc

/-- So does a run of any length. -/
theorem run_valid (hdefs : defs.EveryCustom Parser.StaysValid) {steps : List Step}
    (hsteps : ∀ g, Step.parse g ∈ steps → g.EveryCustom Parser.StaysValid) {s last : Session}
    {answers : List (Answer × Nat)} (hs : s.Valid) (h : s.run defs steps = .ok (answers, last)) :
    last.Valid := by
  induction steps generalizing s answers with
  | nil =>
    cases h
    exact hs
  | cons step steps ih =>
    cases hstep : s.step defs step with
    | error e => simp [Session.run, hstep, bind, Except.bind] at h
    | ok result =>
      obtain ⟨answer, next⟩ := result
      cases hrun : next.run defs steps with
      | error e => simp [Session.run, hstep, hrun, bind, Except.bind] at h
      | ok rest =>
        obtain ⟨answers', last'⟩ := rest
        simp only [Session.run, hstep, hrun, bind, Except.bind] at h
        cases h
        have hnext := step_valid hdefs
          (fun g hg => hsteps g (hg ▸ List.mem_cons_self ..)) hs hstep
        exact ih (fun g hg => hsteps g (List.mem_cons_of_mem _ hg)) hnext hrun

/-- In every state that a session reaches each cursor stands on a boundary of its source and holds
the slice from there on, so that all ways to ask for the end agree. The text between two cursors over
one source is the slice between them, and a parse goes on in the source that it began in. -/
theorem cursors_on_boundaries (hdefs : defs.EveryCustom Parser.StaysValid) {steps : List Step}
    (hsteps : ∀ g, Step.parse g ∈ steps → g.EveryCustom Parser.StaysValid) {t : Text}
    {answers : List (Answer × Nat)} {last : Session}
    (h : (ofText t).run defs steps = .ok (answers, last)) :
    (∀ c ∈ last.cursors,
      c.position ≤ c.source.byteLength ∧ c.source.IsBoundary c.position ∧
      (∃ passed, c.source.splitBytes? c.position = some (passed, c.rest)) ∧
      c.position + c.rest.byteLength = c.source.byteLength ∧
      (c.atEnd = true ↔ c.rest = []) ∧ (c.peek? = none ↔ c.rest = []) ∧
      (c.next = c ↔ c.rest = [])) ∧
    (∀ c ∈ last.cursors, ∀ d ∈ last.cursors, c.source = d.source →
      ∃ passed between rest : Text, c.textUntil? d = some between ∧
        c.source = passed ++ between ++ rest ∧ passed.byteLength = c.position ∧
        (passed ++ between).byteLength = max d.position c.position) ∧
    ∀ c ∈ last.cursors, ∀ g : Grammar, g.EveryCustom Parser.StaysValid →
      ∀ v d, g.parser defs c = .success v d → d.source = c.source ∧ d.Valid := by
  have hvalid := run_valid hdefs hsteps (valid_ofText t) h
  refine ⟨fun c hc => ?_, fun c hc d hd hs => ?_, fun c hc g hg v d hp => ?_⟩
  · have hc := hvalid c hc
    exact ⟨hc.isBoundary.le_byteLength, hc.isBoundary, Cursor.valid_iff_splitBytes?.mp hc,
      hc.position_add_byteLength_rest, hc.atEnd_iff, Cursor.peek?_eq_none_iff,
      Cursor.next_eq_self_iff⟩
  · exact (hvalid c hc).textUntil?_eq_some (hvalid d hd) hs
  · have hd := Grammar.parser_staysValid hdefs hg (hvalid c hc) hp
    exact ⟨hd.2, hd.1⟩

/-- Bytes in parentheses are read behind a first character, and places in front of them, between
them and behind them are compared. -/
def nestedSteps : List Step :=
  [.save "start", .next, .parse (.ref "nested"), .textSince "start", .parse (.seek 3),
    .save "inside", .load "start", .textUntil "inside", .advance 2]

theorem cursors_on_boundaries_nestedSteps :
    ∃ answers last, (ofText ['é', '(', '(', '2', 'a', 'é', ')', ')']).run
        Grammar.nestedBytes nestedSteps = .ok (answers, last) ∧
      last.current.position = 2 ∧ ∀ c ∈ last.cursors, c.source.IsBoundary c.position := by
  have hdefs := Grammar.readsRest_nestedBytes.imp fun _ h => h.staysValid
  have hsteps : ∀ g, Step.parse g ∈ nestedSteps → g.EveryCustom Parser.StaysValid := by
    intro g hg
    simp only [nestedSteps, List.mem_cons, List.not_mem_nil, Step.parse.injEq, reduceCtorEq,
      false_or, or_false] at hg
    rcases hg with rfl | rfl
    · trivial
    · exact Grammar.staysValid_closures 3 _ (by simp)
  obtain ⟨⟨answers, last⟩, h, hp⟩ : ∃ r, (ofText ['é', '(', '(', '2', 'a', 'é', ')', ')']).run
      Grammar.nestedBytes nestedSteps = .ok r ∧ r.2.current.position = 2 := ⟨_, rfl, rfl⟩
  exact ⟨answers, last, h, hp, fun c hc => ((cursors_on_boundaries hdefs hsteps h).1 c hc).2.1⟩

end Session
end TextParsing
