import Mathlib.Data.List.DropRight
import Mathlib.Data.List.TakeWhile
import AudioEngine.Lib.PyStr

/-!
# AudioEngine.Lib.Lines

Facts about `strip` and `splitlines` over a lawful `Charset`, and the maximal runs of a list
between separators.

* `runs_append_sep`: a separator cuts the runs of a list in two; the other lemmas about `runs`
  follow from it.
* `splitlines_blank_line`: a blank line between two texts cuts their lines in two, whatever the
  first text ends with.
* `splitlines_join`: joining lines with LF and splitting again gives the lines back.
* `Paragraph.strip_join`: stripping a joined paragraph touches its first and its last line only.
-/

namespace PyStr

/-! ## Runs -/

variable {α : Type}

/-- The maximal runs of elements that are no separators, in order. -/
def runs (sep : α → Bool) (l : List α) : List (List α) := (l.splitOnP sep).filter (!·.isEmpty)

variable {sep : α → Bool}

@[simp] theorem runs_nil : runs sep ([] : List α) = [] := by
  simp [runs]

theorem runs_append_sep {s : α} (hs : sep s = true) (xs ys : List α) :
    runs sep (xs ++ s :: ys) = runs sep xs ++ runs sep ys := by
  rw [runs, List.splitOnP_append_cons xs ys hs, List.filter_append]
  rfl

theorem runs_append_seps {mid : List α} (hne : mid ≠ []) (hmid : ∀ s ∈ mid, sep s = true)
    (xs ys : List α) : runs sep (xs ++ mid ++ ys) = runs sep xs ++ runs sep ys := by
  induction mid generalizing xs with
  | nil => exact absurd rfl hne
  | cons s rest ih =>
    have hs := hmid s (by simp)
    rw [List.append_assoc, List.cons_append, runs_append_sep hs]
    cases rest with
    | nil => rfl
    | cons t rest =>
      have hrest := ih (by simp) (fun u hu => hmid u (by simp [hu])) []
      rw [runs_nil, List.nil_append, List.nil_append] at hrest
      rw [hrest]

theorem runs_eq_singleton {l : List α} (hne : l ≠ []) (hl : ∀ x ∈ l, sep x = false) :
    runs sep l = [l] := by
  have hemp : l.isEmpty = false := by simpa using hne
  simp [runs, List.splitOnP_eq_singleton hl, hemp]

/-- Induction along the separators: lists without one, then two lists around one. -/
theorem sep_induction (sep : α → Bool) {motive : List α → Prop}
    (clear : ∀ l, (∀ x ∈ l, sep x = false) → motive l)
    (cut : ∀ xs s ys, sep s = true → motive xs → motive ys → motive (xs ++ s :: ys)) :
    ∀ l, motive l := by
  intro l
  induction hn : l.length using Nat.strong_induction_on generalizing l with
  | _ n ih =>
    subst hn
    by_cases hall : ∀ x ∈ l, sep x = false
    · exact clear l hall
    · simp only [not_forall, Bool.not_eq_false] at hall
      obtain ⟨s, hmem, hs⟩ := hall
      obtain ⟨xs, ys, rfl⟩ := List.append_of_mem hmem
      exact cut xs s ys hs (ih xs.length (by simp) xs rfl) (ih ys.length (by simp; omega) ys rfl)

/-- Every run is a non-empty list of elements that are no separators. -/
theorem mem_runs {l run : List α} (h : run ∈ runs sep l) :
    run ≠ [] ∧ ∀ x ∈ run, x ∈ l ∧ sep x = false := by
  induction l using sep_induction sep with
  | clear l hl =>
    by_cases hne : l = []
    · subst hne
      simp at h
    · rw [runs_eq_singleton hne hl, List.mem_singleton] at h
      subst h
      exact ⟨hne, fun x hx => ⟨hx, hl x hx⟩⟩
  | cut xs s ys hs ihx ihy =>
    rw [runs_append_sep hs, List.mem_append] at h
    rcases h with h | h
    · obtain ⟨hne, hrun⟩ := ihx h
      exact ⟨hne, fun x hx => ⟨by simp [(hrun x hx).1], (hrun x hx).2⟩⟩
    · obtain ⟨hne, hrun⟩ := ihy h
      exact ⟨hne, fun x hx => ⟨by simp [(hrun x hx).1], (hrun x hx).2⟩⟩

/-- The runs together hold every element that is no separator, in order. -/
theorem flatten_runs (sep : α → Bool) (l : List α) :
    (runs sep l).flatten = l.filter (!sep ·) := by
  induction l using sep_induction sep with
  | clear l hl =>
    by_cases hne : l = []
    · simp [hne]
    · rw [runs_eq_singleton hne hl, List.flatten_singleton, eq_comm, List.filter_eq_self]
      intro x hx
      simp [hl x hx]
  | cut xs s ys hs ihx ihy =>
    rw [runs_append_sep hs, List.flatten_append, ihx, ihy]
    simp [hs]

/-! ## Lawful character classes -/

/-- What the interpreter promises of its classes: LF ends a line, and whatever ends a line is
whitespace. -/
structure Charset.Lawful (cs : Charset) : Prop where
  newline : cs.isLineBreak '\n' = true
  space_of_break : ∀ c, cs.isLineBreak c = true → cs.isSpace c = true

theorem python_lawful : python.Lawful where
  newline := by decide
  space_of_break c h := by
    simp only [python, Bool.or_eq_true, decide_eq_true_eq, beq_iff_eq] at h ⊢
    omega

variable {cs : Charset}

/-! ## `strip` -/

/-- `not line.strip()`. -/
def blank (cs : Charset) (line : List Char) : Bool := (strip cs line).isEmpty

theorem strip_eq (cs : Charset) (s : List Char) :
    strip cs s = (s.dropWhile cs.isSpace).rdropWhile cs.isSpace := rfl

theorem strip_eq_nil_iff {s : List Char} : strip cs s = [] ↔ ∀ c ∈ s, cs.isSpace c = true := by
  rw [strip_eq, List.rdropWhile_eq_nil_iff]
  constructor
  · intro h c hc
    rw [← List.takeWhile_append_dropWhile (p := cs.isSpace) (l := s), List.mem_append] at hc
    rcases hc with hc | hc
    · exact List.mem_takeWhile_imp hc
    · exact h c hc
  · intro h c hc
    exact h c (List.dropWhile_sublist cs.isSpace |>.mem hc)

theorem blank_iff {line : List Char} : blank cs line = true ↔ ∀ c ∈ line, cs.isSpace c = true := by
  rw [blank, List.isEmpty_iff, strip_eq_nil_iff]

theorem not_blank_iff {line : List Char} :
    blank cs line = false ↔ ∃ c ∈ line, cs.isSpace c = false := by
  rw [← Bool.not_eq_true, blank_iff]
  simp

/-- Stripping loses whitespace only. -/
theorem filter_strip (cs : Charset) (s : List Char) :
    (strip cs s).filter (!cs.isSpace ·) = s.filter (!cs.isSpace ·) := by
  have hdrop : ∀ l : List Char,
      (l.dropWhile cs.isSpace).filter (!cs.isSpace ·) = l.filter (!cs.isSpace ·) := by
    intro l
    have htake : (l.takeWhile cs.isSpace).filter (!cs.isSpace ·) = [] := by
      rw [List.filter_eq_nil_iff]
      intro c hc
      simp [List.mem_takeWhile_imp hc]
    conv_rhs => rw [← List.takeWhile_append_dropWhile (p := cs.isSpace) (l := l),
      List.filter_append, htake, List.nil_append]
  rw [strip, List.filter_reverse, hdrop, List.filter_reverse, hdrop, List.reverse_reverse]

theorem dropWhile_rdropWhile {s : List Char} (h : s.dropWhile cs.isSpace = s) :
    (s.rdropWhile cs.isSpace).dropWhile cs.isSpace = s.rdropWhile cs.isSpace := by
  rw [List.dropWhile_eq_self_iff] at h ⊢
  intro hlen
  have hpre := List.rdropWhile_prefix cs.isSpace (l := s)
  rw [hpre.getElem hlen]
  exact h (Nat.lt_of_lt_of_le hlen hpre.length_le)

theorem strip_strip (cs : Charset) (s : List Char) : strip cs (strip cs s) = strip cs s := by
  have hleft := @dropWhile_rdropWhile cs _ (List.dropWhile_idempotent (p := cs.isSpace) s)
  rw [strip_eq, strip_eq, hleft, List.rdropWhile_idempotent]

/-! ## `splitlines` -/

/-- A line with no line break inside. -/
def Unbroken (cs : Charset) (line : List Char) : Prop := ∀ c ∈ line, cs.isLineBreak c = false

theorem splitlinesAux_unbroken {cr : Bool} {cur s line : List Char} (hcur : Unbroken cs cur)
    (h : line ∈ splitlinesAux cs cr cur s) : Unbroken cs line := by
  induction s generalizing cr cur with
  | nil =>
    simp only [splitlinesAux] at h
    split at h
    · simp at h
    · rw [List.mem_singleton] at h
      subst h
      intro c hc
      exact hcur c (List.mem_reverse.mp hc)
  | cons c rest ih =>
    simp only [splitlinesAux] at h
    split at h
    · exact ih hcur h
    split at h
    · rcases List.mem_cons.mp h with rfl | h
      · intro d hd
        exact hcur d (List.mem_reverse.mp hd)
      · exact ih (by simp [Unbroken]) h
    · rename_i hc
      refine ih ?_ h
      intro d hd
      rcases List.mem_cons.mp hd with rfl | hd
      · simpa using hc
      · exact hcur d hd

theorem splitlines_unbroken {s line : List Char} (h : line ∈ splitlines cs s) :
    Unbroken cs line :=
  splitlinesAux_unbroken (by simp [Unbroken]) h

/-- Splitting into lines loses whitespace only. -/
theorem filter_splitlinesAux (hcs : cs.Lawful) (cr : Bool) (cur s : List Char) :
    (splitlinesAux cs cr cur s).flatten.filter (!cs.isSpace ·) =
      (cur.reverse ++ s).filter (!cs.isSpace ·) := by
  induction s generalizing cr cur with
  | nil =>
    simp only [splitlinesAux]
    split
    · rename_i h
      rw [List.isEmpty_iff.mp h]
      rfl
    · simp
  | cons c rest ih =>
    simp only [splitlinesAux]
    split
    · rename_i h
      have hc : c = '\n' := by simp at h; exact h.2
      rw [ih, List.filter_append, List.filter_append, List.filter_cons_of_neg]
      simp [hc, hcs.space_of_break _ hcs.newline]
    split
    · rename_i hb
      rw [List.flatten_cons, List.filter_append, ih, @List.filter_append _ _ cur.reverse,
        List.filter_cons_of_neg (by simp [hcs.space_of_break c hb])]
      rfl
    · rw [ih]
      simp

theorem filter_splitlines (hcs : cs.Lawful) (s : List Char) :
    (splitlines cs s).flatten.filter (!cs.isSpace ·) = s.filter (!cs.isSpace ·) :=
  filter_splitlinesAux hcs false [] s

/-- The loop at a blank line. A CR just before it, with nothing collected since, takes the first
LF into its own boundary; otherwise that LF ends the line being collected. -/
theorem splitlinesAux_blank_line (hcs : cs.Lawful) {cr : Bool} {cur : List Char}
    (hcr : cr = true → cur = []) (a b : List Char) :
    ∃ mid : List (List Char), mid ≠ [] ∧ (∀ line ∈ mid, line = []) ∧
      splitlinesAux cs cr cur (a ++ '\n' :: '\n' :: b) =
        splitlinesAux cs cr cur a ++ mid ++ splitlines cs b := by
  induction a generalizing cr cur with
  | nil =>
    cases cr with
    | true =>
      refine ⟨[[]], by simp, by simp, ?_⟩
      simp [splitlinesAux, splitlines, hcr rfl, hcs.newline]
    | false =>
      cases cur with
      | nil => exact ⟨[[], []], by simp, by simp, by simp [splitlinesAux, splitlines, hcs.newline]⟩
      | cons d cur =>
        exact ⟨[[]], by simp, by simp, by simp [splitlinesAux, splitlines, hcs.newline]⟩
  | cons c a ih =>
    simp only [List.cons_append, splitlinesAux]
    split
    · exact ih (by simp)
    split
    · obtain ⟨mid, hne, hmid, heq⟩ := @ih (c == '\r') [] (fun _ => rfl)
      exact ⟨mid, hne, hmid, by rw [heq]; simp⟩
    · exact ih (by simp)

theorem splitlines_blank_line (hcs : cs.Lawful) (a b : List Char) :
    ∃ mid : List (List Char), mid ≠ [] ∧ (∀ line ∈ mid, line = []) ∧
      splitlines cs (a ++ '\n' :: '\n' :: b) = splitlines cs a ++ mid ++ splitlines cs b :=
  splitlinesAux_blank_line hcs (fun h => absurd h (by simp)) a b

/-- The loop collects an unbroken stretch into the current line. -/
theorem splitlinesAux_append {line : List Char} (hline : Unbroken cs line) (cur rest : List Char) :
    splitlinesAux cs false cur (line ++ rest) =
      splitlinesAux cs false (line.reverse ++ cur) rest := by
  induction line generalizing cur with
  | nil => rfl
  | cons c line ih =>
    have hc := hline c (by simp)
    rw [List.cons_append, splitlinesAux, if_neg (by simp), if_neg (by simp [hc]),
      ih (fun d hd => hline d (by simp [hd]))]
    simp

/-- `"\n".join(lines)`. -/
abbrev joinLines (lines : List (List Char)) : List Char := ['\n'].intercalate lines

theorem splitlines_join (hcs : cs.Lawful) {lines : List (List Char)}
    (hlines : ∀ line ∈ lines, line ≠ [] ∧ Unbroken cs line) :
    splitlines cs (joinLines lines) = lines := by
  induction lines with
  | nil => rfl
  | cons line rest ih =>
    obtain ⟨hne, hun⟩ := hlines line (by simp)
    cases rest with
    | nil =>
      have h := splitlinesAux_append hun [] []
      rw [List.append_nil, List.append_nil] at h
      rw [joinLines, List.intercalate_singleton, splitlines, h, splitlinesAux]
      simp [hne]
    | cons next rest =>
      have hrest := ih fun l hl => hlines l (by simp [hl])
      rw [joinLines, List.intercalate_cons_cons, List.append_assoc, splitlines,
        splitlinesAux_append hun, List.singleton_append, splitlinesAux, if_neg (by simp),
        if_pos hcs.newline, List.append_nil, List.reverse_reverse]
      exact congrArg (line :: ·) hrest

/-! ## Paragraphs -/

/-- A non-empty list of unbroken lines, none of them blank. -/
structure Paragraph (cs : Charset) (lines : List (List Char)) : Prop where
  nonempty : lines ≠ []
  unbroken : ∀ line ∈ lines, Unbroken cs line
  solid : ∀ line ∈ lines, blank cs line = false

theorem Paragraph.ne_nil {lines : List (List Char)} (h : Paragraph cs lines) :
    ∀ line ∈ lines, line ≠ [] := by
  rintro line hl rfl
  have := h.solid [] hl
  simp [blank, strip] at this

theorem Paragraph.splitlines_join {lines : List (List Char)} (hcs : cs.Lawful)
    (h : Paragraph cs lines) : splitlines cs (joinLines lines) = lines :=
  PyStr.splitlines_join hcs fun line hl => ⟨h.ne_nil line hl, h.unbroken line hl⟩

theorem joinLines_cons (rest : List (List Char)) :
    ∃ post, ∀ first, joinLines (first :: rest) = first ++ post := by
  cases rest with
  | nil => exact ⟨[], fun first => by simp⟩
  | cons next rest =>
    exact ⟨'\n' :: joinLines (next :: rest), fun first => by simp [List.intercalate_cons_cons]⟩

theorem joinLines_concat (front : List (List Char)) :
    ∃ pre, ∀ last, joinLines (front ++ [last]) = pre ++ last := by
  induction front with
  | nil => exact ⟨[], fun last => by simp⟩
  | cons line front ih =>
    obtain ⟨pre, hpre⟩ := ih
    refine ⟨line ++ '\n' :: pre, fun last => ?_⟩
    rw [List.cons_append, joinLines, List.intercalate_cons_of_ne_nil (by simp)]
    simp [hpre last]

/-- Whitespace at the start of a paragraph is whitespace at the start of its first line. -/
theorem Paragraph.dropWhile {lines : List (List Char)} (h : Paragraph cs lines) :
    ∃ lines', Paragraph cs lines' ∧ (joinLines lines).dropWhile cs.isSpace = joinLines lines' := by
  obtain ⟨first, rest, rfl⟩ := List.exists_cons_of_ne_nil h.nonempty
  obtain ⟨post, hpost⟩ := joinLines_cons rest
  obtain ⟨c, hc, hsp⟩ := not_blank_iff.mp (h.solid first (by simp))
  have hkeep : c ∈ first.dropWhile cs.isSpace := by
    rw [← List.takeWhile_append_dropWhile (p := cs.isSpace) (l := first), List.mem_append] at hc
    rcases hc with hc | hc
    · simp [List.mem_takeWhile_imp hc] at hsp
    · exact hc
  refine ⟨first.dropWhile cs.isSpace :: rest, ⟨by simp, ?_, ?_⟩, ?_⟩
  · intro l hl
    rcases List.mem_cons.mp hl with rfl | hl
    · intro d hd
      exact h.unbroken first (by simp) d ((List.dropWhile_sublist _).subset hd)
    · exact h.unbroken l (by simp [hl])
  · intro l hl
    rcases List.mem_cons.mp hl with rfl | hl
    · exact not_blank_iff.mpr ⟨c, hkeep, hsp⟩
    · exact h.solid l (by simp [hl])
  · rw [hpost, hpost, List.dropWhile_append, if_neg]
    intro hemp
    rw [List.isEmpty_iff.mp hemp] at hkeep
    simp at hkeep

/-- Whitespace at the end of a paragraph is whitespace at the end of its last line. -/
theorem Paragraph.rdropWhile {lines : List (List Char)} (h : Paragraph cs lines) :
    ∃ lines', Paragraph cs lines' ∧ (joinLines lines).rdropWhile cs.isSpace = joinLines lines' := by
  obtain ⟨front, last, rfl⟩ := (List.eq_nil_or_concat' lines).resolve_left h.nonempty
  obtain ⟨pre, hpre⟩ := joinLines_concat front
  obtain ⟨c, hc, hsp⟩ := not_blank_iff.mp (h.solid last (by simp))
  have hkeep : c ∈ last.rdropWhile cs.isSpace := by
    rw [← List.rdropWhile_append_rtakeWhile (p := cs.isSpace) (l := last), List.mem_append] at hc
    rcases hc with hc | hc
    · exact hc
    · simp [List.mem_rtakeWhile_imp hc] at hsp
  refine ⟨front ++ [last.rdropWhile cs.isSpace], ⟨by simp, ?_, ?_⟩, ?_⟩
  · intro l hl
    rcases List.mem_append.mp hl with hl | hl
    · exact h.unbroken l (by simp [hl])
    · rw [List.mem_singleton] at hl
      subst hl
      intro d hd
      exact h.unbroken last (by simp) d ((List.rdropWhile_prefix _ _).subset hd)
  · intro l hl
    rcases List.mem_append.mp hl with hl | hl
    · exact h.solid l (by simp [hl])
    · rw [List.mem_singleton] at hl
      subst hl
      exact not_blank_iff.mpr ⟨c, hkeep, hsp⟩
  · rw [hpre, hpre, List.rdropWhile, List.reverse_append, List.dropWhile_append, if_neg]
    · simp [List.rdropWhile]
    · intro hemp
      rw [List.rdropWhile, List.isEmpty_iff.mp hemp] at hkeep
      simp at hkeep

theorem Paragraph.strip_join {lines : List (List Char)} (h : Paragraph cs lines) :
    ∃ lines', Paragraph cs lines' ∧ strip cs (joinLines lines) = joinLines lines' := by
  obtain ⟨left, hleft, hl⟩ := h.dropWhile
  obtain ⟨both, hboth, hb⟩ := hleft.rdropWhile
  exact ⟨both, hboth, by rw [strip_eq, hl, hb]⟩

end PyStr
