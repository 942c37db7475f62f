import AudioEngine.Lib.Lines
import AudioEngine.Domain.Vendor

/-!
# AudioEngine.Domain.Text

What `split_blocks` computes, over any lawful choice of whitespace and line boundaries.

The loop has two accumulators: the finished blocks and the lines of the paragraph being
collected. `splitBlocksLoop_eq` says what they stand for: the blocks are the runs of non-blank
lines, joined and stripped. Everything else follows from that equation and from the lemmas about
lines: the paragraphs (`splitBlocks_paragraphs`) and the algebra of the splitter
(`splitBlocks_canonical`).
-/

namespace AudioEngine

open PyStr

variable {cs : Charset}

/-- The block a run of lines becomes. -/
abbrev block (cs : Charset) (lines : List (List Char)) : List Char := strip cs (joinLines lines)

/-- The run collected so far stands in front of the lines still to come. -/
theorem splitBlocksLoop_eq (blocks current lines : List (List Char))
    (hcur : ∀ line ∈ current, blank cs line = false) :
    splitBlocksLoop cs blocks current lines =
      blocks ++ (runs (blank cs) (current ++ lines)).map (block cs) := by
  induction lines generalizing blocks current with
  | nil =>
    rw [splitBlocksLoop, List.append_nil]
    by_cases hne : current = []
    · simp [hne]
    · rw [if_neg (by simpa using hne), runs_eq_singleton hne hcur]
      rfl
  | cons line rest ih =>
    rw [splitBlocksLoop]
    cases hline : blank cs line with
    | false =>
      have hrun : ∀ l ∈ current ++ [line], blank cs l = false := by
        intro l hl
        rcases List.mem_append.mp hl with hl | hl
        · exact hcur l hl
        · rw [List.mem_singleton.mp hl]
          exact hline
      have htest : (!(strip cs line).isEmpty) = true := by
        rw [← blank, hline]
        rfl
      rw [if_pos htest, ih _ _ hrun, List.append_assoc]
      rfl
    | true =>
      have htest : ¬(!(strip cs line).isEmpty) = true := by
        rw [← blank, hline]
        simp
      rw [if_neg htest, runs_append_sep hline, List.map_append]
      by_cases hne : current = []
      · rw [if_neg (by simp [hne]), ih _ _ hcur, hne]
        simp
      · rw [if_pos (by simpa using hne), ih _ [] (by simp), runs_eq_singleton hne hcur,
          List.append_assoc]
        rfl

theorem splitBlocksWith_eq (cs : Charset) (m : List Char) :
    splitBlocksWith cs m = (runs (blank cs) (splitlines cs m)).map (block cs) := by
  rw [splitBlocksWith, splitBlocksLoop_eq _ _ _ (by simp)]
  rfl

theorem paragraph_of_mem_runs {m : List Char} {lines : List (List Char)}
    (h : lines ∈ runs (blank cs) (splitlines cs m)) : Paragraph cs lines := by
  obtain ⟨hne, hlines⟩ := mem_runs h
  exact ⟨hne, fun l hl => splitlines_unbroken (hlines l hl).1, fun l hl => (hlines l hl).2⟩

/-- A block is a paragraph joined, and its own strip. -/
theorem mem_splitBlocksWith {m b : List Char} (h : b ∈ splitBlocksWith cs m) :
    strip cs b = b ∧ ∃ lines, Paragraph cs lines ∧ b = joinLines lines := by
  rw [splitBlocksWith_eq, List.mem_map] at h
  obtain ⟨run, hrun, rfl⟩ := h
  exact ⟨strip_strip cs _, (paragraph_of_mem_runs hrun).strip_join⟩

/-- What is not whitespace in a run of lines is what is not whitespace in its block. -/
theorem filter_block (hcs : cs.Lawful) (lines : List (List Char)) :
    (block cs lines).filter (!cs.isSpace ·) = lines.flatten.filter (!cs.isSpace ·) := by
  have hsp := hcs.space_of_break _ hcs.newline
  rw [filter_strip]
  induction lines with
  | nil => rfl
  | cons line rest ih =>
    cases rest with
    | nil => simp
    | cons next rest =>
      rw [joinLines, List.intercalate_cons_cons, List.filter_append, ih, List.filter_append,
        List.flatten_cons, List.filter_append]
      simp [hsp]

theorem filter_blank (lines : List (List Char)) :
    (lines.filter (!blank cs ·)).flatten.filter (!cs.isSpace ·) =
      lines.flatten.filter (!cs.isSpace ·) := by
  induction lines with
  | nil => rfl
  | cons line rest ih =>
    cases hline : blank cs line with
    | false =>
      rw [List.filter_cons_of_pos (by simp [hline]), List.flatten_cons, List.flatten_cons,
        List.filter_append, List.filter_append, ih]
    | true =>
      have hnone : line.filter (!cs.isSpace ·) = [] := by
        rw [List.filter_eq_nil_iff]
        intro c hc
        simp [blank_iff.mp hline c hc]
      rw [List.filter_cons_of_neg (by simp [hline]), List.flatten_cons, List.filter_append, hnone,
        ih]
      rfl

theorem filter_splitBlocksWith (hcs : cs.Lawful) (m : List Char) :
    (splitBlocksWith cs m).flatten.filter (!cs.isSpace ·) = m.filter (!cs.isSpace ·) := by
  have hmap : ∀ rs : List (List (List Char)),
      (rs.map (block cs)).flatten.filter (!cs.isSpace ·) =
        rs.flatten.flatten.filter (!cs.isSpace ·) := by
    intro rs
    induction rs with
    | nil => rfl
    | cons run rs ih =>
      rw [List.map_cons, List.flatten_cons, List.filter_append, ih, filter_block hcs,
        List.flatten_cons, List.flatten_append, List.filter_append]
  rw [splitBlocksWith_eq, hmap, flatten_runs, filter_blank, filter_splitlines hcs]

/-- The splitter computes the paragraphs and loses no text. -/
theorem splitBlocks_paragraphs (cs : Charset) (hcs : cs.Lawful) (m : List Char) :
    splitBlocksWith cs m =
      (runs (fun line => (strip cs line).isEmpty) (splitlines cs m)).map
        (fun run => strip cs (['\n'].intercalate run)) ∧
    (∀ b ∈ splitBlocksWith cs m,
      b ≠ [] ∧ strip cs b = b ∧ ∀ line ∈ splitlines cs b, strip cs line ≠ []) ∧
    (splitBlocksWith cs m).flatten.filter (fun c => !cs.isSpace c) =
      m.filter (fun c => !cs.isSpace c) := by
  refine ⟨splitBlocksWith_eq cs m, ?_, filter_splitBlocksWith hcs m⟩
  intro b hb
  obtain ⟨hstrip, lines, hpar, rfl⟩ := mem_splitBlocksWith hb
  have hlines : ∀ line ∈ splitlines cs (joinLines lines), strip cs line ≠ [] := by
    intro line hline
    rw [hpar.splitlines_join hcs] at hline
    have hb := hpar.solid line hline
    simpa [blank] using hb
  refine ⟨?_, hstrip, hlines⟩
  intro hnil
  have hone := hpar.splitlines_join hcs
  rw [hnil] at hone
  exact hpar.nonempty hone.symm

theorem splitBlocks_paragraphs_crlf :
    splitBlocksWith python " one\r\ntwo \n \t\n\n three".toList =
      ["one\ntwo".toList, "three".toList] ∧
    (runs (fun line => (strip python line).isEmpty)
        (splitlines python " one\r\ntwo \n \t\n\n three".toList)).map
      (fun run => strip python (['\n'].intercalate run)) = ["one\ntwo".toList, "three".toList] := by
  have h := splitBlocks_paragraphs python python_lawful " one\r\ntwo \n \t\n\n three".toList
  have hblocks : splitBlocksWith python " one\r\ntwo \n \t\n\n three".toList =
      ["one\ntwo".toList, "three".toList] := by decide +kernel
  exact ⟨hblocks, h.1.symm.trans hblocks⟩

/-! ## The algebra of the splitter -/

theorem splitBlocksWith_append (hcs : cs.Lawful) (a b : List Char) :
    splitBlocksWith cs (a ++ '\n' :: '\n' :: b) =
      splitBlocksWith cs a ++ splitBlocksWith cs b := by
  obtain ⟨mid, hne, hmid, hlines⟩ := splitlines_blank_line hcs a b
  have hsep : ∀ line ∈ mid, blank cs line = true := by
    intro line hl
    rw [hmid line hl]
    rfl
  rw [splitBlocksWith_eq, splitBlocksWith_eq, splitBlocksWith_eq, hlines,
    runs_append_seps hne hsep, List.map_append]

/-- A block is its own only block. -/
theorem splitBlocksWith_self (hcs : cs.Lawful) {m b : List Char} (h : b ∈ splitBlocksWith cs m) :
    splitBlocksWith cs b = [b] := by
  obtain ⟨hstrip, lines, hpar, rfl⟩ := mem_splitBlocksWith h
  rw [splitBlocksWith_eq, hpar.splitlines_join hcs, runs_eq_singleton hpar.nonempty hpar.solid,
    List.map_singleton, block, hstrip]

theorem splitBlocksWith_intercalate (hcs : cs.Lawful) {bs : List (List Char)}
    (h : ∀ b ∈ bs, splitBlocksWith cs b = [b]) :
    splitBlocksWith cs (['\n', '\n'].intercalate bs) = bs := by
  induction bs with
  | nil => rfl
  | cons b rest ih =>
    have hb := h b (by simp)
    cases rest with
    | nil => rw [List.intercalate_singleton, hb]
    | cons next rest =>
      have hrest := ih fun c hc => h c (by simp [hc])
      rw [List.intercalate_cons_cons, List.append_assoc, List.cons_append, List.cons_append,
        List.nil_append, splitBlocksWith_append hcs, hb, hrest]
      rfl

/-- The splitter is additive over a blank line, and its output is a canonical form. -/
theorem splitBlocks_canonical (cs : Charset) (hcs : cs.Lawful) :
    (∀ a b : List Char,
      splitBlocksWith cs (a ++ ['\n', '\n'] ++ b) =
        splitBlocksWith cs a ++ splitBlocksWith cs b) ∧
    ∀ m : List Char,
      splitBlocksWith cs (['\n', '\n'].intercalate (splitBlocksWith cs m)) =
        splitBlocksWith cs m := by
  constructor
  · intro a b
    rw [List.append_assoc]
    exact splitBlocksWith_append hcs a b
  · intro m
    exact splitBlocksWith_intercalate hcs fun b hb => splitBlocksWith_self hcs hb

/-- A text that ends in CR in front of the blank line. -/
theorem splitBlocks_canonical_cr :
    splitBlocksWith python ("one\r".toList ++ ['\n', '\n'] ++ "\ttwo\n".toList) =
      ["one".toList, "two".toList] ∧
    splitBlocksWith python (['\n', '\n'].intercalate
      (splitBlocksWith python "one\r\n\n\ttwo\n".toList)) = ["one".toList, "two".toList] := by
  have h := splitBlocks_canonical python python_lawful
  have hone : splitBlocksWith python "one\r".toList = ["one".toList] := by decide +kernel
  have htwo : splitBlocksWith python "\ttwo\n".toList = ["two".toList] := by decide +kernel
  have hboth : splitBlocksWith python "one\r\n\n\ttwo\n".toList =
      ["one".toList, "two".toList] := by decide +kernel
  constructor
  · rw [h.1, hone, htwo]
    rfl
  · rw [h.2, hboth]

end AudioEngine
