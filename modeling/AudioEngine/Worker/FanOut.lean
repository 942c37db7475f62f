import AudioEngine.Domain.Text
import AudioEngine.Gateway.Ingest
import AudioEngine.Infra.Queries

/-!
# AudioEngine.Worker.FanOut

The width of the task insert of `handle_parse`.

`insert(Task).values(rows)` is one statement with a parameter for each column of each row, and the
driver takes at most `maxQueryArguments` of them. A row has five columns, so the statement fits up
to 6,553 blocks (`fanOut_fits_iff`), while the cap of the handler stands at 10,000 and the gateway
lets a body of 33 kB with 6,554 blocks in (`fanOut_overflows`).
-/

namespace AudioEngine

open PyStr PyJson Relational

/-! ## When the statement fits -/

/-- The paragraphs of a manuscript: its maximal runs of non-blank lines. -/
def paragraphs (manuscript : String) : List (List (List Char)) :=
  runs (blank python) (splitlines python manuscript.toList)

theorem length_insertTasks (jobId : String) (blocks : List String) :
    (insertTasks jobId blocks).length = 5 * blocks.length := by
  have hrow : ∀ ts : List Task, (ts.flatMap Task.columns).length = 5 * ts.length := by
    intro ts
    induction ts with
    | nil => rfl
    | cons t ts ih =>
      rw [List.flatMap_cons, List.length_append, ih, List.length_cons, Task.columns]
      simp only [List.length_cons, List.length_nil]
      omega
  rw [insertTasks, hrow, length_taskRows]

theorem length_splitBlocks (manuscript : String) :
    (splitBlocks manuscript).length = (paragraphs manuscript).length := by
  rw [splitBlocks, List.length_map, splitBlocksWith_eq, List.length_map, paragraphs]

theorem length_blocksOf (manuscript : String) :
    (blocksOf {} manuscript).length = min (paragraphs manuscript).length 10000 := by
  have hcap : (10000 : Int).toNat = 10000 := rfl
  rw [blocksOf, capBlocks_eq, sliceTo, if_pos (by decide), List.length_take, length_splitBlocks]
  simp only [hcap]
  omega

theorem executeSeed_overflows_iff (db : Db) (jobId : String) (blocks : List String) :
    executeSeed db jobId blocks = .error .tooManyArguments ↔
      maxQueryArguments < (insertTasks jobId blocks).length := by
  unfold executeSeed
  split
  · rename_i h
    exact ⟨fun _ => h, fun _ => rfl⟩
  · rename_i h
    constructor
    · intro heq
      split at heq
      · cases heq
      · cases heq
    · intro hlt
      exact absurd hlt h

/-- Under the default cap the insert is within the driver's limit, and the transaction does not
fail on it, exactly for manuscripts of at most 6,553 paragraphs. -/
theorem fanOut_fits_iff (db : Db) (jobId manuscript : String) :
    ((insertTasks jobId (blocksOf {} manuscript)).length ≤ maxQueryArguments ∧
      executeSeed db jobId (blocksOf {} manuscript) ≠ .error .tooManyArguments) ↔
    (paragraphs manuscript).length ≤ 6553 := by
  have hlen : (insertTasks jobId (blocksOf {} manuscript)).length =
      5 * min (paragraphs manuscript).length 10000 := by
    rw [length_insertTasks, length_blocksOf]
  rw [ne_eq, executeSeed_overflows_iff, hlen, maxQueryArguments]
  omega

/-! ## A manuscript that does not fit -/

/-- `n` one-letter paragraphs. -/
def letters (n : Nat) : List Char := (List.replicate n ['a', '\n', '\n']).flatten

theorem letters_succ (n : Nat) : letters (n + 1) = 'a' :: '\n' :: '\n' :: letters n := rfl

theorem splitBlocksWith_letters (n : Nat) :
    splitBlocksWith python (letters n) = List.replicate n ['a'] := by
  induction n with
  | zero => rfl
  | succ n ih =>
    have hone : splitBlocksWith python ['a'] = [['a']] := by decide
    have happ := splitBlocksWith_append python_lawful ['a'] (letters n)
    rw [letters_succ, List.replicate_succ]
    exact happ.trans (by rw [hone, ih]; rfl)

/-- The bytes of an ASCII text. -/
def ascii (s : String) : List UInt8 := s.toList.map fun c => UInt8.ofNat c.toNat

/-- The letters as a JSON string escapes them. -/
def escaped (n : Nat) : List UInt8 := (List.replicate n (ascii "a\\n\\n")).flatten

/-- `{"manuscript": "…"}`. -/
def lettersBody (n : Nat) : List UInt8 :=
  ascii "\x7b\"manuscript\":\"" ++ escaped n ++ ascii "\"\x7d"

theorem escaped_succ (n : Nat) : escaped (n + 1) = ascii "a\\n\\n" ++ escaped n := rfl

theorem length_lettersBody (n : Nat) : (lettersBody n).length = 5 * n + 17 := by
  have hmid : (escaped n).length = 5 * n := by
    induction n with
    | zero => rfl
    | succ n ih =>
      rw [escaped_succ, List.length_append, ih, show (ascii "a\\n\\n").length = 5 from rfl]
      omega
  rw [lettersBody, List.length_append, List.length_append, hmid,
    show (ascii "\x7b\"manuscript\":\"").length = 15 from rfl,
    show (ascii "\"\x7d").length = 2 from rfl]
  omega

theorem mem_lettersBody {n : Nat} {b : UInt8} (h : b ∈ lettersBody n) :
    0 < b.toNat ∧ b.toNat < 0x80 := by
  have plain : ∀ {l : List UInt8}, l.all (fun b => decide (0 < b.toNat ∧ b.toNat < 0x80)) = true →
      ∀ b ∈ l, 0 < b.toNat ∧ b.toNat < 0x80 :=
    fun hl b hb => of_decide_eq_true (List.all_eq_true.mp hl b hb)
  have hopen : ∀ b ∈ ascii "\x7b\"manuscript\":\"", 0 < b.toNat ∧ b.toNat < 0x80 := plain rfl
  have hone : ∀ b ∈ ascii "a\\n\\n", 0 < b.toNat ∧ b.toNat < 0x80 := plain rfl
  have hclose : ∀ b ∈ ascii "\"\x7d", 0 < b.toNat ∧ b.toNat < 0x80 := plain rfl
  rw [lettersBody, List.mem_append, List.mem_append] at h
  rcases h with (h | h) | h
  · exact hopen b h
  · obtain ⟨l, hl, hb⟩ := List.mem_flatten.mp h
    rw [List.eq_of_mem_replicate hl] at hb
    exact hone b hb
  · exact hclose b h

/-- The decoder over the escaped letters. -/
theorem run_escaped (depth n : Nat) (acc : List Nat) (stack : List Frame) :
    ((escaped n).map UInt8.toNat).foldlM (step depth)
      { mode := .text false .none false acc, stack := stack } =
    some { mode := .text false .none false (((letters n).map Char.toNat).reverse ++ acc),
           stack := stack } := by
  induction n generalizing acc with
  | zero => rfl
  | succ n ih =>
    have hone : ((ascii "a\\n\\n").map UInt8.toNat).foldlM (step depth)
        { mode := .text false .none false acc, stack := stack } =
        some { mode := .text false .none false (10 :: 10 :: 97 :: acc), stack := stack } := rfl
    rw [escaped_succ, List.map_append, List.foldlM_append, hone, letters_succ]
    simp only [Option.bind_eq_bind, Option.bind_some, ih]
    simp

theorem loads_lettersBody (depth n : Nat) :
    loads (depth + 1) (lettersBody n) =
      some (.obj [(points "manuscript", .str ((letters n).map Char.toNat))]) := by
  have hopen : ((ascii "\x7b\"manuscript\":\"").map UInt8.toNat).foldlM (step (depth + 1)) {} =
      some { mode := .text false .none false [], stack := [.obj [] (points "manuscript")] } := rfl
  have hclose : ∀ acc : List Nat, ((ascii "\"\x7d").map UInt8.toNat).foldlM (step (depth + 1))
      { mode := .text false .none false acc, stack := [.obj [] (points "manuscript")] } =
      some { mode := .after, result := some (.obj [(points "manuscript", .str acc.reverse)]) } :=
    fun acc => rfl
  rw [loads, decodeBytes_ascii fun b hb => mem_lettersBody hb]
  dsimp only
  rw [loadsText, lettersBody, List.map_append, List.map_append]
  simp only [List.foldlM_append, hopen, Option.bind_eq_bind, Option.bind_some, run_escaped, hclose,
    finish, List.append_nil, List.reverse_reverse]

theorem createJobRequest_letters (n : Nat) :
    createJobRequest (.obj [(points "manuscript", .str ((letters n).map Char.toNat))]) =
      some { manuscript := (letters n).map Char.toNat } := by
  have hget : get [(points "manuscript", Json.str ((letters n).map Char.toNat))] "manuscript" =
      some (.str ((letters n).map Char.toNat)) := rfl
  have hnone : get [(points "manuscript", Json.str ((letters n).map Char.toNat))] "callback_url" =
      none := rfl
  simp only [createJobRequest, hget, hnone, Option.bind_some, strOf]

theorem length_blocksOf_letters (n : Nat) :
    (blocksOf {} (String.ofList (letters n))).length = min n 10000 := by
  rw [length_blocksOf, ← length_splitBlocks, splitBlocks, List.length_map, String.toList_ofList,
    splitBlocksWith_letters, List.length_replicate]

/-- The request with `n` one-letter paragraphs and the length `length` declared. -/
def lettersRequest (length : String) (n : Nat) : Request :=
  ⟨"POST", "/jobs", some length, some "application/json", lettersBody n⟩

theorem postJobs_letters {length : String} {d : Int} (hdecl : parseInt length.toList = some d)
    (hd : d ≤ 1000000) (depth n : Nat) :
    postJobs (depth + 1) {} (lettersRequest length n) =
      .accepted { manuscript := String.ofList (letters n) } := by
  have hguard : guardManuscriptSize {} (lettersRequest length n) = none := by
    rw [guardManuscriptSize, if_pos ⟨rfl, rfl⟩]
    simp only [lettersRequest, hdecl]
    rw [if_neg (by omega)]
  have htype : (some "application/json").any isJsonType = true := by decide
  refine postJobs_eq_accepted.mpr ⟨hguard, ⟨rfl, rfl⟩, htype, _, _, loads_lettersBody depth n,
    createJobRequest_letters n, ?_⟩
  simp only [createJob, encoded_points]

/-- A request of 32,787 bytes that the gateway accepts, whose insert has 32,770 parameters. -/
theorem fanOut_overflows :
    ∃ (req : Request) (job : Stored),
      req.contentLength = some "32787" ∧ req.contentType = some "application/json" ∧
      req.body.length = 32787 ∧
      postJobs 1000 {} req = .accepted job ∧
      (blocksOf {} job.manuscript).length = 6554 ∧
      (insertTasks "j" (blocksOf {} job.manuscript)).length = 32770 ∧
      ∀ db : Db, executeSeed db "j" (blocksOf {} job.manuscript) = .error .tooManyArguments := by
  have hdecl : parseInt "32787".toList = some 32787 := by decide
  have hlen : (lettersRequest "32787" 6554).body.length = 32787 := by
    rw [lettersRequest, length_lettersBody]
  have hblocks : (blocksOf {} (String.ofList (letters 6554))).length = 6554 := by
    rw [length_blocksOf_letters]
    rfl
  have hparams : (insertTasks "j" (blocksOf {} (String.ofList (letters 6554)))).length = 32770 := by
    rw [length_insertTasks, hblocks]
  have hover : ∀ db : Db, executeSeed db "j" (blocksOf {} (String.ofList (letters 6554))) =
      .error .tooManyArguments := by
    intro db
    rw [executeSeed_overflows_iff, hparams]
    decide
  exact ⟨lettersRequest "32787" 6554, { manuscript := String.ofList (letters 6554) }, rfl, rfl, hlen,
    postJobs_letters hdecl (by decide) 999 6554, hblocks, hparams, hover⟩

end AudioEngine
