import AudioEngine.Lib.PyJson

/-!
# AudioEngine.Gateway.Ingest

What `POST /jobs` lets in: the size guard of `gateway/main.py` on the declared length, then the
body as JSON if the `Content-Type` says so, then the schema `CreateJobRequest`
(`gateway/schemas.py`), then the encoding of the texts in `create_job`.

The guard looks at the header alone and only at the ingestion route. A length that is no integer
raises and becomes the catch-all 500; without a length nothing is checked. Text with a lone
surrogate is a `str` of the schema, but does not encode, which is the catch-all again, as is a NUL in
the callback.
-/

namespace AudioEngine

open PyJson

structure IngestSettings where
  maxManuscriptBytes : Int := 1000000

structure Request where
  method : String
  path : String
  contentLength : Option String
  contentType : Option String
  body : List UInt8

/-- The texts are code points, lone surrogates included. -/
structure CreateJobRequest where
  manuscript : List Nat
  callbackUrl : Option (List Nat) := none
deriving DecidableEq, Repr

/-- What `create_job` stores of a request. -/
structure Stored where
  manuscript : String
  callbackUrl : Option String := none
deriving DecidableEq, Repr

inductive Response where
  | manuscriptTooLarge (maxBytes : Int)
  | internalError
  /-- the framework answers, for a body that is no JSON or not of the schema: 422 as a rule, 400 for
  bytes that do not decode, 500 when the value it complains about cannot be rendered (`NaN`) -/
  | refused
  | accepted (job : Stored)
  /-- another route -/
  | elsewhere
deriving DecidableEq, Repr

/-- `guard_manuscript_size`; `none` is `call_next`. -/
def guardManuscriptSize (cfg : IngestSettings) (req : Request) : Option Response :=
  if req.method = "POST" ∧ req.path = "/jobs" then
    match req.contentLength with
    | none => none
    | some contentLength =>
      match PyStr.parseInt contentLength.toList with
      | none => some .internalError
      | some n =>
        if n > cfg.maxManuscriptBytes then some (.manuscriptTooLarge cfg.maxManuscriptBytes)
        else none
  else none

/-- The framework reads a body of this `Content-Type` as JSON: `application/json` or
`application/…+json`, whatever the parameters. -/
def isJsonType (contentType : String) : Bool :=
  let ctype := PyStr.strip PyStr.python (contentType.toList.takeWhile (· ≠ ';'))
  match PyStr.split '/' (ctype.map Char.toLower) with
  | [maintype, subtype] =>
    maintype == "application".toList &&
      (subtype == "json".toList || "+json".toList.isSuffixOf subtype)
  | _ => false

example : isJsonType "Application/JSON; charset=utf-8" = true ∧
    isJsonType "application/problem+json" = true ∧ isJsonType "text/json" = false := by
  decide

/-- A field of type `str`. -/
def strOf : Json → Option (List Nat)
  | .str s => some s
  | _ => none

/-- `CreateJobRequest(**body)`. -/
def createJobRequest : Json → Option CreateJobRequest
  | .obj fields =>
    match (get fields "manuscript").bind strOf with
    | none => none
    | some manuscript =>
      match get fields "callback_url" with
      | none => some { manuscript := manuscript }
      | some .null => some { manuscript := manuscript }
      | some url => (strOf url).map fun u => { manuscript := manuscript, callbackUrl := some u }
  | _ => none

/-- The string that `text.encode()` writes; `none` is `UnicodeEncodeError`. -/
def encoded (text : List Nat) : Option String :=
  (text.mapM fun c => if Nat.isValidChar c then some (Char.ofNat c) else none).map String.ofList

theorem encoded_points (s : List Char) : encoded (s.map Char.toNat) = some (String.ofList s) := by
  have hmap : (s.map Char.toNat).mapM
      (fun c => if Nat.isValidChar c then some (Char.ofNat c) else none) = some s := by
    induction s with
    | nil => rfl
    | cons c s ih =>
      have hvalid : Nat.isValidChar c.toNat := c.valid
      rw [List.map_cons, List.mapM_cons, if_pos hvalid, ih, Char.ofNat_toNat]
      rfl
  rw [encoded, hmap]
  rfl

/-- What a text column takes: PostgreSQL refuses a NUL. -/
def columnText (text : List Nat) : Option String := if 0 ∈ text then none else encoded text

/-- `create_job`, as far as its texts decide: the manuscript goes to `put_text`, the callback into
the row. -/
def createJob (job : CreateJobRequest) : Response :=
  match encoded job.manuscript with
  | none => .internalError
  | some manuscript =>
    match job.callbackUrl with
    | none => .accepted { manuscript := manuscript }
    | some url =>
      match columnText url with
      | none => .internalError
      | some callbackUrl => .accepted { manuscript := manuscript, callbackUrl := some callbackUrl }

/-- The gateway up to the stores; `depth` bounds the nesting of the JSON. -/
def postJobs (depth : Nat) (cfg : IngestSettings) (req : Request) : Response :=
  match guardManuscriptSize cfg req with
  | some response => response
  | none =>
    if req.method = "POST" ∧ req.path = "/jobs" then
      if req.contentType.any isJsonType then
        match (loads depth req.body).bind createJobRequest with
        | none => .refused
        | some job => createJob job
      else .refused
    else .elsewhere

/-- The guard itself accepts nothing. -/
theorem guardManuscriptSize_ne_accepted {cfg : IngestSettings} {req : Request} {job : Stored} :
    guardManuscriptSize cfg req ≠ some (.accepted job) := by
  unfold guardManuscriptSize
  split
  · split
    · simp
    · split
      · simp
      · split
        · simp
        · simp
  · simp

/-- A job is accepted when the declared length is no hindrance, the framework reads the body as JSON,
the schema takes it and `create_job` stores its texts. -/
theorem postJobs_eq_accepted {depth : Nat} {cfg : IngestSettings} {req : Request} {job : Stored} :
    postJobs depth cfg req = .accepted job ↔
      guardManuscriptSize cfg req = none ∧ (req.method = "POST" ∧ req.path = "/jobs") ∧
      req.contentType.any isJsonType = true ∧
      ∃ body request, loads depth req.body = some body ∧ createJobRequest body = some request ∧
        createJob request = .accepted job := by
  constructor
  · intro h
    unfold postJobs at h
    cases hguard : guardManuscriptSize cfg req with
    | some response =>
      rw [hguard] at h
      exact absurd (hguard.trans (congrArg some h)) guardManuscriptSize_ne_accepted
    | none =>
      simp only [hguard] at h
      by_cases hroute : req.method = "POST" ∧ req.path = "/jobs"
      · rw [if_pos hroute] at h
        by_cases htype : req.contentType.any isJsonType = true
        · rw [if_pos htype] at h
          cases hread : (loads depth req.body).bind createJobRequest with
          | none =>
            rw [hread] at h
            cases h
          | some request =>
            rw [hread] at h
            obtain ⟨body, hbody, hrequest⟩ := Option.bind_eq_some_iff.mp hread
            exact ⟨rfl, hroute, htype, body, request, hbody, hrequest, h⟩
        · rw [if_neg htype] at h
          cases h
      · rw [if_neg hroute] at h
        cases h
  · rintro ⟨hguard, hroute, htype, body, request, hbody, hrequest, hjob⟩
    rw [postJobs, hguard]
    simp only [if_pos hroute, if_pos htype, hbody, Option.bind_some, hrequest, hjob]

end AudioEngine
