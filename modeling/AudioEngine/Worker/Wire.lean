import AudioEngine.Lib.PyJsonDump
import AudioEngine.Worker.Resolver

/-!
# AudioEngine.Worker.Wire

What `publish` (`core/infra/broker.py`) puts on the wire for an event of `core/domain/events.py`.

`model_dump_json` is a parameter: of it we use that it writes the JSON object of the event's fields
(`Renders`). The dead-letter consumer reads the bytes back with `json.loads`, so the events of the
pipeline's model stand for the bytes: `published_resolves`. A `JobCreated` and a `StitchReady` of
one job differ in nothing but their `event_id`.
-/

namespace AudioEngine

open PyJson

/-- The fields of an event, in the order of its class; the `event_id` is the base class's. -/
def Event.wireFields (eventId : String) (e : Event) : List (String × String) :=
  [("event_id", eventId), ("job_id", e.jobId)] ++ e.body.taskId.toList.map fun t => ("task_id", t)

/-- The fields as `json.loads` gives them. -/
def loadedFields (fields : List (String × String)) : List (List Nat × Json) :=
  fields.map fun f => (points f.1, .str (points f.2))

/-- `event.model_dump_json().encode()`, where `dump` is what `model_dump_json` writes for the
fields. -/
def publishBody (dump : List (String × String) → String) (eventId : String) (e : Event) : List UInt8 :=
  encodeUtf8 (points (dump (e.wireFields eventId)))

/-- The text is the JSON object of the fields. -/
def Renders (dump : List (String × String) → String) : Prop :=
  ∀ (depth : Nat) (eventId : String) (e : Event), 0 < depth →
    loadsText depth (points (dump (e.wireFields eventId))) =
      some (.obj (loadedFields (e.wireFields eventId)))

/-- The driver and the model take the ids of the event as they are. -/
structure Binds (dr : Drivers) (e : Event) : Prop where
  job : dr.bind (.str (points e.jobId)) = some e.jobId
  ready : dr.stitchReady (.str (points e.jobId)) = some e.jobId
  task : ∀ t, e.body.taskId = some t → dr.bind (.str (points t)) = some t

section

variable {dump : List (String × String) → String} {depth : Nat} {dr : Drivers} {e : Event}
  (eventId : String)

/-- The bytes read back as the fields. -/
theorem loads_publishBody (hdump : Renders dump) (hdepth : 0 < depth) (e : Event) :
    loads depth (publishBody dump eventId e) = some (.obj (loadedFields (e.wireFields eventId))) :=
  loads_encodeUtf8 (hdump depth eventId e hdepth)

theorem loadedFields_wireFields (e : Event) : loadedFields (e.wireFields eventId) =
    [(points "event_id", .str (points eventId)), (points "job_id", .str (points e.jobId))] ++
      e.body.taskId.toList.map fun t => (points "task_id", .str (points t)) := by
  cases e <;> rfl

theorem get_eventId (e : Event) :
    get (loadedFields (e.wireFields eventId)) "event_id" = some (.str (points eventId)) := by
  rw [loadedFields_wireFields]
  cases e <;> rfl

theorem get_jobId (e : Event) :
    get (loadedFields (e.wireFields eventId)) "job_id" = some (.str (points e.jobId)) := by
  rw [loadedFields_wireFields]
  cases e <;> rfl

theorem get_taskId (e : Event) :
    get (loadedFields (e.wireFields eventId)) "task_id" =
      e.body.taskId.map fun t => .str (points t) := by
  rw [loadedFields_wireFields]
  cases e <;> rfl

theorem publishBody_carries (hdump : Renders dump) (hdepth : 0 < depth) (hb : Binds dr e) :
    Carries depth dr (publishBody dump eventId e) e := by
  refine ⟨⟨_, .str (points e.jobId), loads_publishBody eventId hdump hdepth e, ?_, hb.job, hb.ready, ?_⟩⟩
  · rw [jobIdOf, get_jobId]
  · rw [get_taskId]
    cases ht : e.body.taskId with
    | none => rfl
    | some t => exact ⟨.str (points t), rfl, by simp, hb.task t ht⟩

/-- The body of an event whose job has a row is resolvable. -/
theorem publishBody_resolvable (hdump : Renders dump) (hdepth : 0 < depth) (hb : Binds dr e)
    {db : Db} {job : Job} (hjob : db.jobs.get e.jobId = some job) :
    Resolvable depth dr db (publishBody dump eventId e) := by
  refine ⟨_, loads_publishBody eventId hdump hdepth e, fun jobId hj => ?_⟩
  have hjobId : jobId = .str (points e.jobId) := by
    rw [jobIdOf, get_jobId] at hj
    exact (Option.some.inj hj).symm
  subst hjobId
  rw [get_taskId]
  refine ⟨fun taskId htask => ?_, fun _ => by rw [hb.job]; rfl⟩
  obtain ⟨t, ht, rfl⟩ := Option.map_eq_some_iff.mp htask
  exact .inr ⟨t, hb.task t ht, fun _ _ _ =>
    ⟨e.jobId, job, hb.job, hjob, fun _ => by rw [hb.ready]; rfl⟩⟩

/-- The bytes determine the fields, and so do not tell a `JobCreated` from a `StitchReady`. -/
theorem publishBody_inj (hdump : Renders dump) {eventId eventId' : String} {e e' : Event} :
    publishBody dump eventId e = publishBody dump eventId' e' ↔
      eventId = eventId' ∧ e.body = e'.body := by
  constructor
  · intro h
    -- read both back
    have hobj := loads_publishBody eventId hdump Nat.one_pos e
    rw [h, loads_publishBody eventId' hdump Nat.one_pos e', Option.some.injEq, Json.obj.injEq] at hobj
    have hevent := congrArg (fun data => get data "event_id") hobj
    have hjob := congrArg (fun data => get data "job_id") hobj
    have htask := congrArg (fun data => get data "task_id") hobj
    simp only [get_eventId, get_jobId, get_taskId, Option.some.injEq, Json.str.injEq] at hevent hjob htask
    have hstr : Function.Injective fun t => Json.str (points t) := fun a b hab =>
      points_injective (Json.str.inj hab)
    have hjobId : e'.body.jobId = e.body.jobId := points_injective hjob
    have htaskId : e'.body.taskId = e.body.taskId := Option.map_injective hstr htask
    refine ⟨(points_injective hevent).symm, ?_⟩
    calc e.body = ⟨e.body.jobId, e.body.taskId⟩ := rfl
      _ = ⟨e'.body.jobId, e'.body.taskId⟩ := by rw [hjobId, htaskId]
      _ = e'.body := rfl
  · rintro ⟨rfl, hbody⟩
    simp only [publishBody, Event.wireFields, Event.jobId, hbody]

end

theorem Ladder.bounded_of_resolvable {cfg : Settings} {l : Live} {work : Nat → WorkOutcome}
    {depth : Nat} {dr : Drivers} {world : Nat → Db} {body : List UInt8} {n : Nat}
    (h : Resolvable depth dr (world n) body) :
    Bounded (dlqSetup cfg l work depth dr world body) (publishMessage body) :=
  (bounded_iff rfl).mpr (.inr ⟨n, (handleDlq_returns_iff _ _ _ _).mpr h⟩)

/-- For any serializer that writes the JSON object of the fields: `json.loads` reads the published
bytes back as exactly these fields; the dead-letter consumer does with the bytes what the pipeline's
resolver does with the event; the bytes are those of no event with other fields; and as soon as an
attempt of the consumer finds the job's row, the message has left the system after boundedly many
deliveries, whatever the workers did with it. -/
theorem published_resolves {dump : List (String × String) → String} (hdump : Renders dump)
    {depth : Nat} (hdepth : 0 < depth) {dr : Drivers} {e : Event} (hb : Binds dr e)
    (eventId : String) :
    loads depth (publishBody dump eventId e) = some (.obj (loadedFields (e.wireFields eventId))) ∧
    (∀ sh : Pipeline.Shared,
      handleDlq depth dr sh.db (publishBody dump eventId e) = dlqFrom e 3 sh .resolve) ∧
    (∀ (eventId' : String) (e' : Event),
      publishBody dump eventId e = publishBody dump eventId' e' ↔
        eventId = eventId' ∧ e.body = e'.body) ∧
    ∀ (cfg : Settings) (l : Live) (work : Nat → WorkOutcome) (world : Nat → Db) (n : Nat),
      ((world n).jobs.get e.jobId).isSome →
      Ladder.Bounded (Ladder.dlqSetup cfg l work depth dr world (publishBody dump eventId e))
        (publishMessage (publishBody dump eventId e)) := by
  refine ⟨loads_publishBody eventId hdump hdepth e,
    handleDlq_carries (publishBody_carries eventId hdump hdepth hb),
    fun _ _ => publishBody_inj hdump, ?_⟩
  intro cfg l work world n hrow
  obtain ⟨job, hjob⟩ := Option.isSome_iff_exists.mp hrow
  exact Ladder.bounded_of_resolvable (publishBody_resolvable eventId hdump hdepth hb hjob)

/-- The compact text of the object is one that `model_dump_json` could write. -/
theorem renders_dumpText : Renders dumpText := fun _ eventId e hdepth =>
  loadsText_dumpText hdepth (e.wireFields eventId)

/-- The job `k` is waiting for its one block. -/
def oneLeft : Db where
  jobs := ⟨[{ jobId := "k", status := .generating, pendingCount := 1, manuscriptKey := "raw/k.txt" }],
    by decide⟩
  tasks := ⟨[{ taskId := "k-0", jobId := "k", blockIndex := 0, blockHash := "h" }], by decide⟩

/-- A request for that block, with a driver that binds texts alone: the dead-letter consumer fails
the task and announces the job, and the message of a worker that always raises leaves the system. -/
theorem published_resolves_request :
    Binds Ladder.textOnly (.ttsRequested "k" "k-0") ∧
    (handleDlq 1 Ladder.textOnly oneLeft
      (publishBody dumpText "9f" (.ttsRequested "k" "k-0"))).2 = .returned (some "k") ∧
    (handleDlq 1 Ladder.textOnly oneLeft
      (publishBody dumpText "9f" (.ttsRequested "k" "k-0"))).1.outstanding "k" = 0 ∧
    publishBody dumpText "9f" (.ttsRequested "k" "k-0") ≠
      publishBody dumpText "9f" (.stitchReady "k") ∧
    Ladder.Bounded (Ladder.dlqSetup {} .tts (fun _ => .raised false) 1 Ladder.textOnly
        (fun _ => oneLeft) (publishBody dumpText "9f" (.ttsRequested "k" "k-0")))
      (publishMessage (publishBody dumpText "9f" (.ttsRequested "k" "k-0"))) := by
  have hb : Binds Ladder.textOnly (.ttsRequested "k" "k-0") := by
    refine ⟨by decide, by decide, fun t ht => ?_⟩
    cases ht
    decide
  obtain ⟨_, hdlq, hinj, hbounded⟩ := published_resolves renders_dumpText Nat.one_pos hb "9f"
  have hrun : handleDlq 1 Ladder.textOnly oneLeft
      (publishBody dumpText "9f" (.ttsRequested "k" "k-0")) = _ := hdlq { db := oneLeft }
  refine ⟨hb, ?_, ?_, fun h => ?_, hbounded {} .tts _ (fun _ => oneLeft) 0 (by decide)⟩
  · rw [hrun]
    decide
  · rw [hrun]
    decide
  · exact absurd ((hinj _ _).mp h).2 (by decide)

end AudioEngine
