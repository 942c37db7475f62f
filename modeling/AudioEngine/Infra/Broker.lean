import AudioEngine.Domain.Vendor

/-!
# AudioEngine.Infra.Broker

Messages, queues and the retry ladder of `core/infra/broker.py`.

A queue name is a constructor; `QueueName.name` gives the string the source uses. `declareFull` is
the topology: only the delay queues have a time to live and a dead-letter exchange, so a message
rejected without requeue from a live queue is gone.

`route_retry_or_dlq` computes the copy to publish and its routing key, or raises before it
publishes anything: `int(...)` of the `x-retry-count` header may fail, and so may the subscript
into the tuple of delays. `routeRetryOrDlq_defined_iff` says exactly when it gets that far.
-/

namespace AudioEngine

/-! ## Names -/

inductive Live where
  | parse
  | tts
  | stitch
deriving DecidableEq, Repr

inductive QueueName where
  | live (l : Live)
  | retry (l : Live) (delayS : Int)
  | dlq
deriving DecidableEq, Repr

def Live.name : Live → String
  | parse => "q.parse"
  | tts => "q.tts"
  | stitch => "q.stitch"

def QueueName.name : QueueName → String
  | live l => l.name
  | retry l d => "q.retry." ++ l.name ++ "." ++ toString d ++ "s"
  | dlq => "q.dlq"

def QueueName.isLive : QueueName → Bool
  | live _ => true
  | _ => false

def exchangeName : String := "pipeline"

def headerRetryCount : String := "x-retry-count"

/-- A queue as declared; every queue is bound to the exchange under its own name. -/
structure QueueDecl where
  queue : QueueName
  messageTtlMs : Option Int := none
  deadLetterExchange : Option String := none
  deadLetterRoutingKey : Option QueueName := none
deriving DecidableEq, Repr

/-- `declare_full(channel, retry_delays)`. -/
def declareFull (retryDelays : List Int) : List QueueDecl :=
  { queue := .dlq } ::
    [Live.parse, .tts, .stitch].flatMap fun l =>
      { queue := .live l } ::
        retryDelays.map fun d =>
          { queue := .retry l d, messageTtlMs := some (d * 1000),
            deadLetterExchange := some exchangeName, deadLetterRoutingKey := some (.live l) }

theorem retry_name_inj {l l' : Live} {d d' : Int}
    (h : (QueueName.retry l d).name = (QueueName.retry l' d').name) : l = l' ∧ d = d' := by
  have hl : l = l' := by
    have hc := congrArg (fun s : String => s.toList[10]?) h
    cases l <;> cases l' <;> first | rfl | simp [QueueName.name, Live.name] at hc
  subst hl
  refine ⟨rfl, PyStr.toString_int_inj.mp ?_⟩
  simpa [QueueName.name] using h

/-- The third character tells the kinds of queues apart. -/
theorem QueueName.name_inj {q q' : QueueName} : q.name = q'.name ↔ q = q' := by
  constructor
  · intro h
    have hc := congrArg (fun s : String => s.toList[2]?) h
    cases q with
    | live l =>
      cases q' with
      | live l' =>
        cases l <;> cases l' <;> first | rfl | simp [QueueName.name, Live.name] at hc
      | retry l' d' => cases l <;> simp [QueueName.name, Live.name] at hc
      | dlq => cases l <;> simp [QueueName.name, Live.name] at hc
    | retry l d =>
      cases q' with
      | live l' => cases l' <;> simp [QueueName.name, Live.name] at hc
      | retry l' d' =>
        obtain ⟨rfl, rfl⟩ := retry_name_inj h
        rfl
      | dlq => simp [QueueName.name] at hc
    | dlq =>
      cases q' with
      | live l' => cases l' <;> simp [QueueName.name, Live.name] at hc
      | retry l' d' => simp [QueueName.name] at hc
      | dlq => rfl
  · rintro rfl; rfl

/-- The queue bound under a routing key. -/
def boundTo (retryDelays : List Int) (key : String) : Option QueueDecl :=
  (declareFull retryDelays).find? fun q => q.queue.name = key

/-- A declared queue is what its name leads to; a delay that is given twice declares one queue. -/
theorem boundTo_name {ds : List Int} {q : QueueDecl} (h : q ∈ declareFull ds) :
    boundTo ds q.queue.name = some q := by
  cases hf : boundTo ds q.queue.name with
  | none =>
    have := List.find?_eq_none.mp hf q h
    simp at this
  | some q' =>
    have hname : q'.queue = q.queue := QueueName.name_inj.mp (by simpa using List.find?_some hf)
    have hmem := List.mem_of_find?_eq_some hf
    simp only [declareFull, List.mem_cons, List.mem_flatMap, List.mem_map] at h hmem
    congr 1
    rcases h with rfl | ⟨l, _, rfl | ⟨d, _, rfl⟩⟩ <;>
      rcases hmem with rfl | ⟨l', _, rfl | ⟨d', _, rfl⟩⟩ <;> cases hname <;> rfl

theorem declareFull_dlq (ds : List Int) : { queue := .dlq } ∈ declareFull ds := by
  simp [declareFull]

theorem declareFull_liveQueue (ds : List Int) (l : Live) : { queue := .live l } ∈ declareFull ds := by
  cases l <;> simp [declareFull]

/-- The delay queue of `l` for the delay `d`. -/
def delayQueue (l : Live) (d : Int) : QueueDecl where
  queue := .retry l d
  messageTtlMs := some (d * 1000)
  deadLetterExchange := some exchangeName
  deadLetterRoutingKey := some (.live l)

theorem declareFull_delayQueue {ds : List Int} {d : Int} (l : Live) (h : d ∈ ds) :
    delayQueue l d ∈ declareFull ds := by
  simp only [declareFull, List.mem_cons, List.mem_flatMap, List.mem_map]
  refine .inr ⟨l, by cases l <;> simp, .inr ⟨d, h, rfl⟩⟩

/-! ## Messages -/

/-- A Python `float`: a finite value, an infinity or a NaN. -/
inductive PyFloat where
  | finite (q : Rat)
  | infinite
  | nan
deriving DecidableEq, Repr

/-- A header value; `other` is any type that is none of `int`, `float`, `str`. -/
inductive HeaderValue where
  | bool (b : Bool)
  | int (z : Int)
  | float (x : PyFloat)
  | str (s : String)
  | other
deriving DecidableEq, Repr

structure Message (β : Type) where
  body : β
  contentType : Option String := none
  headers : List (String × HeaderValue) := []
deriving DecidableEq, Repr

inductive PyError where
  | valueError
  | overflowError
  | indexError
deriving DecidableEq, Repr

/-- `publish(exchange, event, routing_key)`: the message it sends. -/
def publishMessage {β : Type} (event : β) : Message β :=
  { body := event, contentType := some "application/json" }

variable {β : Type}

/-- `get_retry_count(message)`. -/
def getRetryCount (m : Message β) : Except PyError Int :=
  match m.headers.lookup headerRetryCount with
  | none => .ok 0
  | some (.bool b) => .ok b.toNat
  | some (.int z) => .ok z
  | some (.float (.finite q)) => .ok (q.num.tdiv q.den)
  | some (.float .infinite) => .error .overflowError
  | some (.float .nan) => .error .valueError
  | some (.str s) =>
    match PyStr.parseInt s.toList with
    | none => .error .valueError
    | some z => .ok z
  | some .other => .ok 0

/-- Python's subscript `l[i]` of a tuple. -/
def subscript {α : Type} (l : List α) (i : Int) : Option α :=
  if 0 ≤ i then l[i.toNat]? else if 0 ≤ l.length + i then l[(l.length + i).toNat]? else none

/-- `route_retry_or_dlq(exchange, message, live_queue, max_retries, retry_delays)`: the routing key
and the copy it publishes. -/
def routeRetryOrDlq (m : Message β) (liveQueue : Live) (maxRetries : Int) (retryDelays : List Int) :
    Except PyError (QueueName × Message β) :=
  match getRetryCount m with
  | .error e => .error e
  | .ok c =>
    let count := c + 1
    let copy : Message β :=
      { body := m.body
        contentType := some ((m.contentType.filter (· ≠ "")).getD "application/json")
        headers := [(headerRetryCount, .int count)] }
    if count > maxRetries then .ok (.dlq, copy)
    else
      match subscript retryDelays (min (count - 1) (retryDelays.length - 1)) with
      | none => .error .indexError
      | some d => .ok (.retry liveQueue d, copy)

theorem subscript_min_isSome {α : Type} (l : List α) (c : Int) :
    (subscript l (min c (l.length - 1))).isSome = true ↔ l ≠ [] ∧ -(l.length : Int) ≤ c := by
  have hne : l ≠ [] ↔ 0 < l.length := List.length_pos_iff.symm
  rw [hne]
  unfold subscript
  split
  · rw [List.getElem?_eq_getElem (by omega), Option.isSome_some]
    simp only [true_iff]
    omega
  · split
    · rw [List.getElem?_eq_getElem (by omega), Option.isSome_some]
      simp only [true_iff]
      omega
    · simp only [Option.isSome_none, Bool.false_eq_true, false_iff]
      omega

/-- The routing reaches its publish exactly when the header decodes and, unless the message is due
for the dead-letter queue, there is a delay to subscript. -/
theorem routeRetryOrDlq_defined_iff (m : Message β) (l : Live) (maxRetries : Int) (ds : List Int) :
    (∃ q copy, routeRetryOrDlq m l maxRetries ds = .ok (q, copy)) ↔
      ∃ c, getRetryCount m = .ok c ∧ (maxRetries ≤ c ∨ (ds ≠ [] ∧ -(ds.length : Int) ≤ c)) := by
  unfold routeRetryOrDlq
  cases hc : getRetryCount m with
  | error e => simp
  | ok c =>
    have hsub := subscript_min_isSome ds c
    simp only [Except.ok.injEq, exists_eq_left', add_sub_cancel_right]
    by_cases hm : c + 1 > maxRetries
    · rw [if_pos hm]
      exact iff_of_true ⟨_, _, rfl⟩ (.inl (by omega))
    · rw [if_neg hm]
      cases hs : subscript ds (min c (ds.length - 1)) with
      | none =>
        rw [hs] at hsub
        refine iff_of_false (by simp) ?_
        rintro (h | h)
        · omega
        · exact absurd (hsub.mpr h) (by simp)
      | some d =>
        rw [hs] at hsub
        exact iff_of_true ⟨_, _, rfl⟩ (.inr (hsub.mp rfl))

/-- The copy has the body of the original and goes to a delay queue or to the dead-letter queue. -/
theorem routeRetryOrDlq_copy {m copy : Message β} {l : Live} {maxRetries : Int} {ds : List Int}
    {q : QueueName} (h : routeRetryOrDlq m l maxRetries ds = .ok (q, copy)) :
    copy.body = m.body ∧ (q = .dlq ∨ ∃ d, q = .retry l d) := by
  unfold routeRetryOrDlq at h
  split at h
  · cases h
  · dsimp only at h
    split at h
    · cases h; exact ⟨rfl, .inl rfl⟩
    · split at h
      · cases h
      · cases h; exact ⟨rfl, .inr ⟨_, rfl⟩⟩

end AudioEngine
