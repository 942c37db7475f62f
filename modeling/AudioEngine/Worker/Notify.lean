import AudioEngine.Infra.Queries
import AudioEngine.Worker.AckLast
import AudioEngine.Worker.Ssrf

/-!
# AudioEngine.Worker.Notify

The webhook at the end of `handle_stitch`: `_notify` (`worker/handlers/stitch.py`) over the guard.

Only the POST stands inside the `try` of `_notify`. The guard runs before it, so what the guard
raises leaves the handler of a job that is already `COMPLETED`, and the message goes back onto the
retry ladder (`webhook_acks_iff`, `webhook_retried`).

The guard resolves the host and checks every address; the client resolves it again when it connects.
Nothing ties the second answer to the first (`webhook_external_iff`, `webhook_rebound`).
-/

namespace AudioEngine

open PyStr PyIp

structure WebhookSettings where
  webhookAllowlistRaw : String := ""

/-- `Settings.webhook_allowlist`. -/
def WebhookSettings.webhookAllowlist (web : WebhookSettings) : List String :=
  (((split ',' web.webhookAllowlistRaw.toList).map (strip python)).filter (!·.isEmpty)).map
    String.ofList

structure Payload where
  jobId : String
  status : String
  finalKey : Option String
deriving DecidableEq, Repr

/-- How `_notify` returns. -/
inductive Notified where
  | noCallback
  | logOnly
  | blocked
  | delivered (url : String) (payload : Payload)
  /-- the POST raised, which is logged -/
  | failed (url : String) (payload : Payload)
deriving DecidableEq, Repr

/-- The URL that was POSTed to. -/
def Notified.posted : Notified → Option String
  | .delivered url _ => some url
  | .failed url _ => some url
  | _ => none

/-- `_notify(ctx, job_id)`; the lookup of the guard is the first. -/
def notify (net : Net) (web : WebhookSettings) (db : Db) (jobId : String) :
    Except GuardError Notified :=
  match db.jobs.get jobId with
  | none => .ok .noCallback
  | some job =>
    match job.callbackUrl with
    | none => .ok .noCallback
    | some callback =>
      if callback = "" then .ok .noCallback
      else if web.webhookAllowlist = [] then .ok .logOnly
      else
        match isAllowed net 0 callback web.webhookAllowlist with
        | .error e => .error e
        | .ok false => .ok .blocked
        | .ok true =>
          let payload := { jobId := jobId, status := "COMPLETED", finalKey := job.finalKey }
          if net.responds callback then .ok (.delivered callback payload)
          else .ok (.failed callback payload)

/-- The end of `handle_stitch`, from `finalize_job` on. The exceptions of the guard are no
`PoisonError`. -/
def finishStitch (net : Net) (web : WebhookSettings) (db : Db) (jobId : String) :
    Db × WorkOutcome :=
  let r := finalizeJob db jobId (outKey jobId)
  if r.2 then
    match notify net web r.1 jobId with
    | .ok _ => (r.1, .returned)
    | .error _ => (r.1, .raised false)
  else (r.1, .returned)

/-- The callback that is stored for a job, unless it is empty. -/
def callbackOf (db : Db) (jobId : String) : Option String :=
  ((db.jobs.get jobId).bind Job.callbackUrl).filter (· ≠ "")

section

variable {net : Net} {web : WebhookSettings} {db : Db} {jobId : String}

theorem notify_none (h : callbackOf db jobId = none) :
    notify net web db jobId = .ok .noCallback := by
  unfold notify
  cases hjob : db.jobs.get jobId with
  | none => rfl
  | some job =>
    cases hurl : job.callbackUrl with
    | none => simp only [hurl]
    | some url =>
      have hempty : url = "" := by simpa [callbackOf, hjob, hurl, Option.filter] using h
      simp only [hurl, if_pos hempty]

/-- With a callback it is the guard that decides. -/
theorem notify_some (net : Net) (web : WebhookSettings) {url : String}
    (h : callbackOf db jobId = some url) :
    (web.webhookAllowlist = [] ∧ notify net web db jobId = .ok .logOnly) ∨
    (web.webhookAllowlist ≠ [] ∧
      ((∃ e, isAllowed net 0 url web.webhookAllowlist = .error e ∧
          notify net web db jobId = .error e) ∨
       (isAllowed net 0 url web.webhookAllowlist = .ok false ∧
          notify net web db jobId = .ok .blocked) ∨
       (isAllowed net 0 url web.webhookAllowlist = .ok true ∧
          ∃ out, notify net web db jobId = .ok out ∧ out.posted = some url))) := by
  obtain ⟨hget, hne⟩ := Option.filter_eq_some_iff.mp h
  obtain ⟨job, hjob, hurl⟩ := Option.bind_eq_some_iff.mp hget
  have hne : url ≠ "" := by simpa using hne
  unfold notify
  simp only [hjob, hurl, if_neg hne]
  by_cases hempty : web.webhookAllowlist = []
  · rw [if_pos hempty]
    exact .inl ⟨hempty, rfl⟩
  · rw [if_neg hempty]
    refine .inr ⟨hempty, ?_⟩
    cases hallowed : isAllowed net 0 url web.webhookAllowlist with
    | error e => exact .inl ⟨e, rfl, rfl⟩
    | ok allowed =>
      cases allowed with
      | false => exact .inr (.inl ⟨rfl, rfl⟩)
      | true =>
        refine .inr (.inr ⟨rfl, ?_⟩)
        simp only
        split
        · exact ⟨_, rfl, rfl⟩
        · exact ⟨_, rfl, rfl⟩

/-! ## The retry ladder -/

/-- Host parsing does not raise for this callback, nor does the lookup raise `UnicodeError`, where
the guard gets to them. -/
def Harmless (net : Net) (allowlist : List String) (callback : Option String) : Prop :=
  ∀ url, callback = some url → allowlist ≠ [] →
    net.hostname url ≠ none ∧
    ∀ host, net.hostname url = some (some host) → host ≠ "" → host ∈ allowlist →
      net.getaddrinfo 0 host ≠ .error .unicodeError

theorem notify_raises_iff (net : Net) (web : WebhookSettings) (db : Db) (jobId : String) :
    (∃ e, notify net web db jobId = .error e) ↔
      ¬ Harmless net web.webhookAllowlist (callbackOf db jobId) := by
  cases hcb : callbackOf db jobId with
  | none =>
    rw [notify_none hcb]
    simp [Harmless]
  | some url =>
    rcases notify_some net web hcb with ⟨hempty, hn⟩ | ⟨hne, hcases⟩
    · rw [hn]
      simp [Harmless, hempty]
    · have hguard : (∃ e, notify net web db jobId = .error e) ↔
          ∃ e, isAllowed net 0 url web.webhookAllowlist = .error e := by
        rcases hcases with ⟨e, ha, hn⟩ | ⟨ha, hn⟩ | ⟨ha, out, hn, _⟩
        · exact ⟨fun _ => ⟨e, ha⟩, fun _ => ⟨e, hn⟩⟩
        · rw [ha, hn]
          simp
        · rw [ha, hn]
          simp
      rw [hguard, isAllowed_raises_iff]
      constructor
      · rintro (hparse | ⟨host, ⟨hhost, hh, hlist⟩, hunicode⟩) hharm
        · exact (hharm url rfl hne).1 hparse
        · exact (hharm url rfl hne).2 host hhost hh (hlist.resolve_left hne) hunicode
      · intro hharm
        by_contra hquiet
        refine hharm fun u hu _ => ?_
        cases hu
        exact ⟨fun hparse => hquiet (.inl hparse), fun host hhost hh hmem hunicode =>
          hquiet (.inr ⟨host, ⟨hhost, hh, .inr hmem⟩, hunicode⟩)⟩

/-- `finalize_job` leaves the callback as it is. -/
theorem callbackOf_finalizeJob (db : Db) (jobId key : String) :
    callbackOf (finalizeJob db jobId key).1 jobId = callbackOf db jobId := by
  cases hr : finalizeJob db jobId key with
  | mk db' won =>
    rcases casJob_cases hr with ⟨_, rfl, _⟩ | ⟨_, _, job, hjob, _, hget⟩
    · rfl
    · rw [callbackOf, hget, if_pos rfl, callbackOf, hjob]
      rfl

theorem finishStitch_won (hwon : (finalizeJob db jobId (outKey jobId)).2 = true) :
    (finishStitch net web db jobId).2 = .returned ↔
      Harmless net web.webhookAllowlist (callbackOf db jobId) := by
  have hraise := notify_raises_iff net web (finalizeJob db jobId (outKey jobId)).1 jobId
  rw [callbackOf_finalizeJob] at hraise
  unfold finishStitch
  simp only [hwon, if_true]
  cases hn : notify net web (finalizeJob db jobId (outKey jobId)).1 jobId with
  | ok out =>
    rw [hn] at hraise
    simpa using hraise
  | error e =>
    rw [hn] at hraise
    simpa using hraise

end

/-- Once `finalize_job` has returned `True`, `handle_stitch` returns and the message is acked without
a copy, if and only if neither host parsing nor the guard's lookup raises what the guard lets
through. The outcome of the POST has no influence. -/
theorem webhook_acks_iff {β : Type} (net : Net) (web : WebhookSettings) (db : Db) (jobId : String)
    (hwon : (finalizeJob db jobId (outKey jobId)).2 = true) (cfg : Settings) (m : Message β)
    (d : Delivery) (hwork : d.work = (finishStitch net web db jobId).2)
    (hack : d.ackRaises = false) :
    ((finishStitch net web db jobId).2 = .returned ∧ ackLastOps cfg .stitch m d = [.ack]) ↔
      Harmless net web.webhookAllowlist (callbackOf db jobId) := by
  rw [← finishStitch_won hwon]
  constructor
  · exact fun h => h.1
  · intro hret
    refine ⟨hret, ?_⟩
    rw [hret] at hwork
    rw [ackLastOps, hwork]
    simp [ackAndLeave, hack]

/-- A job that waits for its stitch, with this callback. -/
def stitchingWith (callback : String) : Db :=
  ⟨⟨[{ jobId := "j", status := .stitching, manuscriptKey := "raw/j.txt",
       callbackUrl := some callback }], by simp⟩, .empty⟩

/-- `urlsplit` refuses a bracket that is not closed. -/
def bracketNet : Net where
  hostname url := if '[' ∈ url.toList ∧ ']' ∉ url.toList then none else some (some "hooks.example.com")
  getaddrinfo _ _ := .ok ["93.184.216.34"]
  clientHost _ := some "hooks.example.com"
  responds _ := false

/-- A well-formed callback, a POST that raises: the job is done and the message is acked. -/
theorem webhook_acks_well_formed :
    (finalizeJob (stitchingWith "https://hooks.example.com/x") "j" (outKey "j")).2 = true ∧
    ackLastOps {} .stitch (publishMessage "body")
      { work := (finishStitch bracketNet { webhookAllowlistRaw := "hooks.example.com" }
          (stitchingWith "https://hooks.example.com/x") "j").2 } = [.ack] := by
  have hwon : (finalizeJob (stitchingWith "https://hooks.example.com/x") "j" (outKey "j")).2 =
      true := by decide
  have hharm : Harmless bracketNet
      ({ webhookAllowlistRaw := "hooks.example.com" } : WebhookSettings).webhookAllowlist
      (callbackOf (stitchingWith "https://hooks.example.com/x") "j") := by
    have hcb : callbackOf (stitchingWith "https://hooks.example.com/x") "j" =
        some "https://hooks.example.com/x" := by decide
    intro url hurl _
    rw [hcb, Option.some.injEq] at hurl
    subst hurl
    exact ⟨by decide, fun host _ _ _ => by simp [bracketNet]⟩
  exact ⟨hwon, ((webhook_acks_iff bracketNet { webhookAllowlistRaw := "hooks.example.com" } _ "j"
    hwon {} _ _ rfl rfl).mpr hharm).2⟩

/-- The callback `http://[`: host parsing raises outside the `try`, and the message of the completed
job goes to the first retry queue. -/
theorem webhook_retried :
    (finalizeJob (stitchingWith "http://[") "j" (outKey "j")).2 = true ∧
    (finishStitch bracketNet { webhookAllowlistRaw := "hooks.example.com" }
      (stitchingWith "http://[") "j").2 = .raised false ∧
    ((finishStitch bracketNet { webhookAllowlistRaw := "hooks.example.com" }
      (stitchingWith "http://[") "j").1.status "j") = some .completed ∧
    ackLastOps {} .stitch (publishMessage "body")
      { work := (finishStitch bracketNet { webhookAllowlistRaw := "hooks.example.com" }
          (stitchingWith "http://[") "j").2 } =
      [.publish (.retry .stitch 1)
        { body := "body", contentType := some "application/json",
          headers := [(headerRetryCount, .int 1)] }, .ack] := by
  decide

/-! ## The connection -/

/-- The addresses the HTTP client may connect to: those of its own lookup, after the guard's. -/
def Net.connects (net : Net) (url : String) : List String :=
  match net.clientHost url with
  | none => []
  | some host => ((net.getaddrinfo 1 host).toOption).getD []

/-- The resolver shows the guard external addresses only of an allowlisted host, and the client an
internal one. -/
def Rebinds (net : Net) (allowlist : List String) (url : String) : Prop :=
  ∃ host checked, net.hostname url = some (some host) ∧ host ≠ "" ∧ host ∈ allowlist ∧
    net.getaddrinfo 0 host = .ok checked ∧ (∀ ip ∈ checked, isExternalIp ip = true) ∧
    ∃ ip ∈ net.connects url, isInternalIp ip = true

/-- So the two answers differ: the client has an address that the guard did not see. -/
theorem Rebinds.unchecked {net : Net} {allowlist : List String} {url : String}
    (h : Rebinds net allowlist url) :
    ∃ host checked, net.getaddrinfo 0 host = .ok checked ∧ ∃ ip ∈ net.connects url, ip ∉ checked := by
  obtain ⟨host, checked, _, _, _, hlook, hext, ip, hip, hint⟩ := h
  refine ⟨host, checked, hlook, ip, hip, ?_⟩
  intro hin
  rw [isInternalIp_of_isExternalIp (hext ip hin)] at hint
  cases hint

theorem notify_posts_iff (net : Net) (web : WebhookSettings) (db : Db) (jobId url : String) :
    (∃ out, notify net web db jobId = .ok out ∧ out.posted = some url) ↔
      callbackOf db jobId = some url ∧ web.webhookAllowlist ≠ [] ∧
        isAllowed net 0 url web.webhookAllowlist = .ok true := by
  constructor
  · rintro ⟨out, hout, hposted⟩
    cases hcb : callbackOf db jobId with
    | none =>
      rw [notify_none hcb] at hout
      cases hout
      cases hposted
    | some callback =>
      rcases notify_some net web hcb with ⟨_, hn⟩ | ⟨hne, ⟨e, _, hn⟩ | ⟨_, hn⟩ | ⟨ha, out', hn, hp⟩⟩
      · rw [hn] at hout
        cases hout
        cases hposted
      · rw [hn] at hout
        cases hout
      · rw [hn] at hout
        cases hout
        cases hposted
      · rw [hn] at hout
        cases hout
        have hurl : callback = url := by
          rw [hp, Option.some.injEq] at hposted
          exact hposted
        subst hurl
        exact ⟨rfl, hne, ha⟩
  · rintro ⟨hcb, hne, ha⟩
    rcases notify_some net web hcb with ⟨hempty, _⟩ | ⟨_, ⟨e, he, _⟩ | ⟨hf, _⟩ | ⟨_, out, hn, hp⟩⟩
    · exact absurd hempty hne
    · rw [ha] at he
      cases he
    · rw [ha] at hf
      cases hf
    · exact ⟨out, hn, hp⟩

/-- Whenever `_notify` issues a POST, no address the client may connect to is internal, if and only
if the resolver does not rebind the host of the stored callback. -/
theorem webhook_external_iff (net : Net) (web : WebhookSettings) (db : Db) (jobId : String) :
    (∀ out url, notify net web db jobId = .ok out → out.posted = some url →
      ∀ ip ∈ net.connects url, isInternalIp ip = false) ↔
    ∀ url, callbackOf db jobId = some url → ¬ Rebinds net web.webhookAllowlist url := by
  constructor
  · rintro h url hcb ⟨host, checked, hhost, hne, hmem, hlook, hclean, ip, hip, hint⟩
    have hlist : web.webhookAllowlist ≠ [] := List.ne_nil_of_mem hmem
    have hallowed : isAllowed net 0 url web.webhookAllowlist = .ok true :=
      isAllowed_true_iff.mpr ⟨host, checked, ⟨hhost, hne, .inr hmem⟩, hlook, hclean⟩
    obtain ⟨out, hout, hposted⟩ := (notify_posts_iff net web db jobId url).mpr ⟨hcb, hlist, hallowed⟩
    have hext := h out url hout hposted ip hip
    rw [hint] at hext
    cases hext
  · intro h out url hout hposted ip hip
    obtain ⟨hcb, hlist, hallowed⟩ := (notify_posts_iff net web db jobId url).mp ⟨out, hout, hposted⟩
    obtain ⟨host, checked, ⟨hhost, hne, hmem⟩, hlook, hclean⟩ := isAllowed_true_iff.mp hallowed
    cases hint : isInternalIp ip with
    | false => rfl
    | true =>
      exact absurd ⟨host, checked, hhost, hne, hmem.resolve_left hlist, hlook, hclean, ip, hip, hint⟩
        (h url hcb)

/-- The guard is shown a public address and the client the metadata endpoint. -/
def reboundNet : Net where
  hostname _ := some (some "hooks.example.com")
  getaddrinfo k _ := .ok (if k = 0 then ["93.184.216.34"] else ["169.254.169.254"])
  clientHost _ := some "hooks.example.com"
  responds _ := true

theorem webhook_rebound :
    ∃ out, notify reboundNet { webhookAllowlistRaw := "hooks.example.com" }
        (stitchingWith "https://hooks.example.com/x") "j" = .ok out ∧
      out.posted = some "https://hooks.example.com/x" ∧
      reboundNet.connects "https://hooks.example.com/x" = ["169.254.169.254"] ∧
      (ipAddress "169.254.169.254").map Addr.isLinkLocal = some true ∧
      isInternalIp "169.254.169.254" = true := by
  refine ⟨.delivered "https://hooks.example.com/x" ⟨"j", "COMPLETED", none⟩, ?_⟩
  decide

end AudioEngine
