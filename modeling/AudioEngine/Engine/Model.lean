import AudioEngine.Lib.Project
import AudioEngine.Pipeline.System
import AudioEngine.Semaphore.Model

/-!
# AudioEngine.Engine.Model

The pipeline and the semaphore together.

The model of the pipeline leaves `async with ctx.semaphore.slot(owner=owner)` without effect, and
the model of the semaphore has users that come from nowhere. Here the users are the handlers of
`handle_tts`: a copy that enters the slot waits for a token at `BLPOP`, records its lease, stores the
audio, and gives the token back command by command, on an exception as well. Where `acquire` or
`release` itself raises, the token is lost. The maintenance loops of the workers run beside them.

`data_follows` and `sem_follows` say that every step is, seen from either model, a step of it or
nothing. So both models tell the truth about the engine: `engine_refines`.
-/

namespace AudioEngine
namespace Engine

open Interleave
open Pipeline (Copy Raised)
open Semaphore (setNx setXx delLease)

/-- Postgres, MinIO and Redis, with the keys of the semaphore apart. -/
structure Shared where
  data : Pipeline.Shared := {}
  sem : Semaphore.Redis := {}

/-- Where a handler is inside `slot(owner)`. -/
inductive SlotPc where
  /-- before the `BLPOP` -/
  | waiting
  /-- between the `BLPOP` and the `SET NX` -/
  | popped (token : String)
  /-- in the body, before its `put_bytes` -/
  | body (token : String)
  /-- after the body -/
  | leaving (token : String)
  /-- before the `DEL` of the lease, with the exception of the body if it raised -/
  | clearing (token : String) (exc : Option Raised)
  /-- between the `DEL` and the `RPUSH` -/
  | pushing (token : String) (exc : Option Raised)
deriving DecidableEq

inductive Agent where
  /-- outside the slot -/
  | plain (a : Pipeline.Agent)
  /-- a delivery of `TtsRequested` inside the slot, with the text of its block -/
  | slot (c : Copy) (text : String) (pc : SlotPc)
  /-- the bootstrap and the maintenance loops of a worker -/
  | maintenance (a : Semaphore.Agent)
deriving DecidableEq

inductive Choice where
  | step (i : Pipeline.Choice)
  | renew
  | startReseed
  | startReap
deriving DecidableEq

/-- Leaving the slot: on to `cache_set`, or to the `finally` that drops the in-flight lock. -/
def exitSlot (c : Copy) (text : String) : Option Raised → Agent
  | none => .plain (.copy { c with stage := .work (.tts (.cacheSet text)) })
  | some exc => .plain (.copy { c with stage := .unwind text exc })

def slotAct (sh : Shared) (c : Copy) (text : String) (pc : SlotPc) (i : Choice) :
    Option (Shared × List Agent) :=
  match pc, i with
  | .waiting, .step .go =>
    match sh.sem.slots with
    | [] => none
    | token :: rest =>
      some ({ sh with sem := { sh.sem with slots := rest } }, [.slot c text (.popped token)])
  | .popped token, .step .go =>
    some ({ sh with sem := setNx sh.sem token c.msg.body.taskId }, [.slot c text (.body token)])
  | .body token, .renew =>
    some ({ sh with sem := setXx sh.sem token c.msg.body.taskId }, [.slot c text (.body token)])
  | .body token, .step .go =>
    some ({ sh with data := sh.data.putObject (ttsKey (contentHash text)) (ttsFakeAudio text) },
      [.slot c text (.leaving token)])
  | .body token, .step (.fail isPoison) =>
    some (sh, [.slot c text (.clearing token (some (.error isPoison)))])
  | .body token, .step .cancel => some (sh, [.slot c text (.clearing token (some .cancelled))])
  | .leaving token, .renew =>
    some ({ sh with sem := setXx sh.sem token c.msg.body.taskId }, [.slot c text (.leaving token)])
  | .leaving token, .step .go => some (sh, [.slot c text (.clearing token none)])
  | .clearing token exc, .step .go =>
    some ({ sh with sem := delLease sh.sem token }, [.slot c text (.pushing token exc)])
  | .pushing token exc, .step .go =>
    some ({ sh with sem := { sh.sem with slots := sh.sem.slots ++ [token] } },
      [exitSlot c text exc])
  -- `acquire` or `release` raises, and its exception goes on
  | _, .step (.fail isPoison) => some (sh, [exitSlot c text (some (.error isPoison))])
  | _, .step .cancel => some (sh, [exitSlot c text (some .cancelled)])
  | _, .step .crash => some (sh, [.plain (.copy { c with stage := .ready })])
  | _, _ => none

/-- The text of the block, if the agent is about to enter the slot. -/
def entersSlot : Pipeline.Agent → Option (Copy × String)
  | .copy c =>
    match c.stage with
    | .work (.tts (.enterSlot text)) => some (c, text)
    | _ => none
  | _ => none

def plainAct (cfg : Settings) (sh : Shared) (a : Pipeline.Agent) (i : Pipeline.Choice) :
    Option (Shared × List Agent) :=
  match entersSlot a, i with
  | some (c, text), .go => some (sh, [.slot c text .waiting])
  | _, i =>
    (Pipeline.act cfg sh.data a i).map fun r => ({ sh with data := r.1 }, r.2.map .plain)

/-- A maintenance loop takes its next step, its worker starts a pass or crashes. -/
def Choice.maintain : Choice → Option Semaphore.Choice
  | .step .go => some .go
  | .step .crash => some .crash
  | .startReseed => some .startReseed
  | .startReap => some .startReap
  | _ => none

def act (cfg : Settings) (n : Nat) (sh : Shared) : Agent → Choice → Option (Shared × List Agent)
  | .plain a, .step i => plainAct cfg sh a i
  | .plain _, _ => none
  | .slot c text pc, i => slotAct sh c text pc i
  | .maintenance a, i =>
    i.maintain.bind fun k =>
      (Semaphore.act n sh.sem a k).map fun r => ({ sh with sem := r.1 }, r.2.map .maintenance)

inductive Env where
  | data (e : Pipeline.Env)
  /-- a worker boots -/
  | boot
  /-- a lease expires -/
  | expire (token : String)
deriving DecidableEq

def env (sh : Shared) : Env → Option (Shared × List Agent)
  | .data e =>
    (Pipeline.env sh.data e).map fun r =>
      -- a wipe takes the keys of the semaphore too
      ({ data := r.1, sem := if e = .wipeRedis then {} else sh.sem }, r.2.map .plain)
  | .boot => some (sh, [.maintenance .boot])
  | .expire token => some ({ sh with sem := delLease sh.sem token }, [])

abbrev State := Pool Shared Agent

abbrev Moving := Move Agent Choice Env

def system (cfg : Settings) (n : Nat) : System Shared Agent Choice Env where
  init := ⟨{}, []⟩
  act := act cfg n
  env := env

/-! ## The two components -/

/-- The point of `_synthesize` in the model of the pipeline; an exception is pending there until the
slot is left. -/
def SlotPc.work (text : String) : SlotPc → Pipeline.TtsPc
  | .waiting => .enterSlot text
  | .popped _ => .enterSlot text
  | .body _ => .putAudio text
  | .leaving _ => .leaveSlot text
  | .clearing _ none => .leaveSlot text
  | .clearing _ (some _) => .putAudio text
  | .pushing _ none => .leaveSlot text
  | .pushing _ (some _) => .putAudio text

def SlotPc.client (owner : String) : SlotPc → Semaphore.Client
  | .waiting => .waiting owner
  | .popped token => .popped owner token
  | .body token => .holding owner token
  | .leaving token => .holding owner token
  | .clearing token _ => .clearing token
  | .pushing token _ => .pushing token

def Agent.data : Agent → Option Pipeline.Agent
  | .plain a => some a
  | .slot c text pc => some (.copy { c with stage := .work (.tts (pc.work text)) })
  | .maintenance _ => none

def Agent.sem : Agent → Option Semaphore.Agent
  | .plain _ => none
  | .slot c _ pc => some (.client (pc.client c.msg.body.taskId))
  | .maintenance a => some a

def dataView : View Shared Agent Pipeline.Shared Pipeline.Agent := ⟨Shared.data, Agent.data⟩

def semView : View Shared Agent Semaphore.Redis Semaphore.Agent := ⟨Shared.sem, Agent.sem⟩

section Views

variable {cfg : Settings} {n : Nat} {sh sh' : Shared} {a : Agent} {i : Choice} {outs : List Agent}

theorem plain_data (l : List Pipeline.Agent) : (l.map Agent.plain).filterMap Agent.data = l := by
  rw [List.filterMap_map]
  exact List.filterMap_some

theorem plain_sem (l : List Pipeline.Agent) : (l.map Agent.plain).filterMap Agent.sem = [] := by
  simp [Agent.sem]

theorem maintenance_data (l : List Semaphore.Agent) :
    (l.map Agent.maintenance).filterMap Agent.data = [] := by
  simp [Agent.data]

theorem maintenance_sem (l : List Semaphore.Agent) :
    (l.map Agent.maintenance).filterMap Agent.sem = l := by
  rw [List.filterMap_map]
  exact List.filterMap_some

theorem entersSlot_eq_some {a : Pipeline.Agent} {c : Copy} {text : String}
    (h : entersSlot a = some (c, text)) :
    a = .copy c ∧ c.stage = .work (.tts (.enterSlot text)) := by
  unfold entersSlot at h
  split at h
  · split at h
    · rename_i hst
      cases h
      exact ⟨rfl, hst⟩
    · cases h
  · cases h

/-- A plain agent enters the slot, or does what it does in the pipeline. -/
theorem plainAct_cases {a : Pipeline.Agent} {i : Pipeline.Choice}
    (h : plainAct cfg sh a i = some (sh', outs)) :
    (∃ c text, entersSlot a = some (c, text) ∧ i = .go ∧ sh' = sh ∧
      outs = [.slot c text .waiting]) ∨
    (entersSlot a = none ∨ i ≠ .go) ∧ ∃ d l, Pipeline.act cfg sh.data a i = some (d, l) ∧
      sh' = { sh with data := d } ∧ outs = l.map .plain := by
  unfold plainAct at h
  split at h
  · rename_i c text he
    cases h
    exact .inl ⟨c, text, he, rfl, rfl, rfl⟩
  · rename_i hne
    obtain ⟨⟨d, l⟩, hact, hr⟩ := Option.map_eq_some_iff.mp h
    cases hr
    refine .inr ⟨?_, d, l, hact, rfl, rfl⟩
    cases he : entersSlot a with
    | none => exact .inl rfl
    | some p => exact .inr fun hi => hne p.1 p.2 he hi

theorem maintenance_cases {a : Semaphore.Agent} (h : act cfg n sh (.maintenance a) i = some (sh', outs)) :
    ∃ k r l, i.maintain = some k ∧ Semaphore.act n sh.sem a k = some (r, l) ∧
      sh' = { sh with sem := r } ∧ outs = l.map .maintenance := by
  obtain ⟨k, hk, hact⟩ := Option.bind_eq_some_iff.mp h
  obtain ⟨⟨r, l⟩, hr, he⟩ := Option.map_eq_some_iff.mp hact
  cases he
  exact ⟨k, r, l, hk, hr, rfl, rfl⟩

end Views

/-! ## Every step, seen from the pipeline -/

section Data

variable {cfg : Settings} {n : Nat} {sh sh' : Shared} {a : Agent} {i : Choice} {outs : List Agent}
  {t : Pipeline.State} {c : Copy} {text : String} {pc : SlotPc}

/-- Inside the slot an exception leads to the `finally` of `_synthesize`. -/
theorem work_holdsInflight (text : String) (pc : SlotPc) :
    (pc.work text).holdsInflight = some text := by
  cases pc with
  | clearing token exc => cases exc <;> rfl
  | pushing token exc => cases exc <;> rfl
  | _ => rfl

theorem fail_data (ht : t.shared = sh.data) (isPoison : Bool) :
    Follows (Pipeline.system cfg) (fun _ _ _ => True) dataView t (.slot c text pc) sh
      [exitSlot c text (some (.error isPoison))] := by
  refine .acts rfl (k := .fail isPoison) ?_ trivial
  simp only [Pipeline.system, Pipeline.act, Copy.act, Copy.raiseAt, Pipeline.Work.holdsInflight,
    work_holdsInflight, ht]
  rfl

theorem cancel_data (ht : t.shared = sh.data) :
    Follows (Pipeline.system cfg) (fun _ _ _ => True) dataView t (.slot c text pc) sh
      [exitSlot c text (some .cancelled)] := by
  refine .acts rfl (k := .cancel) ?_ trivial
  simp only [Pipeline.system, Pipeline.act, Copy.act, Copy.raiseAt, Pipeline.Work.holdsInflight,
    work_holdsInflight, ht]
  rfl

theorem crash_data (ht : t.shared = sh.data) :
    Follows (Pipeline.system cfg) (fun _ _ _ => True) dataView t (.slot c text pc) sh
      [.plain (.copy { c with stage := .ready })] := by
  refine .acts rfl (k := .crash) ?_ trivial
  rw [ht]
  rfl

/-- A step that the pipeline does not see. -/
theorem idle_data {pc' : SlotPc} (ht : t.shared = sh.data) (hpc : pc'.work text = pc.work text)
    (hsh : sh'.data = sh.data) :
    Follows (Pipeline.system cfg) (fun _ _ _ => True) dataView t (.slot c text pc) sh'
      [.slot c text pc'] := by
  refine .idle (hsh.trans ht.symm) ?_
  simp [dataView, Agent.data, hpc]

theorem slot_data (h : slotAct sh c text pc i = some (sh', outs)) (ht : t.shared = sh.data) :
    Follows (Pipeline.system cfg) (fun _ _ _ => True) dataView t (.slot c text pc) sh' outs := by
  cases i with
  | step i =>
    cases i with
    | go =>
      cases pc with
      | waiting =>
        simp only [slotAct] at h
        split at h
        · cases h
        · cases h
          exact idle_data ht rfl rfl
      | popped token =>
        cases h
        refine .acts rfl (k := .go) ?_ trivial
        rw [ht]
        rfl
      | body token =>
        cases h
        refine .acts rfl (k := .go) ?_ trivial
        rw [ht]
        rfl
      | leaving token => cases h; exact idle_data ht rfl rfl
      | clearing token exc => cases h; exact idle_data ht (by cases exc <;> rfl) rfl
      | pushing token exc =>
        cases h
        cases exc with
        | none =>
          refine .acts rfl (k := .go) ?_ trivial
          rw [ht]
          rfl
        | some exc =>
          cases exc with
          | error isPoison =>
            refine fail_data ?_ isPoison
            exact ht
          | cancelled =>
            refine cancel_data ?_
            exact ht
    | fail isPoison =>
      cases pc with
      | body token => cases h; exact idle_data ht rfl rfl
      | _ => cases h; exact fail_data ht isPoison
    | cancel =>
      cases pc with
      | body token => cases h; exact idle_data ht rfl rfl
      | _ => cases h; exact cancel_data ht
    | crash => cases pc <;> · cases h; exact crash_data ht
    | duplicate => cases pc <;> cases h
  | renew =>
    cases pc with
    | body token => cases h; exact idle_data ht rfl rfl
    | leaving token => cases h; exact idle_data ht rfl rfl
    | _ => cases h
  | startReseed => cases pc <;> cases h
  | startReap => cases pc <;> cases h

theorem plain_follows {a : Pipeline.Agent} {i : Pipeline.Choice}
    (h : plainAct cfg sh a i = some (sh', outs)) (ht : t.shared = sh.data) :
    Follows (Pipeline.system cfg) (fun _ _ _ => True) dataView t (.plain a) sh' outs := by
  rcases plainAct_cases h with ⟨c, text, he, rfl, rfl, rfl⟩ | ⟨_, d, l, hact, rfl, rfl⟩
  · obtain ⟨rfl, hst⟩ := entersSlot_eq_some he
    refine .idle ht.symm ?_
    have hc : ({ c with stage := .work (.tts (.enterSlot text)) } : Copy) = c := by rw [← hst]
    simp [dataView, Agent.data, SlotPc.work, hc]
  · refine .acts rfl (k := i) ?_ trivial
    change Pipeline.act cfg t.shared a i = some (d, (l.map Agent.plain).filterMap Agent.data)
    rw [ht, plain_data, hact]

/-- **The step lemma of the pipeline.** -/
theorem data_follows (h : act cfg n sh a i = some (sh', outs)) (ht : t.shared = sh.data) :
    Follows (Pipeline.system cfg) (fun _ _ _ => True) dataView t a sh' outs := by
  cases a with
  | plain a =>
    cases i with
    | step i => exact plain_follows h ht
    | _ => cases h
  | slot c text pc => exact slot_data h ht
  | maintenance a =>
    obtain ⟨k, r, l, _, _, rfl, rfl⟩ := maintenance_cases h
    exact .idle ht.symm (maintenance_data l)

theorem data_echoes {e : Env} (h : env sh e = some (sh', outs)) (ht : t.shared = sh.data) :
    Echoes (Pipeline.system cfg) (fun _ _ _ => True) dataView t sh' outs := by
  cases e with
  | data e =>
    obtain ⟨⟨d, l⟩, henv, hr⟩ := Option.map_eq_some_iff.mp h
    cases hr
    refine .env (e := e) ?_ trivial
    change Pipeline.env t.shared e = some (d, (l.map Agent.plain).filterMap Agent.data)
    rw [ht, plain_data, henv]
  | boot => cases h; exact .idle ht.symm rfl
  | expire token => cases h; exact .idle ht.symm rfl

end Data

/-! ## Every step, seen from the semaphore -/

section Sem

variable {cfg : Settings} {n : Nat} {sh sh' : Shared} {a : Agent} {i : Choice} {outs : List Agent}
  {t : Semaphore.State} {c : Copy} {text : String} {pc : SlotPc}
  {D : Semaphore.State → Semaphore.Moving → Semaphore.Redis → Prop}

/-- The choice of the client: it goes on or renews only where the handler does. -/
structure Mirrors (i : Choice) (k : Semaphore.Choice) : Prop where
  go : i = .step .go → k = .go
  renew : i = .renew → k = .renew

theorem token_lost (hD : ∀ k r, D t (.act (.client k) .crash) r) (ht : t.shared = sh.sem)
    {b : Pipeline.Agent} :
    Follows (Semaphore.system n) D semView t (.slot c text pc) sh [.plain b] := by
  refine .acts rfl (k := .crash) ?_ (hD _ _)
  rw [ht]
  cases pc <;> rfl

theorem exitSlot_plain (c : Copy) (text : String) (exc : Option Raised) :
    ∃ b, exitSlot c text exc = .plain b := by
  cases exc with
  | none => exact ⟨_, rfl⟩
  | some exc => exact ⟨_, rfl⟩

theorem slot_sem (hD : ∀ c k r, Mirrors i k → D t (.act (.client c) k) r)
    (h : slotAct sh c text pc i = some (sh', outs)) (ht : t.shared = sh.sem) :
    Follows (Semaphore.system n) D semView t (.slot c text pc) sh' outs := by
  have hlost : Mirrors i .crash → ∀ exc, Follows (Semaphore.system n) D semView t (.slot c text pc)
      sh [exitSlot c text exc] := by
    intro hm exc
    obtain ⟨b, hb⟩ := exitSlot_plain c text exc
    rw [hb]
    exact token_lost (fun k r => hD k .crash r hm) ht
  cases i with
  | step i =>
    cases i with
    | go =>
      cases pc with
      | waiting =>
        simp only [slotAct] at h
        split at h
        · cases h
        · rename_i token rest hs
          cases h
          refine .acts rfl (k := .go) ?_ (hD _ _ _ ⟨by simp, by simp⟩)
          rw [ht]
          simp only [Semaphore.system, Semaphore.act, SlotPc.client, Semaphore.Client.act, hs]
          rfl
      | popped token =>
        cases h
        refine .acts rfl (k := .go) ?_ (hD _ _ _ ⟨by simp, by simp⟩)
        rw [ht]
        rfl
      | body token => cases h; exact .idle ht.symm rfl
      | leaving token =>
        cases h
        refine .acts rfl (k := .go) ?_ (hD _ _ _ ⟨by simp, by simp⟩)
        rw [ht]
        rfl
      | clearing token exc =>
        cases h
        refine .acts rfl (k := .go) ?_ (hD _ _ _ ⟨by simp, by simp⟩)
        rw [ht]
        rfl
      | pushing token exc =>
        cases h
        obtain ⟨b, hb⟩ := exitSlot_plain c text exc
        rw [hb]
        refine .acts rfl (k := .go) ?_ (hD _ _ _ ⟨by simp, by simp⟩)
        rw [ht]
        rfl
    | fail isPoison =>
      cases pc with
      | body token =>
        cases h
        refine .acts rfl (k := .go) ?_ (hD _ _ _ ⟨by simp, by simp⟩)
        rw [ht]
        rfl
      | _ => cases h; exact hlost ⟨by simp, by simp⟩ _
    | cancel =>
      cases pc with
      | body token =>
        cases h
        refine .acts rfl (k := .go) ?_ (hD _ _ _ ⟨by simp, by simp⟩)
        rw [ht]
        rfl
      | _ => cases h; exact hlost ⟨by simp, by simp⟩ _
    | crash => cases pc <;> · cases h; exact token_lost (fun k r => hD k .crash r ⟨by simp, by simp⟩) ht
    | duplicate => cases pc <;> cases h
  | renew =>
    cases pc with
    | body token =>
      cases h
      refine .acts rfl (k := .renew) ?_ (hD _ _ _ ⟨by simp, by simp⟩)
      rw [ht]
      rfl
    | leaving token =>
      cases h
      refine .acts rfl (k := .renew) ?_ (hD _ _ _ ⟨by simp, by simp⟩)
      rw [ht]
      rfl
    | _ => cases h
  | startReseed => cases pc <;> cases h
  | startReap => cases pc <;> cases h

/-- **The step lemma of the semaphore**: `D` is up to the maintenance loops. -/
theorem sem_follows (hD : ∀ c k r, Mirrors i k → D t (.act (.client c) k) r)
    (hslot : ∀ o r, D t (.env (.slot o)) r)
    (hm : ∀ b k, a = .maintenance b → i.maintain = some k → D t (.act b k) sh'.sem)
    (h : act cfg n sh a i = some (sh', outs)) (ht : t.shared = sh.sem) :
    Follows (Semaphore.system n) D semView t a sh' outs := by
  cases a with
  | plain a =>
    cases i with
    | step i =>
      rcases plainAct_cases h with ⟨c, text, _, _, rfl, rfl⟩ | ⟨_, d, l, _, rfl, rfl⟩
      · refine .joins rfl (e := .slot c.msg.body.taskId) ?_ (hslot _ _)
        rw [ht]
        rfl
      · exact .idle ht.symm (plain_sem l)
    | _ => cases h
  | slot c text pc => exact slot_sem hD h ht
  | maintenance a =>
    obtain ⟨k, r, l, hk, hact, rfl, rfl⟩ := maintenance_cases h
    refine .acts rfl (k := k) ?_ (hm a k rfl hk)
    change Semaphore.act n t.shared a k = some (r, (l.map Agent.maintenance).filterMap Agent.sem)
    rw [ht, maintenance_sem, hact]

theorem sem_echoes {e : Env} (hboot : ∀ r, D t (.env .boot) r)
    (hexpire : ∀ token, e = .expire token → D t (.env (.expire token)) sh'.sem)
    (hwipe : e = .data .wipeRedis → D t (.env .wipe) sh'.sem)
    (h : env sh e = some (sh', outs)) (ht : t.shared = sh.sem) :
    Echoes (Semaphore.system n) D semView t sh' outs := by
  cases e with
  | data e =>
    obtain ⟨⟨d, l⟩, henv, hr⟩ := Option.map_eq_some_iff.mp h
    cases hr
    by_cases he : e = .wipeRedis
    · subst he
      refine .env (e := .wipe) ?_ (hwipe rfl)
      change Semaphore.env t.shared .wipe = some ({}, (l.map Agent.plain).filterMap Agent.sem)
      rw [plain_sem]
      rfl
    · refine .idle ?_ (plain_sem l)
      change (if e = .wipeRedis then {} else sh.sem) = t.shared
      rw [if_neg he, ht]
  | boot =>
    cases h
    refine .env (e := .boot) ?_ (hboot _)
    rw [ht]
    rfl
  | expire token =>
    cases h
    refine .env (e := .expire token) ?_ (hexpire token rfl)
    rw [ht]
    rfl

end Sem

end Engine
end AudioEngine
