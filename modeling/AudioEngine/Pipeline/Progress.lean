import AudioEngine.Lib.Leads
import AudioEngine.Pipeline.Consistency
import AudioEngine.Pipeline.Recovery
import AudioEngine.Pipeline.Stages

/-!
# AudioEngine.Pipeline.Progress

Every job can still be completed.

`Recovery` shows that no job is left without a message that carries it on. Here these messages are
used: from every state of a run without losses and dead letters, further deliveries lead a job whose
manuscript parses to `COMPLETED`, however many workers have crashed at whatever points and whatever
is queued, duplicated or locked.

The parts are a handler that is let run, which returns (`drive`), and the three handlers in turn.
What a message publishes belongs to a later handler, so running messages of the first handlers ends.
-/

namespace AudioEngine
namespace Pipeline

open Relational Interleave

/-! ## A handler that is let run -/

/-- The step does not raise, and what comes next is in order. -/
def Next.Goes {P : Type} (A : P → Prop) : Next P → Prop
  | .goto _ pc _ => A pc
  | .done _ _ => True
  | .raise => False

/-- What a handler still has ahead, loops second. -/
def ParsePc.ahead : ParsePc → Nat × Nat
  | .validate => (6, 0)
  | .loadJob => (5, 0)
  | .loadText _ => (4, 0)
  | .simulate _ => (3, 0)
  | .seed _ => (2, 0)
  | .advance _ => (1, 0)
  | .publishStitch => (0, 0)
  | .publishTts n i => (0, n - i)

def TtsPc.ahead : TtsPc → Nat × Nat
  | .validate => (13, 0)
  | .loadTask => (12, 0)
  | .loadJob _ => (11, 0)
  | .loadText _ _ => (10, 0)
  | .cacheGet _ => (9, 0)
  | .acquireInflight _ => (8, 0)
  | .enterSlot _ => (7, 0)
  | .putAudio _ => (6, 0)
  | .leaveSlot _ => (5, 0)
  | .cacheSet _ => (4, 0)
  | .releaseInflight _ => (3, 0)
  | .waitForCache _ n => (3, n)
  | .complete _ => (2, 0)
  | .reread => (1, 0)
  | .publish => (0, 0)

def StitchPc.ahead : StitchPc → Nat × Nat
  | .validate => (7, 0)
  | .loadJob => (6, 0)
  | .loadChunks => (5, 0)
  | .advance _ => (4, 0)
  | .getParts keys _ => (3, keys.length)
  | .putFinal _ => (2, 0)
  | .finalize => (1, 0)
  | .notify => (0, 0)

def Work.ahead : Work → Nat × Nat
  | .parse pc => pc.ahead
  | .tts pc => pc.ahead
  | .stitch pc => pc.ahead

/-- Polling for the cache entry of another worker. -/
def TtsPc.waits : TtsPc → Bool
  | .waitForCache _ _ => true
  | _ => false

def Work.waits : Work → Bool
  | .tts pc => pc.waits
  | _ => false

def Before (a b : Nat × Nat) : Prop := Prod.Lex (· < ·) (· < ·) a b

theorem Next.Goes.map {P Q : Type} {A : P → Prop} {B : Q → Prop} {n : Next P} (f : P → Q)
    (hA : ∀ pc, A pc → B (f pc)) (h : n.Goes A) : (n.map f).Goes B := by
  cases n with
  | goto sh pc pub => exact hA pc h
  | done sh pub => trivial
  | raise => exact h.elim

/-- The manuscript parses and its rows fit into one insert. -/
structure Parses (cfg : Settings) (j m : String) : Prop where
  clean : ¬ poisonMarker.toList <:+: m.toList
  fits : (insertTasks j (blocksOf cfg m)).length ≤ maxQueryArguments

section Goes

variable {cfg : Settings} {sh : Shared} {j t m : String}

theorem parse_goes (hs : Sound cfg sh) (he : Past sh j 0) (hm : .posted j m ∈ sh.trace)
    (hparses : Parses cfg j m) {pc : ParsePc} (h : ParseOk cfg sh j pc) :
    (parseStep cfg sh (.jobCreated j) pc).Goes fun pc' => Before pc'.ahead pc.ahead := by
  obtain ⟨job, hjob, _⟩ := he
  have htext := hs.getText hm
  cases pc with
  | validate => exact .left _ _ (by simp)
  | loadJob =>
    simp only [parseStep, Event.jobId_jobCreated, hjob]
    exact .left _ _ (by simp)
  | loadText key =>
    rw [show key = rawKey j from h]
    simp only [parseStep, htext]
    exact .left _ _ (by simp)
  | simulate text =>
    obtain rfl : text = m := Option.some.inj ((show sh.getText (rawKey j) = some text from h).symm.trans htext)
    simp only [parseStep, simulateParse, if_neg hparses.clean]
    exact .left _ _ (by simp)
  | seed blocks =>
    obtain ⟨text, ht, rfl⟩ := h
    obtain rfl : text = m := Option.some.inj (ht.symm.trans htext)
    obtain ⟨db, won, hseed⟩ := seedTasks_named (blocksOf cfg text) hjob fun t ht => hs.named ht
    simp only [parseStep, Event.jobId_jobCreated, executeSeed_eq_ok.mpr ⟨hparses.fits, hseed⟩]
    exact .left _ _ (by simp)
  | advance n =>
    show Before (if n = 0 then ParsePc.publishStitch else .publishTts n 0).ahead _
    split
    · exact .left _ _ (by simp)
    · exact .left _ _ (by simp)
  | publishStitch => trivial
  | publishTts n i =>
    simp only [parseStep]
    split
    · exact .right _ (by omega)
    · trivial

/-- The claim of a task commits when its job exists. -/
theorem claim_commits {guard : TaskStatus → Bool} {set : Task → Task}
    {hset : ∀ t, (set t).taskId = t.taskId} {db : Db} {job : Job} (hjob : db.jobs.get j = some job)
    (t : String) : ∃ db' r, claimAndDecrement guard set hset db j t = .ok (db', r) := by
  unfold claimAndDecrement
  dsimp only
  split
  · exact ⟨_, _, rfl⟩
  · split
    · rename_i hnone
      rw [Table.get_update, hjob] at hnone
      cases hnone
    · exact ⟨_, _, rfl⟩

theorem tts_goes (hs : Sound cfg sh) (he : EventOk sh (.ttsRequested j t)) {pc : TtsPc}
    (h : TtsOk sh j t pc) (hw : pc.waits = false)
    (hfree : ∀ text, pc = .acquireInflight text → sh.inflight (contentHash text) = none) :
    (ttsStep sh (.ttsRequested j t) pc).Goes fun pc' =>
      Before pc'.ahead pc.ahead ∧ pc'.waits = false := by
  obtain ⟨⟨task, htask, howner⟩, job, hjob, _⟩ := he
  cases pc with
  | validate => exact ⟨.left _ _ (by simp), rfl⟩
  | loadTask =>
    simp only [ttsStep, Event.taskId_ttsRequested, htask]
    exact ⟨.left _ _ (by simp), rfl⟩
  | loadJob i =>
    simp only [ttsStep, Event.jobId_ttsRequested, hjob]
    exact ⟨.left _ _ (by simp), rfl⟩
  | loadText i key =>
    obtain ⟨⟨task', htask', rfl⟩, rfl⟩ := h
    obtain rfl := Option.some.inj (htask.symm.trans htask')
    obtain ⟨m, block, hm, hblock, _⟩ := hs.row_block htask
    rw [howner] at hm
    simp only [ttsStep, hs.getText hm, hblock]
    exact ⟨.left _ _ (by simp), rfl⟩
  | cacheGet text =>
    simp only [ttsStep]
    split
    · exact ⟨.left _ _ (by simp), rfl⟩
    · exact ⟨.left _ _ (by simp), rfl⟩
  | acquireInflight text =>
    simp only [ttsStep, hfree text rfl]
    exact ⟨.left _ _ (by simp), rfl⟩
  | waitForCache text n => cases hw
  | complete key =>
    obtain ⟨db', r, hc⟩ : ∃ db' r, completeTaskAndDecrement sh.db j t key = .ok (db', r) :=
      claim_commits hjob t
    simp only [ttsStep, Event.jobId_ttsRequested, Event.taskId_ttsRequested, hc]
    split
    · exact ⟨.left _ _ (by simp), rfl⟩
    · split
      · exact ⟨.left _ _ (by simp), rfl⟩
      · trivial
  | reread =>
    simp only [ttsStep, Event.jobId_ttsRequested, hjob]
    split
    · exact ⟨.left _ _ (by simp), rfl⟩
    · trivial
  | publish => trivial
  | _ => exact ⟨.left _ _ (by simp), rfl⟩

theorem stitch_goes (he : Past sh j 2) {pc : StitchPc} (hc : (Stage.work (.stitch pc)).ChunksOk sh) :
    (stitchStep sh (.stitchReady j) pc).Goes fun pc' => Before pc'.ahead pc.ahead := by
  obtain ⟨job, hjob, _⟩ := he
  cases pc with
  | loadJob =>
    simp only [stitchStep, Event.jobId_stitchReady, hjob]
    split
    · trivial
    · exact .left _ _ (by simp)
  | getParts keys parts =>
    cases keys with
    | nil => exact .left _ _ (by simp)
    | cons key keys =>
      obtain ⟨k, rfl, hstored⟩ := hc key (by simp)
      have hobj : sh.objects (ttsKey k) = some (audioOf k) := hstored
      simp only [stitchStep, hobj]
      exact .right _ (by simp)
  | finalize =>
    simp only [stitchStep]
    split
    · exact .left _ _ (by simp)
    · trivial
  | notify => trivial
  | _ => exact .left _ _ (by simp)

end Goes

/-! ## Running a message -/

/-- The task insert of the step is one the driver takes. -/
def InsertFits (a : Agent) (i : Choice) : Prop :=
  ∀ c blocks, a = .copy c → i = .go → c.stage = .work (.parse (.seed blocks)) →
    (insertTasks c.msg.body.jobId blocks).length ≤ maxQueryArguments

/-- A step without loss and dead letter whose insert fits. -/
def Smooth (cfg : Settings) (a : Agent) (i : Choice) : Prop := Delivered cfg a i ∧ InsertFits a i

/-- A way on by such steps. -/
abbrev Way (cfg : Settings) : State → State → Prop :=
  Leads (system cfg) fun _ a i => Smooth cfg a i

/-- The handler of the message can get to its end. -/
def Copy.Runnable (cfg : Settings) (sh : Shared) (c : Copy) : Prop :=
  ∀ j, c.msg.body = .jobCreated j → ∃ m, .posted j m ∈ sh.trace ∧ Parses cfg j m

/-- The order of the handlers. -/
def turn : Event → Nat
  | .jobCreated _ => 0
  | .ttsRequested _ _ => 1
  | .stitchReady _ => 2

/-- The last step of the handler of `c`, which is acked in `s'`. -/
structure Returned (cfg : Settings) (s : State) (c : Copy) (s' : State) (pubs rest : List Agent) :
    Prop where
  way : Way cfg s s'
  agents : s'.agents = pubs ++ rest
  later : ∀ b ∈ pubs, ∃ c', b = .copy c' ∧ turn c.msg.body < turn c'.msg.body
  last : ∃ s₁ w sh₁ pub, Way cfg s s₁ ∧ .copy { c with stage := .work w } ∈ s₁.agents ∧
    w.step cfg s₁.shared c.msg.body = .done sh₁ pub ∧ s'.shared = (emit sh₁ pub).1

section Drive

variable {cfg : Settings} {s s' : State} {c : Copy} {w : Work} {rest : List Agent}

theorem Way.delivered (h : Way cfg s s') :
    Leads (system cfg) (fun _ a i => Delivered cfg a i) s s' :=
  h.mono fun _ _ _ hs => hs.1

theorem Way.evolved {P : Shared → Prop}
    (hP : ∀ {s s' : State}, Reach (system cfg) (fun _ a i => Delivered cfg a i) s →
      Evolves cfg s.shared s'.shared → P s.shared → P s'.shared)
    (h : Reach (system cfg) (fun _ a i => Delivered cfg a i) s) (hw : Way cfg s s')
    (hp : P s.shared) : P s'.shared := by
  refine Leads.keeps ?_ h hw.delivered hp
  intro s s' hr hs hp
  obtain ⟨F, heff⟩ := step_effect hr hs
  exact hP hr (heff.evolves (reach_data hr).1) hp

theorem Way.posted {j m : String} (h : Reach (system cfg) (fun _ a i => Delivered cfg a i) s)
    (hw : Way cfg s s') (hp : .posted j m ∈ s.shared.trace) : .posted j m ∈ s'.shared.trace := by
  refine Way.evolved (P := fun sh => .posted j m ∈ sh.trace) ?_ h hw hp
  intro s s' _ hev hp
  obtain ⟨os, hos⟩ := hev.trace
  rw [hos]
  exact List.mem_append_right os hp

/-- What a handler publishes belongs to a later handler. -/
theorem work_publishes {sh : Shared} {l : Live} {e : Event} (h : (Agent.copy c).Holds cfg sh)
    (hst : c.stage = .work w) (hp : (w.step cfg sh c.msg.body).pub = some (l, e)) :
    turn c.msg.body < turn e := by
  have hok := h.2.2
  rw [hst] at hok
  cases w with
  | parse pc =>
    obtain ⟨j, hj, _⟩ := hok
    rw [hj] at hp ⊢
    rw [Work.step, Next.pub_map] at hp
    cases pc with
    | publishStitch => cases hp; simp [turn]
    | publishTts n i =>
      simp only [parseStep] at hp
      split at hp
      · cases hp; simp [turn]
      · cases hp; simp [turn]
    | _ =>
      simp only [parseStep] at hp
      (try split at hp) <;> cases hp
  | tts pc =>
    obtain ⟨j, t, hj, _⟩ := hok
    rw [hj] at hp ⊢
    rw [Work.step, Next.pub_map] at hp
    cases pc with
    | publish => cases hp; simp [turn]
    | _ =>
      simp only [ttsStep] at hp
      (repeat' split at hp) <;> cases hp
  | stitch pc =>
    obtain ⟨j, hj, _⟩ := hok
    rw [hj] at hp
    rw [Work.step, Next.pub_map] at hp
    cases pc with
    | getParts keys parts =>
      cases keys <;> simp only [stitchStep] at hp <;> (try split at hp) <;> cases hp
    | _ =>
      simp only [stitchStep] at hp
      (repeat' split at hp) <;> cases hp

theorem emitted_later {sh sh₁ : Shared} {pub : Option (Live × Event)}
    (h : (Agent.copy c).Holds cfg sh) (hst : c.stage = .work w)
    (hp : (w.step cfg sh c.msg.body).pub = pub) :
    ∀ b ∈ (emit sh₁ pub).2, ∃ c', b = .copy c' ∧ turn c.msg.body < turn c'.msg.body := by
  intro b hb
  cases pub with
  | none => cases hb
  | some p =>
    rw [emit, List.mem_singleton] at hb
    exact ⟨_, hb, work_publishes h hst hp⟩

/-- A handler at any point but the polling loop goes on. -/
theorem work_goes (h : Reach (system cfg) (fun _ a i => Delivered cfg a i) s)
    (hc : .copy c ∈ s.agents) (hst : c.stage = .work w) (hr : c.Runnable cfg s.shared)
    (hw : w.waits = false)
    (hfree : ∀ text, w = .tts (.acquireInflight text) → s.shared.inflight (contentHash text) = none) :
    (w.step cfg s.shared c.msg.body).Goes fun w' => Before w'.ahead w.ahead ∧ w'.waits = false := by
  obtain ⟨hs, hA⟩ := reach_data h
  obtain ⟨_, he, hok⟩ := hA _ hc
  rw [hst] at hok
  cases w with
  | parse pc =>
    obtain ⟨j, hj, hpc⟩ := hok
    obtain ⟨m, hm, hparses⟩ := hr j hj
    rw [hj] at he ⊢
    exact (parse_goes hs he hm hparses hpc).map Work.parse fun pc' hb => ⟨hb, rfl⟩
  | tts pc =>
    obtain ⟨j, t, hj, hpc⟩ := hok
    rw [hj] at he ⊢
    refine (tts_goes hs he hpc hw ?_).map Work.tts fun pc' hb => hb
    intro text htext
    exact hfree text (by rw [htext])
  | stitch pc =>
    obtain ⟨j, hj, _⟩ := hok
    have hchunks := reach_chunks h _ hc
    rw [Agent.ChunksOk, hst] at hchunks
    rw [hj] at he ⊢
    exact (stitch_goes he hchunks).map Work.stitch fun pc' hb => ⟨hb, rfl⟩

/-- The lock a handler is about to take expires. -/
theorem unlocked (cfg : Settings) (s : State) (w : Work) :
    ∃ s₀, Way cfg s s₀ ∧ s₀.agents = s.agents ∧ s₀.shared.trace = s.shared.trace ∧
      ∀ text, w = .tts (.acquireInflight text) → s₀.shared.inflight (contentHash text) = none := by
  by_cases h : ∃ text, w = .tts (.acquireInflight text)
  · obtain ⟨text, rfl⟩ := h
    refine ⟨_, Leads.env (e := Env.expireInflight (contentHash text)) rfl (Leads.refl _), rfl, rfl, ?_⟩
    intro text' he
    cases he
    exact Function.update_self ..
  · exact ⟨s, Leads.refl s, rfl, rfl, fun text he => absurd ⟨text, he⟩ h⟩

theorem Copy.Runnable.mono {sh sh' : Shared} (h : c.Runnable cfg sh) (he : Evolves cfg sh sh') :
    c.Runnable cfg sh' := by
  intro j hj
  obtain ⟨m, hm, hp⟩ := h j hj
  obtain ⟨os, hos⟩ := he.trace
  exact ⟨m, by rw [hos]; exact List.mem_append_right os hm, hp⟩

/-- A step of a handler that can get to its end is smooth. -/
theorem smooth_work (h : Reach (system cfg) (fun _ a i => Delivered cfg a i) s)
    (hc : .copy c ∈ s.agents) (hst : c.stage = .work w) (hr : c.Runnable cfg s.shared) :
    Smooth cfg (.copy c) .go := by
  refine ⟨⟨?_, ?_⟩, ?_⟩
  · simp [Agent.loses, Copy.loses, hst]
  · simp [Agent.deadLettered, hst]
  · intro c' blocks he _ hb
    cases he
    obtain ⟨hs, hA⟩ := reach_data h
    have hok := (hA _ hc).2.2
    rw [hb] at hok
    obtain ⟨j, hj, text, htext, rfl⟩ := hok
    obtain ⟨m, hm, hp⟩ := hr j hj
    obtain rfl : text = m := Option.some.inj (htext.symm.trans (hs.getText hm))
    rw [hj]
    exact hp.fits

end Drive

/-- **A handler that is let run returns**, and its message is acked. -/
theorem drive {cfg : Settings} {s : State} {c : Copy} {w : Work} {rest : List Agent}
    (h : Reach (system cfg) (fun _ a i => Delivered cfg a i) s)
    (hp : s.agents.Perm (.copy { c with stage := .work w } :: rest))
    (hr : c.Runnable cfg s.shared) (hw : w.waits = false) :
    ∃ s' pubs, Returned cfg s c s' pubs rest := by
  obtain ⟨s₀, hway, hagents, htrace, hfree⟩ := unlocked cfg s w
  have h₀ := h.leads hway.delivered
  have hp₀ : s₀.agents.Perm (.copy { c with stage := .work w } :: rest) := hagents ▸ hp
  have hc₀ : .copy { c with stage := .work w } ∈ s₀.agents := hp₀.mem_iff.mpr (by simp)
  have hr₀ : Copy.Runnable cfg s₀.shared { c with stage := .work w } := by
    intro j hj
    rw [htrace]
    exact hr j hj
  have hsmooth := smooth_work h₀ hc₀ rfl hr₀
  have hgoes := work_goes h₀ hc₀ rfl hr₀ hw hfree
  have hheld := (reach_data h₀).2 _ hc₀
  cases hstep : w.step cfg s₀.shared c.msg.body with
  | raise =>
    rw [hstep] at hgoes
    exact hgoes.elim
  | goto sh₁ w₁ pub =>
    rw [hstep] at hgoes
    obtain ⟨hbefore, hw₁⟩ := hgoes
    have hact : act cfg s₀.shared (.copy { c with stage := .work w }) .go =
        some ((emit sh₁ pub).1, .copy { c with stage := .work w₁ } :: (emit sh₁ pub).2) := by
      simp only [act, Copy.act, hstep]
    have hone : Way cfg s₀ ⟨_, _ ++ rest⟩ := Leads.act hp₀ hsmooth hact (Leads.refl _)
    have hev := (reach_act (i := .go) h₀ hc₀ hact).evolves (reach_data h₀).1
    -- the loops of the handlers come to an end
    have : Before w₁.ahead w.ahead := hbefore
    have hp₁ : (.copy { c with stage := .work w₁ } :: (emit sh₁ pub).2 ++ rest).Perm
        (.copy { c with stage := .work w₁ } :: ((emit sh₁ pub).2 ++ rest)) := .refl _
    obtain ⟨s', pubs, hret⟩ := drive (h₀.leads hone.delivered) hp₁ (Copy.Runnable.mono hr₀ hev) hw₁
    obtain ⟨s₁, w₂, sh₂, pub₂, hway₁, hc₁, hdone, hsh⟩ := hret.last
    refine ⟨s', pubs ++ (emit sh₁ pub).2, (hway.trans hone).trans hret.way, ?_, ?_, ?_⟩
    · rw [hret.agents, List.append_assoc]
    · intro b hb
      rcases List.mem_append.mp hb with hb | hb
      · exact hret.later b hb
      · refine emitted_later hheld rfl ?_ b hb
        rw [hstep]
        rfl
    · exact ⟨s₁, w₂, sh₂, pub₂, (hway.trans hone).trans hway₁, hc₁, hdone, hsh⟩
  | done sh₁ pub =>
    have hact : act cfg s₀.shared (.copy { c with stage := .work w }) .go =
        some ((emit sh₁ pub).1, .copy { c with stage := .acking } :: (emit sh₁ pub).2) := by
      simp only [act, Copy.act, hstep]
    have hack : act cfg (emit sh₁ pub).1 (.copy { c with stage := .acking }) .go =
        some ((emit sh₁ pub).1, []) := rfl
    have hsmooth' : Smooth cfg (.copy { c with stage := .acking }) .go := by
      refine ⟨⟨rfl, rfl⟩, ?_⟩
      rintro c' blocks he _ hb
      cases he
      cases hb
    refine ⟨⟨(emit sh₁ pub).1, (emit sh₁ pub).2 ++ rest⟩, (emit sh₁ pub).2, ?_, rfl, ?_, ?_⟩
    · refine hway.trans (Leads.act hp₀ hsmooth hact ?_)
      exact Leads.act (.refl _) hsmooth' hack (Leads.refl _)
    · refine emitted_later (c := { c with stage := .work w }) hheld rfl ?_
      rw [hstep]
      rfl
    · exact ⟨s₀, w, sh₁, pub, hway, hc₀, hstep, rfl⟩
termination_by w.ahead
decreasing_by exact this

section Restart

variable {cfg : Settings} {s : State} {c : Copy} {rest : List Agent}

theorem smooth_ready (hst : c.stage = .ready) : Smooth cfg (.copy c) .go := by
  refine ⟨⟨by simp [Agent.loses, Copy.loses, hst], by simp [Agent.deadLettered, hst]⟩, ?_⟩
  rintro c' blocks he _ hb
  cases he
  rw [hst] at hb
  cases hb

/-- A worker that holds the message crashes, and it is back in its queue. -/
theorem requeue (cfg : Settings) (hp : s.agents.Perm (.copy c :: rest)) :
    ∃ s', Way cfg s s' ∧ s'.shared = s.shared ∧
      s'.agents.Perm (.copy { c with stage := .ready } :: rest) := by
  by_cases hst : c.stage = .ready
  · have hc : { c with stage := .ready } = c := by rw [← hst]
    exact ⟨s, Leads.refl s, rfl, by rw [hc]; exact hp⟩
  · have hact : act cfg s.shared (.copy c) .crash = some (s.shared, [.copy { c with stage := .ready }]) := by
      simp only [act, Copy.act]
    have hsmooth : Smooth cfg (.copy c) .crash := by
      refine ⟨⟨?_, ?_⟩, fun _ _ _ hi => by cases hi⟩
      · simp only [Agent.loses, Copy.loses]
        cases c.stage <;> rfl
      · simp only [Agent.deadLettered]
        cases c.stage <;> rfl
    exact ⟨_, Leads.act hp hsmooth hact (Leads.refl _), rfl, .refl _⟩

/-- Any message outside the dead-letter queue can be delivered to its handler. -/
theorem restart (h : Reach (system cfg) (fun _ a i => Delivered cfg a i) s)
    (hp : s.agents.Perm (.copy c :: rest)) :
    ∃ (s' : State) (c' : Copy), Way cfg s s' ∧ s'.shared = s.shared ∧ c'.msg = c.msg ∧
      s'.agents.Perm (.copy { c' with stage := .work (.start (home c.msg.body)) } :: rest) := by
  have hmem : .copy c ∈ s.agents := hp.mem_iff.mpr (by simp)
  have hoff := (off_dlq h _ hmem).1
  obtain ⟨s₁, hway₁, hsh₁, hp₁⟩ := requeue cfg hp
  have deliver : ∀ (s₂ : State) (c₂ : Copy), Way cfg s s₂ → s₂.shared = s.shared →
      c₂.msg = c.msg → c₂.stage = .ready → c₂.queue = .live (home c.msg.body) →
      s₂.agents.Perm (.copy c₂ :: rest) → ∃ (s' : State) (c' : Copy), Way cfg s s' ∧
        s'.shared = s.shared ∧ c'.msg = c.msg ∧
        s'.agents.Perm (.copy { c' with stage := .work (.start (home c.msg.body)) } :: rest) := by
    intro s₂ c₂ hway hsh hmsg hst hq hp₂
    have hact : act cfg s₂.shared (.copy c₂) .go =
        some (s₂.shared, [.copy { c₂ with stage := .work (.start (home c.msg.body)) }]) := by
      simp only [act, Copy.act, hst, hq]
    exact ⟨_, c₂, hway.trans (Leads.act hp₂ (smooth_ready hst) hact (Leads.refl _)), hsh, hmsg, .refl _⟩
  rcases ((reach_data h).2 _ hmem).1 with hq | hq | ⟨d, hq⟩
  · exact absurd hq hoff
  · exact deliver s₁ { c with stage := .ready } hway₁ hsh₁ rfl rfl hq hp₁
  · -- out of the delay queue first
    have hact : act cfg s₁.shared (.copy { c with stage := .ready }) .go =
        some (s₁.shared, [.copy ⟨.live (home c.msg.body), c.msg, .ready⟩]) := by
      simp only [act, Copy.act, hq]
    exact deliver _ ⟨.live (home c.msg.body), c.msg, .ready⟩
      (hway₁.trans (Leads.act hp₁ (smooth_ready rfl) hact (Leads.refl _))) hsh₁ rfl rfl rfl (.refl _)

end Restart

/-! ## Processing a message -/

/-- A message of the job for the `n`th handler. -/
def Agent.isTurn (j : String) (n : Nat) : Agent → Bool
  | .copy c => decide (c.msg.body.jobId = j) && decide (turn c.msg.body = n)
  | _ => false

/-- How many messages of the job the `n`th handler has. -/
def turns (s : State) (j : String) (n : Nat) : Nat := s.agents.countP (Agent.isTurn j n)

/-- The handler of the message `c` has returned in `s'`, after its last step from `s₁`. The message
is gone, and earlier handlers have no new ones. -/
structure Processed (cfg : Settings) (s : State) (c : Copy) (s' : State) : Prop where
  way : Way cfg s s'
  fewer : turns s' c.msg.body.jobId (turn c.msg.body) < turns s c.msg.body.jobId (turn c.msg.body)
  same : ∀ n < turn c.msg.body, turns s' c.msg.body.jobId n = turns s c.msg.body.jobId n
  last : ∃ s₁ c₁ w sh₁ pub, Reach (system cfg) (fun _ a i => Delivered cfg a i) s₁ ∧ Way cfg s s₁ ∧
    .copy c₁ ∈ s₁.agents ∧ c₁.msg = c.msg ∧ c₁.stage = .work w ∧
    w.step cfg s₁.shared c.msg.body = .done sh₁ pub ∧ s'.shared = (emit sh₁ pub).1 ∧
    Evolves cfg s₁.shared s'.shared

section Processing

variable {cfg : Settings} {s s' : State} {c c' : Copy} {pubs rest : List Agent} {j t m : String}

theorem Returned.turns_eq (h : Returned cfg s c' s' pubs rest) (hmsg : c'.msg = c.msg)
    (hp : s.agents.Perm (.copy c :: rest)) {n : Nat} (hn : n ≤ turn c.msg.body) :
    turns s c.msg.body.jobId n =
      turns s' c.msg.body.jobId n + if turn c.msg.body = n then 1 else 0 := by
  have hpubs : pubs.countP (Agent.isTurn c.msg.body.jobId n) = 0 := by
    refine List.countP_eq_zero.mpr fun b hb => ?_
    obtain ⟨b, rfl, hlt⟩ := h.later b hb
    rw [hmsg] at hlt
    have hne : turn b.msg.body ≠ n := by omega
    simp [Agent.isTurn, hne]
  rw [turns, turns, hp.countP_eq, h.agents, List.countP_append, hpubs, List.countP_cons]
  simp [Agent.isTurn]

theorem Returned.processed (h : Returned cfg s c' s' pubs rest) (hmsg : c'.msg = c.msg)
    (hp : s.agents.Perm (.copy c :: rest))
    (hr : Reach (system cfg) (fun _ a i => Delivered cfg a i) s) : Processed cfg s c s' where
  way := h.way
  fewer := by
    have := h.turns_eq hmsg hp (Nat.le_refl _)
    rw [if_pos rfl] at this
    omega
  same := by
    intro n hn
    have := h.turns_eq hmsg hp hn.le
    rw [if_neg (by omega)] at this
    omega
  last := by
    obtain ⟨s₁, w, sh₁, pub, hway, hc, hstep, hsh⟩ := h.last
    have hr₁ := hr.leads hway.delivered
    have hact : act cfg s₁.shared (.copy { c' with stage := .work w }) .go =
        some ((emit sh₁ pub).1, .copy { c' with stage := .acking } :: (emit sh₁ pub).2) := by
      simp only [act, Copy.act, hstep]
    have hev := (reach_act (i := .go) hr₁ hc hact).evolves (reach_data hr₁).1
    rw [hmsg] at hstep
    exact ⟨s₁, _, w, sh₁, pub, hr₁, hway, hc, hmsg, rfl, hstep, hsh, by rw [hsh]; exact hev⟩

/-- Any message outside the dead-letter queue can be processed to its end. -/
theorem processed (h : Reach (system cfg) (fun _ a i => Delivered cfg a i) s)
    (hc : .copy c ∈ s.agents) (hr : c.Runnable cfg s.shared) : ∃ s', Processed cfg s c s' := by
  obtain ⟨l₁, l₂, hl⟩ := List.append_of_mem hc
  have hp : s.agents.Perm (.copy c :: (l₁ ++ l₂)) := hl ▸ List.perm_middle
  obtain ⟨s₁, c', hway, hsh, hmsg, hp₁⟩ := restart h hp
  have hr' : c'.Runnable cfg s₁.shared := by
    intro j hj
    rw [hsh]
    exact hr j (by rw [← hmsg]; exact hj)
  have hw : (Work.start (home c.msg.body)).waits = false := by
    cases c.msg.body <;> rfl
  obtain ⟨s', pubs, hret⟩ := drive (h.leads hway.delivered) hp₁ hr' hw
  obtain ⟨s₂, w, sh₂, pub, hway₂, hlast⟩ := hret.last
  have hall : Returned cfg s c' s' pubs (l₁ ++ l₂) :=
    ⟨hway.trans hret.way, hret.agents, hret.later, s₂, w, sh₂, pub, hway.trans hway₂, hlast⟩
  exact ⟨s', hall.processed hmsg hp h⟩

/-- Processing a `JobCreated` brings the job past its fan-out. -/
theorem run_parse (h : Reach (system cfg) (fun _ a i => Delivered cfg a i) s)
    (hm : .posted j m ∈ s.shared.trace) (hparses : Parses cfg j m) (hc : .copy c ∈ s.agents)
    (hb : c.msg.body = .jobCreated j) :
    ∃ s', Way cfg s s' ∧ Past s'.shared j 2 ∧ turns s' j 0 < turns s j 0 := by
  have hrun : c.Runnable cfg s.shared := by
    intro k hk
    rw [hb] at hk
    cases hk
    exact ⟨m, hm, hparses⟩
  obtain ⟨s', hproc⟩ := processed h hc hrun
  obtain ⟨s₁, c₁, w, sh₁, pub, hr₁, _, hc₁, hmsg, hst, hstep, _, hev⟩ := hproc.last
  have hfewer := hproc.fewer
  rw [hb] at hfewer hstep
  refine ⟨s', hproc.way, ?_, hfewer⟩
  obtain ⟨pc, rfl, hpc⟩ := work_jobCreated ((reach_data hr₁).2 _ hc₁) (by rw [hmsg, hb]) hst
  have hpast : Past s₁.shared j 2 := by
    rcases parse_returns (Next.map_eq_done hstep) with ⟨rfl, _⟩ | ⟨n, i, rfl, _⟩
    · exact hpc.2
    · exact hpc.2.2
  exact hpast.mono hev

/-- Processing a `TtsRequested` completes its task. -/
theorem run_tts (h : Reach (system cfg) (fun _ a i => Delivered cfg a i) s)
    (hc : .copy c ∈ s.agents) (hb : c.msg.body = .ttsRequested j t) :
    ∃ s', Way cfg s s' ∧ (∃ task, s'.shared.db.tasks.get t = some task ∧ task.status = .done) ∧
      turns s' j 0 = turns s j 0 ∧ turns s' j 1 < turns s j 1 := by
  have hrun : c.Runnable cfg s.shared := by
    intro k hk
    rw [hb] at hk
    cases hk
  obtain ⟨s', hproc⟩ := processed h hc hrun
  obtain ⟨s₁, c₁, w, sh₁, pub, hr₁, _, hc₁, hmsg, hst, hstep, hsh, _⟩ := hproc.last
  have hfewer := hproc.fewer
  have hsame := hproc.same 0
  rw [hb] at hfewer hsame hstep
  refine ⟨s', hproc.way, ?_, hsame (by simp [turn]), hfewer⟩
  have hb₁ : c₁.msg.body = .ttsRequested j t := by rw [hmsg, hb]
  have hheld := (reach_data hr₁).2 _ hc₁
  obtain ⟨pc, rfl, hpc⟩ := work_ttsRequested hheld hb₁ hst
  have hrow := hheld.2.1
  rw [hb₁] at hrow
  obtain ⟨⟨task, htask, _⟩, _⟩ := hrow
  rw [hsh, db_emit]
  exact tts_returns_done (Next.map_eq_done hstep) hpc ⟨task, htask⟩

/-- Processing a `StitchReady` ends a job that awaits its stitching. -/
theorem run_stitch (h : Reach (system cfg) (fun _ a i => Delivered cfg a i) s)
    (hc : .copy c ∈ s.agents) (hb : c.msg.body = .stitchReady j) :
    ∃ s', Way cfg s s' ∧ ¬ AwaitsStitch s'.shared j := by
  have hrun : c.Runnable cfg s.shared := by
    intro k hk
    rw [hb] at hk
    cases hk
  obtain ⟨s', hproc⟩ := processed h hc hrun
  obtain ⟨s₁, c₁, w, sh₁, pub, hr₁, _, hc₁, hmsg, hst, hstep, hsh, _⟩ := hproc.last
  rw [hb] at hstep
  refine ⟨s', hproc.way, ?_⟩
  obtain ⟨pc, rfl, hpc⟩ := work_stitchReady ((reach_data hr₁).2 _ hc₁) (by rw [hmsg, hb]) hst
  rw [hsh]
  exact stitch_returns (Next.map_eq_done hstep) hpc

end Processing

/-! ## The job -/

section Job

variable {cfg : Settings} {s : State} {j m : String}

/-- A `PENDING` task is that of a block. -/
theorem LaidOut.index_lt {sh : Shared} {text : String} {k : Nat} (hl : LaidOut cfg sh j text)
    (h : PendingTask sh j k) : k < (blocksOf cfg text).length := by
  obtain ⟨task, hg, hown, _⟩ := h
  have hid := (Table.get_eq_some.mp hg).2
  obtain ⟨hname, block, hblock, _⟩ := hl.block (mem_tasksOf.mpr ⟨by rw [hid]; exact hg, hown⟩)
  rw [hid] at hname
  rw [(taskIdOf_inj.mp hname).2]
  exact (List.getElem?_eq_some_iff.mp hblock).1

/-- A task of a laid-out job that is not `PENDING` stays so, and no other one appears. -/
theorem LaidOut.not_pending {sh sh' : Shared} {text : String} {k : Nat}
    (hl : LaidOut cfg sh j text) (he : Evolves cfg sh sh') (h : ¬ PendingTask sh j k) :
    ¬ PendingTask sh' j k := by
  intro h'
  obtain ⟨task, hm, _, htid⟩ := hl.row ((he.laid j text hl).index_lt h')
  obtain ⟨task', hg', _, hpend⟩ := h'
  obtain ⟨hg, hj⟩ := mem_tasksOf.mp hm
  rw [htid] at hg
  obtain ⟨x, hx, _, _, hnp⟩ := he.task _ task hg
  obtain rfl := Option.some.inj (hg'.symm.trans hx)
  exact hnp (fun hp => h ⟨task, hg, hj, hp⟩) hpend

theorem none_outstanding (h : Reach (system cfg) (fun _ a i => Delivered cfg a i) s)
    (hk : ∀ k, ¬ PendingTask s.shared j k) : s.shared.db.outstanding j = 0 := by
  refine outstanding_of_none fun task hm hpend => ?_
  obtain ⟨hg, hown⟩ := mem_tasksOf.mp hm
  obtain ⟨⟨text, hl⟩, _⟩ := (reach_data h).1.laid_of_row hm
  rw [(hl.block hm).1] at hg
  exact hk _ ⟨task, hg, hown, hpend⟩

/-- Past the fan-out of a run without dead letters the rows are there, and the job has not failed. -/
theorem fanned (h : Reach (system cfg) (fun _ a i => Delivered cfg a i) s) (hp : Past s.shared j 2) :
    Laid cfg s.shared j ∧ (s.shared.db.status j = some .generating ∨
      s.shared.db.status j = some .stitching ∨ s.shared.db.status j = some .completed) := by
  obtain ⟨job, hg, hrank⟩ := hp
  have hnf := (reach_no_recount (fun _ _ _ hd => hd.2) h).1.job j job hg
  have hst : s.shared.db.status j = some job.status := by rw [Db.status, hg, Option.map_some]
  constructor
  · rcases (reach_data h).1.laid j job hg with ⟨_, hpend | hfail⟩ | ⟨hl, _⟩
    · rw [hpend] at hrank
      cases hrank
    · exact absurd hfail hnf
    · exact hl
  · cases hs : job.status with
    | pending => rw [hs] at hrank; cases hrank
    | parsing => rw [hs] at hrank; exact absurd hrank (by decide)
    | generating => exact .inl (by rw [hst, hs])
    | stitching => exact .inr (.inl (by rw [hst, hs]))
    | completed => exact .inr (.inr (by rw [hst, hs]))
    | failed => exact absurd hs hnf

theorem Way.past {n : Nat} {s' : State} (h : Reach (system cfg) (fun _ a i => Delivered cfg a i) s)
    (hw : Way cfg s s') (hp : Past s.shared j n) : Past s'.shared j n :=
  Way.evolved (P := fun sh => Past sh j n) (fun _ he hp => hp.mono he) h hw hp

theorem Way.not_pending {k : Nat} {s' : State}
    (h : Reach (system cfg) (fun _ a i => Delivered cfg a i) s) (hw : Way cfg s s')
    (hp : Past s.shared j 2) (hk : ¬ PendingTask s.shared j k) : ¬ PendingTask s'.shared j k := by
  have hboth := Way.evolved (P := fun sh => Past sh j 2 ∧ ¬ PendingTask sh j k) ?_ h hw ⟨hp, hk⟩
  · exact hboth.2
  · intro s s' hr he hpk
    obtain ⟨text, hl⟩ := (fanned hr hpk.1).1
    exact ⟨hpk.1.mono he, hl.not_pending he hpk.2⟩

/-- A job can be brought past its fan-out. -/
theorem lead_fanOut {job : Job} (h : Reach (system cfg) (fun _ a i => Delivered cfg a i) s)
    (hm : .posted j m ∈ s.shared.trace) (hparses : Parses cfg j m)
    (hg : s.shared.db.jobs.get j = some job) : ∃ s', Way cfg s s' ∧ Past s'.shared j 2 := by
  have hst : s.shared.db.status j = some job.status := by rw [Db.status, hg, Option.map_some]
  by_cases hpast : 2 ≤ job.status.rank
  · exact ⟨s, Leads.refl s, job, hg, hpast⟩
  cases hs : job.status with
  | pending =>
    -- the sweeper finds it
    rw [hs] at hst
    have henv : (system cfg).env s.shared (.startSweep [j]) = some (s.shared, [.sweep [j]]) := by
      simp [system, env, hst]
    have hsweep : Smooth cfg (.sweep [j]) .go := ⟨⟨rfl, rfl⟩, fun _ _ hc => by cases hc⟩
    have hp : ([Agent.sweep [j]] ++ s.agents).Perm (.sweep [j] :: s.agents) := .refl _
    obtain ⟨s₁, hway, hc, hsh⟩ : ∃ s₁ : State, Way cfg s s₁ ∧
        .copy ⟨.live .parse, publishMessage (.jobCreated j), .ready⟩ ∈ s₁.agents ∧
        .posted j m ∈ s₁.shared.trace := by
      refine ⟨_, Leads.env henv (Leads.act hp hsweep rfl (Leads.refl _)), by simp [emit], ?_⟩
      exact List.mem_cons_of_mem _ hm
    obtain ⟨s', hway', hpast', _⟩ := run_parse (h.leads hway.delivered) hsh hparses hc rfl
    exact ⟨s', hway.trans hway', hpast'⟩
  | parsing =>
    obtain ⟨_, ha, c, rfl, _, hb⟩ := reach_parse_owed h (by rw [hst, hs])
    obtain ⟨s', hway, hpast', _⟩ := run_parse h hm hparses ha hb
    exact ⟨s', hway, hpast'⟩
  | generating => exact absurd (by rw [hs]; decide) hpast
  | stitching => exact absurd (by rw [hs]; decide) hpast
  | completed => exact absurd (by rw [hs]; decide) hpast
  | failed => exact absurd (by rw [hs]; decide) hpast

/-- Each block can be synthesized. -/
theorem lead_task (h : Reach (system cfg) (fun _ a i => Delivered cfg a i) s)
    (hm : .posted j m ∈ s.shared.trace) (hparses : Parses cfg j m) (hp : Past s.shared j 2) (k : Nat) :
    ∃ s', Way cfg s s' ∧ ¬ PendingTask s'.shared j k := by
  -- on the number of `JobCreated` that may have to be run before the block has its own message
  induction hn : turns s j 0 using Nat.strong_induction_on generalizing s with
  | _ n ih =>
    by_cases hk : PendingTask s.shared j k
    · obtain ⟨_, ha, c, rfl, _, hb | ⟨hb, _⟩⟩ := reach_task_owed h hk
      · obtain ⟨s', hway, ⟨task, hg, hdone⟩, _⟩ := run_tts h ha hb
        refine ⟨s', hway, ?_⟩
        rintro ⟨task', hg', _, hpend⟩
        obtain rfl := Option.some.inj (hg.symm.trans hg')
        rw [hdone] at hpend
        cases hpend
      · obtain ⟨s₁, hway, hp₁, hlt⟩ := run_parse h hm hparses ha hb
        obtain ⟨s', hway', hk'⟩ := ih _ (hn ▸ hlt) (h.leads hway.delivered) (hway.posted h hm) hp₁ rfl
        exact ⟨s', hway.trans hway', hk'⟩
    · exact ⟨s, Leads.refl s, hk⟩

theorem lead_tasks (h : Reach (system cfg) (fun _ a i => Delivered cfg a i) s)
    (hm : .posted j m ∈ s.shared.trace) (hparses : Parses cfg j m) (hp : Past s.shared j 2) (n : Nat) :
    ∃ s', Way cfg s s' ∧ ∀ k < n, ¬ PendingTask s'.shared j k := by
  induction n with
  | zero => exact ⟨s, Leads.refl s, fun k hk => absurd hk (by omega)⟩
  | succ n ih =>
    obtain ⟨s₁, hway, hdone⟩ := ih
    have h₁ := h.leads hway.delivered
    have hp₁ := hway.past h hp
    obtain ⟨s', hway', hlast⟩ := lead_task h₁ (hway.posted h hm) hparses hp₁ n
    refine ⟨s', hway.trans hway', fun k hk => ?_⟩
    rcases Nat.lt_succ_iff_lt_or_eq.mp hk with hk | rfl
    · exact hway'.not_pending h₁ hp₁ (hdone k hk)
    · exact hlast

/-- With nothing left to synthesize, the job can be completed. -/
theorem lead_stitch (h : Reach (system cfg) (fun _ a i => Delivered cfg a i) s)
    (hm : .posted j m ∈ s.shared.trace) (hparses : Parses cfg j m) (hp : Past s.shared j 2)
    (hk : ∀ k, ¬ PendingTask s.shared j k) :
    ∃ s', Way cfg s s' ∧ s'.shared.db.status j = some .completed := by
  -- on the messages for the first two handlers, which may be the ones that carry the job on
  induction hn : turns s j 0 using Nat.strong_induction_on generalizing s with
  | _ n ihn =>
  induction hl : turns s j 1 using Nat.strong_induction_on generalizing s with
  | _ l ihl =>
  have keeps : ∀ {s₁ : State}, Way cfg s s₁ → Past s₁.shared j 2 ∧ ∀ k, ¬ PendingTask s₁.shared j k :=
    fun hway => ⟨hway.past h hp, fun k => hway.not_pending h hp (hk k)⟩
  by_cases hc : s.shared.db.status j = some .completed
  · exact ⟨s, Leads.refl s, hc⟩
  have hawait : AwaitsStitch s.shared j := ⟨by simpa [hc] using (fanned h hp).2, none_outstanding h hk⟩
  obtain ⟨_, ha, c, rfl, _, hj⟩ := reach_stitch_owed h hawait
  cases hb : c.msg.body with
  | jobCreated i =>
    obtain rfl : i = j := by rw [← hj, hb]; rfl
    obtain ⟨s₁, hway, hp₁, hlt⟩ := run_parse h hm hparses ha hb
    obtain ⟨s', hway', hdone⟩ := ihn _ (hn ▸ hlt) (h.leads hway.delivered) (hway.posted h hm) hp₁
      (keeps hway).2 rfl
    exact ⟨s', hway.trans hway', hdone⟩
  | ttsRequested i t =>
    obtain rfl : i = j := by rw [← hj, hb]; rfl
    obtain ⟨s₁, hway, _, hsame, hlt⟩ := run_tts h ha hb
    obtain ⟨s', hway', hdone⟩ := ihl _ (hl ▸ hlt) (h.leads hway.delivered) (hway.posted h hm)
      (keeps hway).1 (keeps hway).2 (hsame.trans hn) rfl
    exact ⟨s', hway.trans hway', hdone⟩
  | stitchReady i =>
    obtain rfl : i = j := by rw [← hj, hb]; rfl
    obtain ⟨s', hway, hno⟩ := run_stitch h ha hb
    have h' := h.leads hway.delivered
    refine ⟨s', hway, ?_⟩
    by_contra hnc
    exact hno ⟨by simpa [hnc] using (fanned h' (keeps hway).1).2, none_outstanding h' (keeps hway).2⟩

end Job

/-- From every state of a run without losses and dead letters, whatever has crashed, is queued,
duplicated or locked, a job whose manuscript parses can be led to `COMPLETED`. -/
theorem job_completable {cfg : Settings} {s : State} {j m : String} {job : Job}
    (h : Reach (system cfg) (fun _ a i => Delivered cfg a i) s)
    (hg : s.shared.db.jobs.get j = some job) (hm : .posted j m ∈ s.shared.trace)
    (hparses : Parses cfg j m) :
    ∃ s', Leads (system cfg) (fun _ a i => Smooth cfg a i) s s' ∧
      s'.shared.db.status j = some .completed := by
  obtain ⟨s₁, hway₁, hp₁⟩ := lead_fanOut h hm hparses hg
  have h₁ := h.leads hway₁.delivered
  obtain ⟨s₂, hway₂, hdone⟩ := lead_tasks h₁ (hway₁.posted h hm) hparses hp₁ (blocksOf cfg m).length
  have h₂ := h₁.leads hway₂.delivered
  have hp₂ := hway₂.past h₁ hp₁
  have hm₂ := hway₂.posted h₁ (hway₁.posted h hm)
  have hall : ∀ k, ¬ PendingTask s₂.shared j k := by
    intro k hk
    obtain ⟨text, hl⟩ := (fanned h₂ hp₂).1
    obtain rfl : text = m := Option.some.inj (hl.stored.symm.trans ((reach_data h₂).1.getText hm₂))
    exact hdone k (hl.index_lt hk) hk
  obtain ⟨s', hway', hc⟩ := lead_stitch h₂ hm₂ hparses hp₂ hall
  exact ⟨s', (hway₁.trans hway₂).trans hway', hc⟩

set_option maxRecDepth 4000 in
/-- A worker has crashed on its first step: only the row is left of the submission. -/
theorem crashedAtOnce_reach :
    ∃ s, Reach (system {}) (fun _ a i => Delivered {} a i) s ∧
      s.shared.db.status "j" = some .pending ∧ .posted "j" "A" ∈ s.shared.trace :=
  System.exists_reach (C := fun _ a i => !a.loses {} i && !a.deadLettered {} i)
    (fun _ _ _ h => by simpa [Delivered] using h)
    [.env (.post "j" "A" none), .act 0 .go, .act 0 .crash] (by decide +kernel)

/-- The job of the crashed worker can still be completed. -/
theorem job_completable_after_crash :
    ∃ s s', Reach (system {}) (fun _ a i => Delivered {} a i) s ∧
      s.shared.db.status "j" = some .pending ∧
      Leads (system {}) (fun _ a i => Smooth {} a i) s s' ∧ s'.shared.db.status "j" = some .completed := by
  obtain ⟨s, h, hst, hm⟩ := crashedAtOnce_reach
  obtain ⟨job, hg, _⟩ := Option.map_eq_some_iff.mp hst
  obtain ⟨s', hl, hc⟩ := job_completable h hg hm ⟨by decide +kernel, by decide +kernel⟩
  exact ⟨s, s', h, hst, hl, hc⟩

end Pipeline
end AudioEngine
