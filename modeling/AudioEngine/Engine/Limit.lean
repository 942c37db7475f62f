import AudioEngine.Engine.Model
import AudioEngine.Pipeline.Stages
import AudioEngine.Semaphore.Healing

/-!
# AudioEngine.Engine.Limit

The global limit on synthesis, over the whole engine.

`engine_refines` projects every run of the engine to a run of the pipeline and to a run of the
semaphore. A vendor call is made by a copy inside the slot only (`story_outside`), and there its
token is held; so the limit of the semaphore is a limit on calls: `kept_limit`.
-/

namespace AudioEngine
namespace Engine

open Interleave
open Pipeline (Copy Raised)

/-! ## The components of a run -/

section Refines

variable {cfg : Settings} {n : Nat} {s : State}

theorem reach_data (h : Reach (system cfg n) (fun _ _ _ => True) s) :
    ∃ t, Reach (Pipeline.system cfg) (fun _ _ _ => True) t ∧ Sees dataView t s := by
  obtain ⟨hist, ht⟩ := h.story (D := fun _ _ _ => True) (fun _ _ _ _ _ => trivial)
    (fun _ _ _ => trivial)
  have hinit : Sees dataView (Pipeline.system cfg).init (system cfg n).init :=
    ⟨rfl, List.Perm.refl _⟩
  obtain ⟨_, t, hstory, hs⟩ := ht.project (T := Pipeline.system cfg) (D := fun _ _ _ => True) hinit
    (fun _ _ hs ha _ => data_follows ha hs.shared) (fun _ hs he _ => data_echoes he hs.shared)
  exact ⟨t, hstory.reach, hs⟩

theorem reach_sem (h : Reach (system cfg n) (fun _ _ _ => True) s) :
    ∃ t, Reach (Semaphore.system n) (fun _ _ _ => True) t ∧ Sees semView t s := by
  obtain ⟨hist, ht⟩ := h.story (D := fun _ _ _ => True) (fun _ _ _ _ _ => trivial)
    (fun _ _ _ => trivial)
  have hinit : Sees semView (Semaphore.system n).init (system cfg n).init :=
    ⟨rfl, List.Perm.refl _⟩
  obtain ⟨_, t, hstory, hs⟩ := ht.project (T := Semaphore.system n) (D := fun _ _ _ => True) hinit
    (fun _ _ hs ha _ => sem_follows (fun _ _ _ _ => trivial) (fun _ _ => trivial)
      (fun _ _ _ _ => trivial) ha hs.shared)
    (fun _ hs he _ => sem_echoes (fun _ => trivial) (fun _ _ => trivial) (fun _ => trivial) he
      hs.shared)
  exact ⟨t, hstory.reach, hs⟩

end Refines

/-! ## Where the vendor is called -/

/-- The copy is at a point between entering and leaving the slot. -/
def inSlot : Pipeline.Agent → Bool
  | .copy c =>
    match c.stage with
    | .work (.tts (.putAudio _)) => true
    | .work (.tts (.leaveSlot _)) => true
    | _ => false
  | _ => false

/-- The agent is about to call `tts_fake_audio` and store what it returns. -/
def Agent.synthesises : Agent → Bool
  | .plain (.copy c) =>
    match c.stage with
    | .work (.tts (.putAudio _)) => true
    | _ => false
  | .slot _ _ (.body _) => true
  | _ => false

section Outside

variable {cfg : Settings} {n : Nat} {s : State} {d d' : Pipeline.Shared} {c : Copy}

theorem emit_outside (d : Pipeline.Shared) (pub : Option (Live × Event)) :
    ∀ b ∈ (Pipeline.emit d pub).2, inSlot b = false := by
  cases pub with
  | none => simp [Pipeline.emit]
  | some p =>
    rw [Pipeline.emit, List.forall_mem_singleton]
    rfl

theorem leave_outside (c : Copy) (exc : Raised) : ∀ b ∈ c.leave exc, inSlot b = false := by
  cases exc with
  | error p =>
    rw [Copy.leave, List.forall_mem_singleton]
    rfl
  | cancelled => simp [Copy.leave]

theorem raiseAt_outside (c : Copy) (w : Pipeline.Work) (exc : Raised) :
    ∀ b ∈ c.raiseAt w exc, inSlot b = false := by
  unfold Copy.raiseAt
  split
  · rw [List.forall_mem_singleton]
    rfl
  · exact leave_outside c exc

/-- A handler gets inside the slot by entering it. -/
theorem tts_outside {e : Event} {pc pc' : Pipeline.TtsPc} {pub : Option (Live × Event)}
    (h : Pipeline.ttsStep d e pc = .goto d' pc' pub) (hc : c.stage = .work (.tts pc))
    (ha : inSlot (.copy c) = false) (he : entersSlot (.copy c) = none) :
    inSlot (.copy { c with stage := .work (.tts pc') }) = false := by
  cases pc with
  | enterSlot text => simp [entersSlot, hc] at he
  | putAudio text => simp [inSlot, hc] at ha
  | leaveSlot text => simp [inSlot, hc] at ha
  | waitForCache text k =>
    simp only [Pipeline.ttsStep] at h
    split at h
    · cases h
    · split at h
      · cases h; rfl
      · cases h; rfl
  | _ =>
    simp only [Pipeline.ttsStep] at h
    (repeat' split at h) <;> cases h <;> rfl

theorem work_outside {w w' : Pipeline.Work} {pub : Option (Live × Event)}
    (h : w.step cfg d c.msg.body = .goto d' w' pub) (hc : c.stage = .work w)
    (ha : inSlot (.copy c) = false) (he : entersSlot (.copy c) = none) :
    inSlot (.copy { c with stage := .work w' }) = false := by
  cases w with
  | parse pc =>
    obtain ⟨pc', _, rfl⟩ := Pipeline.Next.map_eq_goto h
    rfl
  | tts pc =>
    obtain ⟨pc', hn, rfl⟩ := Pipeline.Next.map_eq_goto h
    exact tts_outside hn hc ha he
  | stitch pc =>
    obtain ⟨pc', _, rfl⟩ := Pipeline.Next.map_eq_goto h
    rfl

/-- A delivery that goes on outside the slot stays outside. -/
theorem go_outside {l : List Pipeline.Agent} (ha : inSlot (.copy c) = false)
    (he : entersSlot (.copy c) = none) (h : c.act cfg d .go = some (d', l)) :
    ∀ b ∈ l, inSlot b = false := by
  cases hst : c.stage with
  | ready =>
    simp only [Copy.act, hst] at h
    cases hq : c.queue with
    | live l =>
      simp only [hq] at h
      cases h
      rw [List.forall_mem_singleton]
      cases l <;> rfl
    | retry l x =>
      simp only [hq] at h
      cases h
      rw [List.forall_mem_singleton]
      simp [inSlot]
    | dlq =>
      simp only [hq] at h
      cases h
      rw [List.forall_mem_singleton]
      rfl
  | work w =>
    simp only [Copy.act, hst] at h
    cases hstep : w.step cfg d c.msg.body with
    | goto d₁ w' pub =>
      simp only [hstep] at h
      cases h
      rw [List.forall_mem_cons]
      exact ⟨work_outside hstep hst ha he, emit_outside _ _⟩
    | done d₁ pub =>
      simp only [hstep] at h
      cases h
      rw [List.forall_mem_cons]
      exact ⟨rfl, emit_outside _ _⟩
    | raise =>
      simp only [hstep] at h
      cases h
      exact raiseAt_outside _ _ _
  | unwind text exc =>
    simp only [Copy.act, hst] at h
    cases h
    exact leave_outside _ _
  | routing p =>
    simp only [Copy.act, hst] at h
    split at h
    · cases h
      simp
    · cases h
      simp [inSlot]
  | acking =>
    simp only [Copy.act, hst] at h
    cases h
    simp
  | dlq pc =>
    simp only [Copy.act, hst] at h
    split at h
    · cases h
      rw [List.forall_mem_cons]
      exact ⟨rfl, emit_outside _ _⟩
    · cases h
      rw [List.forall_mem_cons]
      exact ⟨rfl, emit_outside _ _⟩
    · cases h
      rw [List.forall_mem_singleton]
      rfl
  | dlqAcking =>
    simp only [Copy.act, hst] at h
    cases h
    simp

/-- A crash, an exception or a duplicate leads nobody inside. -/
theorem disturbed_outside {i : Pipeline.Choice} {l : List Pipeline.Agent} (hi : i ≠ .go)
    (ha : inSlot (.copy c) = false) (h : c.act cfg d i = some (d', l)) :
    ∀ b ∈ l, inSlot b = false := by
  have hready : inSlot (.copy { c with stage := .ready }) = false := rfl
  cases i with
  | go => exact absurd rfl hi
  | duplicate =>
    cases hst : c.stage with
    | ready =>
      simp only [Copy.act, hst] at h
      cases h
      simp [ha]
    | _ => simp [Copy.act, hst] at h
  | crash =>
    cases hst : c.stage with
    | ready => simp [Copy.act, hst] at h
    | _ =>
      simp only [Copy.act, hst] at h
      cases h
      rw [List.forall_mem_singleton]
      exact hready
  | fail p =>
    cases hst : c.stage with
    | ready => simp [Copy.act, hst] at h
    | work w =>
      simp only [Copy.act, hst] at h
      cases h
      exact raiseAt_outside _ _ _
    | unwind text exc =>
      simp only [Copy.act, hst] at h
      cases h
      exact leave_outside _ _
    | dlq pc =>
      simp only [Copy.act, hst] at h
      cases h
      rw [List.forall_mem_singleton]
      exact hready
    | dlqAcking =>
      simp only [Copy.act, hst] at h
      cases h
      rw [List.forall_mem_singleton]
      exact hready
    | _ =>
      simp only [Copy.act, hst] at h
      cases h
      simp
  | cancel =>
    cases hst : c.stage with
    | ready => simp [Copy.act, hst] at h
    | work w =>
      simp only [Copy.act, hst] at h
      cases h
      exact raiseAt_outside _ _ _
    | dlq pc =>
      simp only [Copy.act, hst] at h
      cases h
      rw [List.forall_mem_singleton]
      exact hready
    | dlqAcking =>
      simp only [Copy.act, hst] at h
      cases h
      rw [List.forall_mem_singleton]
      exact hready
    | _ =>
      simp only [Copy.act, hst] at h
      cases h
      simp

theorem act_outside {a : Pipeline.Agent} {i : Pipeline.Choice} {l : List Pipeline.Agent}
    (ha : inSlot a = false) (he : entersSlot a = none ∨ i ≠ .go)
    (h : Pipeline.act cfg d a i = some (d', l)) : ∀ b ∈ l, inSlot b = false := by
  cases a with
  | copy c =>
    by_cases hi : i = .go
    · subst hi
      exact go_outside ha (he.resolve_right (by simp)) h
    · exact disturbed_outside hi ha h
  | create j cb pc =>
    cases i with
    | go =>
      cases pc with
      | insert =>
        simp only [Pipeline.act, Pipeline.createAct] at h
        split at h
        · cases h
          simp
        · cases h
          rw [List.forall_mem_singleton]
          rfl
      | publish =>
        cases h
        rw [List.forall_mem_singleton]
        rfl
    | _ => cases h; simp
  | sweep stale =>
    cases i with
    | go =>
      cases stale with
      | nil => cases h; simp
      | cons j rest =>
        cases h
        rw [List.forall_mem_cons]
        exact ⟨rfl, emit_outside _ _⟩
    | _ => cases h; simp

/-- Only a copy in the slot is at a point inside it. -/
def Outside (s : State) : Prop := ∀ a, .plain a ∈ s.agents → inSlot a = false

theorem slotAct_outside {sh sh' : Shared} {text : String} {pc : SlotPc} {i : Choice}
    {outs : List Agent} (h : slotAct sh c text pc i = some (sh', outs)) :
    ∀ a, .plain a ∈ outs → inSlot a = false := by
  have hexit : ∀ exc a, Agent.plain a ∈ [exitSlot c text exc] → inSlot a = false := by
    intro exc a ha
    rw [List.mem_singleton] at ha
    cases exc with
    | none => cases ha; rfl
    | some exc => cases ha; rfl
  unfold slotAct at h
  split at h
  · split at h
    · cases h
    · cases h
      simp
  all_goals first
    | (cases h; simp; done)
    | (cases h; exact hexit _)
    | skip
  · cases h
    intro a ha
    rw [List.mem_singleton] at ha
    cases ha
    rfl
  · cases h

theorem env_outside {e : Pipeline.Env} {l : List Pipeline.Agent}
    (h : Pipeline.env d e = some (d', l)) : ∀ b ∈ l, inSlot b = false := by
  cases e with
  | post j manuscript cb =>
    simp only [Pipeline.env] at h
    split at h
    · cases h
      rw [List.forall_mem_singleton]
      rfl
    · cases h
  | startSweep stale =>
    simp only [Pipeline.env] at h
    split at h
    · cases h
      rw [List.forall_mem_singleton]
      rfl
    · cases h
  | _ => cases h; simp

/-- What a step leaves, as far as it is outside the slot. -/
theorem outs_outside {sh sh' : Shared} {a : Agent} {i : Choice} {outs : List Agent}
    (ha : ∀ b, a = .plain b → inSlot b = false) (h : act cfg n sh a i = some (sh', outs)) :
    ∀ b, .plain b ∈ outs → inSlot b = false := by
  cases a with
  | plain a =>
    cases i with
    | step i =>
      rcases plainAct_cases h with ⟨c, text, _, _, _, rfl⟩ | ⟨he, d, l, hact, _, rfl⟩
      · simp
      · intro b hb
        obtain ⟨b', hb', heq⟩ := List.mem_map.mp hb
        cases heq
        exact act_outside (ha a rfl) he hact b hb'
    | _ => cases h
  | slot c text pc => exact slotAct_outside h
  | maintenance a =>
    obtain ⟨k, r, l, _, _, _, rfl⟩ := maintenance_cases h
    simp

theorem story_outside {D : State → Moving → Shared → Prop} {hist : List (Taken Shared Agent Choice)}
    (ht : Story (system cfg n) D (system cfg n).init hist s) : Outside s := by
  induction ht with
  | start => simp [Outside, system]
  | @act hist s rest a i sh outs _ hp ha _ ih =>
    intro b hb
    rcases List.mem_append.mp hb with hb | hb
    · refine outs_outside ?_ ha b hb
      rintro b rfl
      exact ih b (hp.mem_iff.mpr (by simp))
    · exact ih b (hp.mem_iff.mpr (by simp [hb]))
  | @env hist s e sh outs _ he _ ih =>
    intro b hb
    rcases List.mem_append.mp hb with hnew | hold
    · cases e with
      | data e =>
        obtain ⟨⟨d, l⟩, henv, hr⟩ := Option.map_eq_some_iff.mp he
        cases hr
        obtain ⟨b', hb', heq⟩ := List.mem_map.mp hnew
        cases heq
        exact env_outside henv b hb'
      | boot => cases he; simp at hnew
      | expire token => cases he; simp at hnew
    · exact ih b hold

end Outside

/-! ## The limit -/

/-- The semaphore inside the engine. -/
def semOf (s : State) : Semaphore.State := ⟨s.shared.sem, s.agents.filterMap Agent.sem⟩

/-- No recorded lease of a live holder expires, Redis is not wiped, and the reaper returns no token
that a live worker has in transit. -/
def Kept (n : Nat) (s : State) : Moving → Prop
  | .act (.maintenance a) i =>
    ∀ k, i.maintain = some k → Semaphore.Patient n (semOf s) (.act a k)
  | .env (.expire token) => Semaphore.Leased (semOf s) (.env (.expire token))
  | .env (.data .wipeRedis) => False
  | _ => True

section Kept

variable {cfg : Settings} {n : Nat} {s : State} {t : Semaphore.State}

theorem patient_seen {a : Semaphore.Agent} {k : Semaphore.Choice} (hs : Sees semView t s)
    (h : Semaphore.Patient n (semOf s) (.act a k)) : Semaphore.Patient n t (.act a k) := by
  intro token ht b hb
  refine h token ?_ b (hs.agents.mem_iff.mp hb)
  rwa [hs.shared] at ht

theorem leased_seen {token : String} (hs : Sees semView t s)
    (h : Semaphore.Leased (semOf s) (.env (.expire token))) :
    Semaphore.Leased t (.env (.expire token)) :=
  fun b hb => h b (hs.agents.mem_iff.mp hb)

/-- The semaphore of such a run keeps its own conditions. -/
theorem story_sem {hist : List (Taken Shared Agent Choice)}
    (ht : Story (system cfg n) (fun s m _ => Kept n s m) (system cfg n).init hist s) :
    ∃ hist' t, Story (Semaphore.system n)
        (fun s m _ => Semaphore.Leased s m ∧ Semaphore.Patient n s m) (Semaphore.system n).init
        hist' t ∧ Sees semView t s := by
  refine ht.project (v := semView) ⟨rfl, List.Perm.refl _⟩ ?_ ?_
  · intro hist s t a i sh outs _ _ hs ha hk
    refine sem_follows (fun _ _ _ _ => ⟨trivial, fun _ h => by cases h⟩)
      (fun _ _ => ⟨trivial, trivial⟩) ?_ ha hs.shared
    rintro b k rfl hm
    exact ⟨trivial, patient_seen hs (hk k hm)⟩
  · intro hist s t e sh outs _ hs he hk
    refine sem_echoes (fun _ => ⟨trivial, trivial⟩) ?_ ?_ he hs.shared
    · rintro token rfl
      exact ⟨leased_seen hs hk, trivial⟩
    · rintro rfl
      exact hk.elim

/-- Whoever calls the vendor holds a token. -/
theorem synthesises_holds {a : Agent} (ha : ∀ b, a = .plain b → inSlot b = false)
    (h : a.synthesises = true) : ∃ b, a.sem = some b ∧ b.holds = true := by
  cases a with
  | plain b =>
    cases b with
    | copy c =>
      have hout := ha _ rfl
      simp only [Agent.synthesises] at h
      split at h
      · rename_i text hst
        simp [inSlot, hst] at hout
      · cases h
    | create j cb pc => cases h
    | sweep stale => cases h
  | slot c text pc =>
    cases pc with
    | body token => exact ⟨_, rfl, rfl⟩
    | _ => cases h
  | maintenance a => cases h

/-- While leases are kept, at most `n` deliveries are at their vendor call. -/
theorem kept_limit {hist : List (Taken Shared Agent Choice)}
    (ht : Story (system cfg n) (fun s m _ => Kept n s m) (system cfg n).init hist s) :
    s.agents.countP Agent.synthesises ≤ n := by
  have hout := story_outside ht
  obtain ⟨_, t, htold, hs⟩ := story_sem ht
  have hle := (Semaphore.leased_exclusive htold).1.holders_le
  rw [hs.agents.countP_eq, List.countP_filterMap] at hle
  refine Nat.le_trans (List.countP_mono_left fun a ha hsyn => ?_) hle
  obtain ⟨b, hb, hholds⟩ := synthesises_holds (fun b hab => hout b (hab ▸ ha)) hsyn
  simp [semView, hb, hholds]

end Kept

/-- A worker boots, a manuscript of two blocks is posted, and agents step by position. -/
def twoBlocks (steps : List (Nat × Pipeline.Choice)) : List (Action Choice Env) :=
  .env .boot :: .act 0 (.step .go) :: .env (.data (.post "j" "A\n\nB" none)) ::
    steps.map fun x => .act x.1 (.step x.2)

/-- The engine is a refinement of both models: in every run, with crashes, exceptions and
cancellations at any point of `acquire`, of the body and of `release`, with lost tokens, expiries and
wipes, its stores and messages are those of a run of the pipeline, and its tokens and leases those of
a run of the semaphore. -/
theorem engine_refines {cfg : Settings} {n : Nat} {s : State}
    (h : Reach (system cfg n) (fun _ _ _ => True) s) :
    (∃ t, Reach (Pipeline.system cfg) (fun _ _ _ => True) t ∧ t.shared = s.shared.data ∧
      t.agents.Perm (s.agents.filterMap Agent.data)) ∧
    ∃ t, Reach (Semaphore.system n) (fun _ _ _ => True) t ∧ t.shared = s.shared.sem ∧
      t.agents.Perm (s.agents.filterMap Agent.sem) := by
  obtain ⟨t, ht, hs⟩ := reach_data h
  obtain ⟨t', ht', hs'⟩ := reach_sem h
  exact ⟨⟨t, ht, hs.shared, hs.agents⟩, t', ht', hs'.shared, hs'.agents⟩

set_option maxRecDepth 4000 in
/-- A delivery crashes at its vendor call, and its token is gone. -/
theorem engine_refines_after_crash :
    ∃ s, Reach (system {} 1) (fun _ _ _ => True) s ∧ s.shared.sem.slots = [] ∧
      Semaphore.live (s.agents.filterMap Agent.sem) = [] ∧
      (∃ t, Reach (Pipeline.system {}) (fun _ _ _ => True) t ∧ t.shared = s.shared.data ∧
        t.agents.Perm (s.agents.filterMap Agent.data)) ∧
      ∃ t, Reach (Semaphore.system 1) (fun _ _ _ => True) t ∧ t.shared = s.shared.sem ∧
        t.agents.Perm (s.agents.filterMap Agent.sem) := by
  obtain ⟨hist, s, ht, hslots, hlive⟩ :
      ∃ hist s, Story (system {} 1) (fun _ _ _ => True) (system {} 1).init hist s ∧
        s.shared.sem.slots = [] ∧ Semaphore.live (s.agents.filterMap Agent.sem) = [] :=
    System.exists_story (d := fun _ _ _ => true) (fun _ _ _ _ => trivial)
      (twoBlocks (List.replicate 22 (0, .go) ++ [(0, .crash)])) (by decide +kernel)
  exact ⟨s, ht.reach, hslots, hlive, engine_refines ht.reach⟩

end Engine
end AudioEngine
