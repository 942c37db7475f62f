import AudioEngine.Pipeline.Posts

/-!
# AudioEngine.Pipeline.Data

The assertions hold in every run.

`act_data` is the step lemma: under the assertions a step is an `Effect`, and it establishes the
assertions of the agents it leaves. `reach_data` is the run lemma. `licenceOf` names the faults a
step may be: these are the conditions the later results are about.
-/

namespace AudioEngine
namespace Pipeline

open Relational Interleave

/-- The step completes a task that is `FAILED`. -/
def Recounts (sh : Shared) (a : Agent) (i : Choice) : Prop :=
  ∃ c key task, a = .copy c ∧ i = .go ∧ c.stage = .work (.tts (.complete key)) ∧
    sh.db.tasks.get c.msg.body.taskId = some task ∧ task.status = .failed

/-- The step is one of the dead-letter consumer. -/
def DeadLetters (a : Agent) : Prop := ∃ c pc, a = .copy c ∧ c.stage = .dlq pc

/-- The step inserts the rows of a job that is `FAILED` and has none. -/
def SeedsOrphan (sh : Shared) (a : Agent) (i : Choice) : Prop :=
  ∃ c blocks, a = .copy c ∧ i = .go ∧ c.stage = .work (.parse (.seed blocks)) ∧ blocks ≠ [] ∧
    sh.db.status c.msg.body.jobId = some .failed ∧ sh.db.tasksOf c.msg.body.jobId = []

/-- The agent stands at the `finalize_job` of `j`. -/
def Finalizes (a : Agent) (j : String) : Prop :=
  ∃ c, a = .copy c ∧ c.msg.body.jobId = j ∧ c.stage = .work (.stitch .finalize)

/-- The agent stands at the seeding transaction of `j`. -/
def Seeds (a : Agent) (i : Choice) (j : String) : Prop :=
  ∃ c blocks, a = .copy c ∧ i = .go ∧ c.msg.body = .jobCreated j ∧ c.stage = .work (.parse (.seed blocks))

/-- The agent runs `do_work` for `j`. -/
def Works (a : Agent) (i : Choice) (j : String) : Prop :=
  ∃ c w, a = .copy c ∧ i = .go ∧ c.msg.body.jobId = j ∧ c.stage = .work w

/-- The agent stands at the claim of a task of `j`. -/
def Claims (a : Agent) (i : Choice) (j : String) : Prop :=
  ∃ c t, a = .copy c ∧ i = .go ∧ c.msg.body = .ttsRequested j t ∧
    ((∃ key, c.stage = .work (.tts (.complete key))) ∨ c.stage = .dlq .failTask)

def licenceOf (sh : Shared) (a : Agent) (i : Choice) : Licence :=
  ⟨Recounts sh a i, DeadLetters a, SeedsOrphan sh a i, Seeds a i, Finalizes a, Works a i, Claims a i⟩

section Step

variable {cfg : Settings} {sh sh' : Shared} {c : Copy} {a : Agent} {i : Choice} {outs : List Agent}

/-- A copy away from the handlers only asserts that its event is in order. -/
theorem holds_copy {e : Event} {q : QueueName} {m : Message Event} {st : Stage} (hm : m.body = e)
    (hq : Fits e q) (he : EventOk sh e) (hst : st.Ok cfg sh e) :
    (Agent.copy { queue := q, msg := m, stage := st }).Holds cfg sh := by
  subst hm
  exact ⟨hq, he, hst⟩

theorem holds_emit (cfg : Settings) {pub : Option (Live × Event)} (h : PubOk (emit sh pub).1 pub) :
    ∀ b ∈ (emit sh pub).2, b.Holds cfg (emit sh pub).1 := by
  intro b hb
  cases pub with
  | none => cases hb
  | some p =>
    obtain ⟨l, e⟩ := p
    obtain ⟨hl, he⟩ := h l e rfl
    rw [emit, List.mem_singleton] at hb
    subst hb
    exact ⟨.inr (.inl (by rw [hl]; rfl)), he, trivial⟩

theorem holds_leave (h : (Agent.copy c).Holds cfg sh) (exc : Raised) :
    ∀ b ∈ c.leave exc, b.Holds cfg sh := by
  intro b hb
  cases exc with
  | error p =>
    rw [Copy.leave, List.mem_singleton] at hb
    subst hb
    exact ⟨h.1, h.2.1, trivial⟩
  | cancelled => cases hb

theorem holds_raiseAt (h : (Agent.copy c).Holds cfg sh) (w : Work) (exc : Raised) :
    ∀ b ∈ c.raiseAt w exc, b.Holds cfg sh := by
  intro b hb
  unfold Copy.raiseAt at hb
  split at hb
  · rw [List.mem_singleton] at hb
    subst hb
    exact ⟨h.1, h.2.1, trivial⟩
  · exact holds_leave h exc b hb

theorem start_ok {e : Event} (cfg : Settings) (sh : Shared) :
    (Stage.work (.start (home e))).Ok cfg sh e := by
  cases e with
  | jobCreated j => exact ⟨j, rfl, trivial⟩
  | ttsRequested j t => exact ⟨j, t, rfl, trivial⟩
  | stitchReady j => exact ⟨j, rfl, trivial⟩

theorem Fits.home_eq {e : Event} {l : Live} (h : Fits e (.live l)) : l = home e := by
  rcases h with h | h | ⟨d, h⟩
  · cases h
  · cases h; rfl
  · cases h

/-- A message comes back from a delay queue to the live queue it fits. -/
theorem Fits.due {e : Event} {l : Live} {d : Int} (h : Fits e (.retry l d)) : Fits e (.live l) := by
  rcases h with h | h | ⟨d', h⟩
  · cases h
  · cases h
  · cases h; exact .inr (.inl rfl)

/-- The copy of a failed delivery fits where it goes. -/
theorem Fits.routed {e : Event} {l : Live} {q : QueueName} (h : Fits e (.live l))
    (hq : q = .dlq ∨ ∃ d, q = .retry l d) : Fits e q := by
  obtain rfl := h.home_eq
  rcases hq with rfl | ⟨d, rfl⟩
  · exact .inl rfl
  · exact .inr (.inr ⟨d, rfl⟩)

theorem Next.Post.map {P Q : Type} {F : Licence} {A : Shared → P → Prop} {B : Shared → Q → Prop}
    (f : P → Q) (hA : ∀ sh pc, A sh pc → B sh (f pc)) {n : Next P} (hn : n.Post cfg F sh A) :
    (n.map f).Post cfg F sh B := by
  cases n with
  | goto sh' pc pub => exact ⟨hn.1, hn.2.1, hA _ _ hn.2.2⟩
  | done sh' pub => exact hn
  | raise => trivial

/-- One step of `do_work`, whichever handler runs. -/
theorem work_post {w : Work} (hs : Sound cfg sh) (h : (Agent.copy c).Holds cfg sh)
    (hst : c.stage = .work w) :
    (w.step cfg sh c.msg.body).Post cfg (licenceOf sh (.copy c) .go) sh fun sh' w' =>
      (Stage.work w').Ok cfg sh' c.msg.body := by
  obtain ⟨_, he, hok⟩ := h
  rw [hst] at hok
  cases w with
  | parse pc =>
    obtain ⟨j, hj, hpc⟩ := hok
    rw [hj] at he ⊢
    refine Next.Post.map Work.parse ?_ (parse_post hs he hpc ?_ ?_ ⟨c, _, rfl, rfl, by rw [hj]; rfl, hst⟩)
    · exact fun sh' pc' hpc' => ⟨j, rfl, hpc'⟩
    · intro blocks hb hne hf hnil
      subst hb
      exact ⟨c, blocks, rfl, rfl, hst, hne, by rw [hj]; exact hf, by rw [hj]; exact hnil⟩
    · intro blocks hb
      subst hb
      exact ⟨c, blocks, rfl, rfl, hj, hst⟩
  | tts pc =>
    obtain ⟨j, t, hj, hpc⟩ := hok
    rw [hj] at he ⊢
    refine Next.Post.map Work.tts ?_ (tts_post hs he hpc ?_ ?_)
    · exact fun sh' pc' hpc' => ⟨j, t, rfl, hpc'⟩
    · intro key task hk hg hf
      subst hk
      exact ⟨c, key, task, rfl, rfl, hst, by rw [hj]; exact hg, hf⟩
    · intro key hk
      subst hk
      exact ⟨c, t, rfl, rfl, hj, .inl ⟨key, hst⟩⟩
  | stitch pc =>
    obtain ⟨j, hj, hpc⟩ := hok
    rw [hj] at he ⊢
    refine Next.Post.map Work.stitch ?_ (stitch_post he hpc ?_ ⟨c, _, rfl, rfl, by rw [hj]; rfl, hst⟩)
    · exact fun sh' pc' hpc' => ⟨j, rfl, hpc'⟩
    · rintro rfl
      exact ⟨c, rfl, by rw [hj]; rfl, hst⟩

/-- One step of the dead-letter resolver. -/
theorem resolver_post {pc : DlqPc} (h : (Agent.copy c).Holds cfg sh) (hst : c.stage = .dlq pc) :
    (dlqStep sh c.msg.body pc).Post cfg (licenceOf sh (.copy c) .go) sh fun _ pc' =>
      DlqOk c.msg.body pc' := by
  obtain ⟨_, he, hok⟩ := h
  rw [hst] at hok
  refine dlq_post cfg (licenceOf sh (.copy c) .go) he ⟨c, _, rfl, hst⟩ hok ?_
  intro j t hj hpc
  subst hpc
  exact ⟨c, t, rfl, rfl, hj, .inr hst⟩

/-- A copy after a step of its handler, and what the step published. -/
theorem holds_went {F : Licence} {sh₁ : Shared} {st : Stage} {pub : Option (Live × Event)}
    (hs : Sound cfg sh) (h : (Agent.copy c).Holds cfg sh) (heff : Effect cfg F sh (emit sh₁ pub).1)
    (hpub : PubOk (emit sh₁ pub).1 pub) (hst : st.Ok cfg (emit sh₁ pub).1 c.msg.body) :
    ∀ b ∈ Agent.copy { c with stage := st } :: (emit sh₁ pub).2, b.Holds cfg (emit sh₁ pub).1 := by
  obtain ⟨hfit, he, _⟩ := h
  rw [List.forall_mem_cons]
  exact ⟨⟨hfit, he.mono (heff.evolves hs), hst⟩, holds_emit cfg hpub⟩

theorem Copy.route_copy {p : Bool} {q : QueueName} {m : Message Event}
    (h : c.route cfg p = some (q, m)) :
    m.body = c.msg.body ∧ ∃ l, c.queue = .live l ∧ (q = .dlq ∨ ∃ d, q = .retry l d) := by
  unfold Copy.route at h
  split at h
  · rename_i l ds hq hds
    have hr : routeRetryOrDlq c.msg l (effectiveMaxRetries cfg p) ds = .ok (q, m) := by
      cases hx : routeRetryOrDlq c.msg l (effectiveMaxRetries cfg p) ds with
      | error e => rw [hx] at h; cases h
      | ok r => rw [hx] at h; cases h; rfl
    obtain ⟨hb, hq'⟩ := routeRetryOrDlq_copy hr
    exact ⟨hb, l, hq, hq'⟩
  · cases h

theorem moves_data (hs : Sound cfg sh) (h : (Agent.copy c).Holds cfg sh)
    (hm : Moves cfg sh c i sh' outs) :
    Effect cfg (licenceOf sh (.copy c) i) sh sh' ∧ ∀ b ∈ outs, b.Holds cfg sh' := by
  have ⟨hfit, he, _⟩ := h
  have stays : ∀ {q : QueueName} {st : Stage}, Fits c.msg.body q → st.Ok cfg sh c.msg.body →
      (Agent.copy { c with queue := q, stage := st }).Holds cfg sh :=
    fun hq hst => ⟨hq, he, hst⟩
  cases hm with
  | deliver hst hq =>
    refine ⟨.idle _ _ _, ?_⟩
    have hl := hq ▸ hfit
    rw [List.forall_mem_singleton, hl.home_eq]
    exact stays hfit (start_ok cfg sh)
  | @due l d hst hq =>
    refine ⟨.idle _ _ _, ?_⟩
    rw [List.forall_mem_singleton]
    rw [hq] at hfit
    exact stays hfit.due (by rw [hst]; trivial)
  | deliverDlq hst hq =>
    refine ⟨.idle _ _ _, ?_⟩
    rw [List.forall_mem_singleton]
    exact stays hfit trivial
  | duplicate hst =>
    refine ⟨.idle _ _ _, ?_⟩
    intro b hb
    have : b = .copy c := by simpa using hb
    subst this; exact h
  | work hst hstep =>
    have hp := work_post hs h hst
    rw [hstep] at hp
    obtain ⟨heff, hpub, hok'⟩ := hp
    exact ⟨heff, holds_went hs h heff hpub hok'⟩
  | returned hst hstep =>
    have hp := work_post hs h hst
    rw [hstep] at hp
    obtain ⟨heff, hpub⟩ := hp
    exact ⟨heff, holds_went hs h heff hpub trivial⟩
  | raised hst _ => exact ⟨.idle _ _ _, holds_raiseAt h _ _⟩
  | @unwound text exc exc' i inflight hst _ =>
    have heff : Effect cfg (licenceOf sh (.copy c) i) sh { sh with inflight := inflight } :=
      .stores (.redis sh.cache inflight hs.cached)
    exact ⟨heff, holds_leave (h.mono (heff.evolves hs)) _⟩
  | @routed p q m hst hr =>
    obtain ⟨hbody, l, hq, hq'⟩ := Copy.route_copy hr
    have heff : Effect cfg (licenceOf sh (.copy c) .go) sh (sh.log (.published q m.body)) :=
      Effect.note [_] (by simp [Obs.isNote])
    have he' := he.mono (heff.evolves hs)
    refine ⟨heff, ?_⟩
    rw [List.forall_mem_cons, List.forall_mem_singleton]
    refine ⟨⟨hfit, he', trivial⟩, holds_copy hbody ?_ he' trivial⟩
    rw [hq] at hfit
    exact hfit.routed hq'
  | unrouted hst _ _ _ => exact ⟨.idle _ _ _, by simp⟩
  | acked hst => exact ⟨.idle _ _ _, by simp⟩
  | dlq hst hstep =>
    have hp := resolver_post h hst
    rw [hstep] at hp
    obtain ⟨heff, hpub, hok'⟩ := hp
    exact ⟨heff, holds_went hs h heff hpub hok'⟩
  | dlqReturned hst hstep =>
    have hp := resolver_post h hst
    rw [hstep] at hp
    obtain ⟨heff, hpub⟩ := hp
    exact ⟨heff, holds_went hs h heff hpub trivial⟩
  | dlqAcked hst => exact ⟨.idle _ _ _, by simp⟩
  | requeued hst =>
    refine ⟨.idle _ _ _, ?_⟩
    rw [List.forall_mem_singleton]
    exact stays hfit trivial

theorem request_data (hs : Sound cfg sh) (h : a.Holds cfg sh) (hr : Requests sh a sh' outs)
    (F : Licence) : Effect cfg F sh sh' ∧ ∀ b ∈ outs, b.Holds cfg sh' := by
  have heff : ∀ j, Effect cfg F sh (emit sh (some (.parse, .jobCreated j))).1 :=
    fun j => Effect.note [_] (by simp [Obs.isNote])
  have hpub : ∀ j, EventOk sh (.jobCreated j) →
      PubOk (emit sh (some (.parse, .jobCreated j))).1 (some (.parse, .jobCreated j)) := by
    intro j hj l e hle
    cases hle
    exact ⟨rfl, hj⟩
  cases hr with
  | inserted hi =>
    obtain ⟨m, hm⟩ := h
    refine ⟨.insertJob hm hi, ?_⟩
    rw [List.forall_mem_singleton]
    exact ⟨_, by rw [Table.get_insert? hi, if_pos rfl], Nat.zero_le _⟩
  | @created j cb => exact ⟨heff j, holds_emit cfg (hpub j h)⟩
  | @swept j rest =>
    refine ⟨heff j, ?_⟩
    rw [List.forall_mem_cons]
    exact ⟨fun k hk => (h k (by simp [hk])).mono ((heff j).evolves hs),
      holds_emit cfg (hpub j (h j (by simp)))⟩
  | ended => exact ⟨.idle cfg F sh, by simp⟩

/-- **The step lemma.** -/
theorem act_data (hs : Sound cfg sh) (h : a.Holds cfg sh) (ha : act cfg sh a i = some (sh', outs)) :
    Effect cfg (licenceOf sh a i) sh sh' ∧ ∀ b ∈ outs, b.Holds cfg sh' := by
  rcases act_cases ha with ⟨c, rfl, hm⟩ | hr
  · exact moves_data hs h hm
  · exact request_data hs h hr _

theorem env_data (hs : Sound cfg sh) {e : Env} (he : env sh e = some (sh', outs)) (F : Licence) :
    Effect cfg F sh sh' ∧ ∀ b ∈ outs, b.Holds cfg sh' := by
  cases env_moves he with
  | @posted j m cb hnone =>
    refine ⟨.stores (.post j m hnone), ?_⟩
    rw [List.forall_mem_singleton]
    exact ⟨m, List.mem_cons_self⟩
  | sweeping hall =>
    refine ⟨.idle cfg F sh, ?_⟩
    rw [List.forall_mem_singleton]
    intro j hj
    obtain ⟨job, hg, _⟩ := Option.map_eq_some_iff.mp (hall j hj)
    exact ⟨job, hg, Nat.zero_le _⟩
  | redis hcache => exact ⟨.stores (.redis _ _ fun h k hk => hs.cached h k (hcache h k hk)), by simp⟩

end Step

/-! ## Every run -/

section Run

variable {cfg : Settings} {C : Shared → Agent → Choice → Prop} {s : State}

theorem sound_init (cfg : Settings) : Sound cfg {} where
  posted := by simp
  job := by
    intro j job h
    cases h
  owner := by
    intro t task h
    cases h
  laid := by
    intro j job h
    cases h
  done := by
    intro t task h
    cases h
  cached := by simp
  audio := by simp

/-- **The run lemma.** -/
theorem reach_data (h : Reach (system cfg) C s) :
    Sound cfg s.shared ∧ ∀ a ∈ s.agents, a.Holds cfg s.shared := by
  refine Reach.rely (G := Sound cfg) (A := Agent.Holds cfg) (R := Evolves cfg) (sound_init cfg)
    (by simp [system]) ?_ ?_ ?_ h
  · intro s a i sh' outs _ _ _ hs ha hact
    obtain ⟨heff, houts⟩ := act_data hs ha hact
    exact ⟨heff.sound hs, heff.evolves hs, houts⟩
  · intro s e sh' outs _ hs henv
    obtain ⟨heff, houts⟩ := env_data hs henv .none
    exact ⟨heff.sound hs, heff.evolves hs, houts⟩
  · intro sh sh' b _ hev hb
    exact hb.mono hev

/-- A step from a reachable state is an effect. -/
theorem reach_act {a : Agent} {i : Choice} {sh' : Shared} {outs : List Agent}
    (h : Reach (system cfg) C s) (ha : a ∈ s.agents)
    (hact : (system cfg).act s.shared a i = some (sh', outs)) :
    Effect cfg (licenceOf s.shared a i) s.shared sh' :=
  (act_data (reach_data h).1 ((reach_data h).2 a ha) hact).1

theorem reach_env {e : Env} {sh' : Shared} {outs : List Agent} (h : Reach (system cfg) C s)
    (henv : (system cfg).env s.shared e = some (sh', outs)) (F : Licence) :
    Effect cfg F s.shared sh' :=
  (env_data (reach_data h).1 henv F).1

theorem step_effect {s' : State} (hr : Reach (system cfg) C s) (h : Step (system cfg) C s s') :
    ∃ F, Effect cfg F s.shared s'.shared := by
  cases h with
  | act hp _ ha => exact ⟨_, reach_act hr (hp.mem_iff.mpr (by simp)) ha⟩
  | env he => exact ⟨.none, reach_env hr he _⟩

/-- An invariant of the stores that every move keeps whose faults the condition leaves. -/
theorem reach_effects {K : Licence → Prop} {G : Shared → Prop}
    (hK : ∀ sh a i, C sh a i → K (licenceOf sh a i)) (hK₀ : K .none) (h0 : G {})
    (hG : ∀ {F : Licence} {s : State} {sh' : Shared}, Reach (system cfg) C s → K F →
      Effect cfg F s.shared sh' → G s.shared → G sh')
    (h : Reach (system cfg) C s) : G s.shared := by
  refine Reach.shared (G := G) h0 ?_ ?_ h
  · intro s a i sh outs hr ha hc hg hact
    exact hG hr (hK _ _ _ hc) (reach_act hr ha hact) hg
  · intro s e sh outs hr hg henv
    exact hG hr hK₀ (reach_env hr henv _) hg

end Run

end Pipeline
end AudioEngine
