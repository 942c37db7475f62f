import Mathlib.Data.List.Chain
import AudioEngine.Pipeline.Webhook

/-!
# AudioEngine.Pipeline.Status

The status column of a job over whole runs: the path of its statuses, the final key, the number of
winning compare-and-sets and the entries of the webhook. Nothing is assumed of the run: all faults
of the design are included.
-/

namespace AudioEngine
namespace Pipeline

open Relational Interleave

section Run

variable {cfg : Settings} {C : Shared → Agent → Choice → Prop} {s : State} {j : String}

theorem reach_wonOnce (h : Reach (system cfg) C s) : WonOnce s.shared :=
  reach_effects (K := fun _ => True) (fun _ _ _ _ => trivial) trivial (fun _ _ => .inl rfl)
    (fun hr _ he => he.wonOnce (reach_data hr).1) h

theorem reach_finalKeys (h : Reach (system cfg) C s) : FinalKeys s.shared := by
  refine reach_effects (K := fun _ => True) (fun _ _ _ _ => trivial) trivial ?_ ?_ h
  · intro j job hj
    cases hj
  · intro F s sh' hr _ he hk j job' hj
    exact (he.row (reach_data hr).1 hj).finalKey fun job hold => hk j job hold

theorem wins_mono {F : Licence} {sh sh' : Shared} (h : Effect cfg F sh sh') (hs : Sound cfg sh)
    (st : JobStatus) : sh.trace.countP (wins j st) ≤ sh'.trace.countP (wins j st) := by
  obtain ⟨os, ht⟩ := (h.evolves hs).trace
  rw [ht, List.countP_append]
  exact Nat.le_add_left _ _

theorem reach_notified (h : Reach (system cfg) C s) : notified j s.shared ≤ 1 := by
  have htok : (s.agents.map (notifying j)).sum + notified j s.shared ≤
      s.shared.trace.countP (wins j .completed) := by
    refine Reach.tokens (f := notified j) (g := fun sh => sh.trace.countP (wins j .completed))
      ?_ ?_ ?_ h
    · exact Nat.le_refl 0
    · intro s a i sh outs hr ha hact
      exact act_notified j hact (wins_mono (reach_act hr ha hact) (reach_data hr).1 _)
    · intro s e sh outs hr henv
      obtain ⟨hw, hn⟩ := env_notified j henv
      have := wins_mono (j := j) (reach_env hr henv .none) (reach_data hr).1 .completed
      omega
  rcases reach_wonOnce h j .completed with h0 | ⟨h1, _⟩
  · omega
  · omega

/-- The statuses the row of `j` takes along a run, in order; `r` has the newest state first. -/
def statusPath (r : List State) (j : String) : List JobStatus :=
  r.reverse.filterMap fun s => s.shared.db.status j

/-- One step on the status of `j`. -/
def StatusStep (old new : Option JobStatus) : Prop :=
  match old with
  | none => new = none ∨ new = some .pending
  | some a => ∃ b, new = some b ∧ (b = a ∨ a.canTransition b = true)

theorem Effect.statusStep {F : Licence} {sh sh' : Shared} (h : Effect cfg F sh sh')
    (hs : Sound cfg sh) (j : String) : StatusStep (sh.db.status j) (sh'.db.status j) := by
  simp only [Db.status]
  cases hold : sh.db.jobs.get j with
  | none =>
    cases hnew : sh'.db.jobs.get j with
    | none => exact .inl rfl
    | some job' =>
      rcases (h.row hs hnew).status with ⟨_, hp⟩ | ⟨job, hj, _⟩
      · exact .inr (by rw [Option.map_some, hp])
      · rw [hold] at hj; cases hj
  | some job =>
    obtain ⟨job', hnew, hst⟩ := (h.evolves hs).job j job hold
    exact ⟨job'.status, by rw [hnew]; rfl, hst⟩

theorem statusPath_cons (s : State) (past : List State) (j : String) :
    statusPath (s :: past) j = statusPath past j ++ (s.shared.db.status j).toList := by
  rw [statusPath, List.reverse_cons, List.filterMap_append]
  rfl

/-- The path is one of `LEGAL` from `PENDING`, up to repetitions, and ends in the current status. -/
theorem run_statusPath {r : List State} (h : Run (system cfg) C r) (j : String) :
    (statusPath r j).IsChain (fun a b => b = a ∨ a.canTransition b = true) ∧
    (∀ st ∈ (statusPath r j).head?, st = .pending) ∧
    ∀ s past, r = s :: past → (statusPath r j).getLast? = s.shared.db.status j := by
  induction h with
  | init =>
    refine ⟨?_, ?_, ?_⟩
    · exact List.IsChain.nil
    · intro st hst
      cases hst
    · rintro s past ⟨⟩
      rfl
  | @step s s' past hr hs ih =>
    obtain ⟨hchain, hhead, hlast⟩ := ih
    replace hlast := hlast s past rfl
    obtain ⟨F, heff⟩ := step_effect (hr.reach s (by simp)) hs
    have hstep := heff.statusStep (reach_data (hr.reach s (by simp))).1 j
    rw [statusPath_cons]
    cases hold : s.shared.db.status j with
    | none =>
      rw [hold] at hlast hstep
      have hnil : statusPath (s :: past) j = [] := List.getLast?_eq_none_iff.mp hlast
      rw [hnil, List.nil_append]
      rcases hstep with hnew | hnew
      · rw [hnew]
        refine ⟨List.IsChain.nil, by simp, ?_⟩
        rintro _ _ ⟨⟩
        rw [hnew]; rfl
      · rw [hnew]
        refine ⟨List.IsChain.singleton _, by simp, ?_⟩
        rintro _ _ ⟨⟩
        rw [hnew]; rfl
    | some a =>
      rw [hold] at hlast hstep
      obtain ⟨b, hnew, hab⟩ := hstep
      rw [hnew]
      refine ⟨?_, ?_, ?_⟩
      · refine List.isChain_append.mpr ⟨hchain, List.IsChain.singleton _, ?_⟩
        intro x hx y hy
        rw [hlast] at hx
        cases hx; cases hy
        exact hab
      · intro st hst
        refine hhead st ?_
        rw [List.head?_append] at hst
        cases hp : (statusPath (s :: past) j).head? with
        | none =>
          rw [List.head?_eq_none_iff.mp hp] at hlast
          cases hlast
        | some x => rw [hp] at hst; exact hst
      · rintro _ _ ⟨⟩
        rw [hnew, List.getLast?_append]
        rfl

/-- A terminal status is never left. -/
theorem run_terminal {r : List State} (h : Run (system cfg) C r) (j : String) :
    r.Pairwise fun later earlier => ∀ st, earlier.shared.db.status j = some st →
      st.terminal = true → later.shared.db.status j = some st := by
  refine Run.pairwise (T := fun x y => ∀ st, x.db.status j = some st → st.terminal = true →
    y.db.status j = some st) ?_ ?_ h
  · intro x y z hxy hyz st hst ht
    exact hyz st (hxy st hst ht) ht
  · intro s s' hr hs st hst ht
    obtain ⟨F, heff⟩ := step_effect hr hs
    have hstep := heff.statusStep (reach_data hr).1 j
    rw [hst] at hstep
    obtain ⟨b, hb, hab⟩ := hstep
    rcases hab with rfl | hab
    · exact hb
    · rw [JobStatus.terminal_iff.mp ht] at hab
      cases hab

/-- The status discipline of every run: the statuses of a job are a path of `LEGAL` from `PENDING`,
the terminal ones are never left, the final key is there exactly on completion, each status is won
by at most one call, and the webhook is entered at most once. -/
theorem status_discipline {r : List State} (h : Run (system cfg) (fun _ _ _ => True) r)
    (j : String) :
    (statusPath r j).IsChain (fun a b => b = a ∨ a.canTransition b = true) ∧
    (∀ st ∈ (statusPath r j).head?, st = .pending) ∧
    (r.Pairwise fun later earlier => ∀ st, earlier.shared.db.status j = some st →
      st.terminal = true → later.shared.db.status j = some st) ∧
    ∀ s ∈ r,
      (∀ job, s.shared.db.jobs.get j = some job →
        job.finalKey = if job.status = .completed then some (outKey j) else none) ∧
      (∀ st, s.shared.trace.countP (wins j st) ≤ 1) ∧ notified j s.shared ≤ 1 := by
  obtain ⟨hchain, hhead, _⟩ := run_statusPath h j
  refine ⟨hchain, hhead, run_terminal h j, ?_⟩
  intro s hs
  have hr := h.reach s hs
  refine ⟨reach_finalKeys hr j, ?_, reach_notified hr⟩
  intro st
  rcases reach_wonOnce hr j st with h0 | ⟨h1, _⟩
  · omega
  · omega

end Run

/-! ## A run of two blocks -/

/-- No attempt fails: a plain step, a crash or a duplicate, nothing is routed or dead-lettered, and
no fault of the design is met. -/
def calm (sh : Shared) (a : Agent) (i : Choice) : Bool :=
  match i with
  | .crash => true
  | .duplicate => true
  | .go =>
    match a with
    | .copy c =>
      match c.stage with
      | .routing _ => false
      | .dlq _ => false
      | .work (.tts (.complete _)) =>
        (sh.db.tasks.get c.msg.body.taskId).map Task.status != some .failed
      | .work (.parse (.seed _)) => sh.db.status c.msg.body.jobId != some .failed
      | _ => true
    | _ => true
  | _ => false

theorem calm_not_recounts {sh : Shared} {a : Agent} {i : Choice} (h : calm sh a i = true) :
    ¬ Recounts sh a i := by
  rintro ⟨c, key, task, rfl, rfl, hst, hg, hf⟩
  simp [calm, hst, hg, hf] at h

theorem calm_not_orphan {sh : Shared} {a : Agent} {i : Choice} (h : calm sh a i = true) :
    ¬ SeedsOrphan sh a i := by
  rintro ⟨c, blocks, rfl, rfl, hst, _, hf, _⟩
  simp [calm, hst, hf] at h

/-- Three copies of the message for the second block of `A`, `B`. The worker of one of them crashes
between its barrier and its ack, and the copy is redelivered. -/
def twoBlocksHalf : List (Action Choice Env) :=
  List.flatten [[.env (.post "j" "A\n\nB" none)], List.replicate 12 (.act 0 .go),
    [.act 0 .duplicate, .act 0 .duplicate], List.replicate 13 (.act 0 .go), [.act 0 .crash]]

/-- One copy is before its barrier again, another one before the text of its block, and the first
block is done: the stitch handler has the audio of one block in its hands. -/
def twoBlocksBusy : List (Action Choice Env) :=
  List.flatten [twoBlocksHalf, List.replicate 6 (.act 0 .go), [.act 1 .go],
    List.replicate 3 (.act 0 .go), [.act 3 .go], List.replicate 20 (.act 0 .go)]

/-- The stitch handler crashes after it has written the output object, and is redelivered. -/
def twoBlocks : List (Action Choice Env) :=
  List.flatten [twoBlocksBusy, List.replicate 3 (.act 0 .go), [.act 0 .crash],
    List.replicate 44 (.act 0 .go)]

set_option maxRecDepth 4000 in
theorem twoBlocks_halfway : ∃ s, Reach (system {}) (fun sh a i => calm sh a i = true) s ∧
    s.agents.length = 4 ∧ s.shared.db.outstanding "j" = 1 ∧
    (s.shared.db.tasksOf "j").length = 2 ∧
    .published (.live .tts) (.ttsRequested "j" "j-0") ∈ s.shared.trace :=
  System.exists_reach (fun _ _ _ h => h) twoBlocksHalf (by decide +kernel)

/-- The audio of `A` and the audio of `B`, one after the other. -/
def twoBlocksAudio : String :=
  "FAKE_AUDIO:559aead08264d5795d3909718cdd05abd49572e84fe55590eef31a88a08fdffd" ++
    "FAKE_AUDIO:df7e70e5021544f4834bbee64a9e3789febc4be81470df629cad6ddb03320a5c"

set_option maxRecDepth 4000 in
theorem twoBlocks_completes : ∃ s, Reach (system {}) (fun sh a i => calm sh a i = true) s ∧
    s.agents.length = 0 ∧ s.shared.db.status "j" = some .completed ∧
    .posted "j" "A\n\nB" ∈ s.shared.trace ∧
    (s.shared.objects (outKey "j")).map (fun bytes => bytes.data.toList) =
      some twoBlocksAudio.toUTF8.data.toList ∧
    .completeTask "j" "j-1" (some 1) ∈ s.shared.trace ∧
    .completeTask "j" "j-1" none ∈ s.shared.trace ∧
    .completeTask "j" "j-0" (some 0) ∈ s.shared.trace :=
  System.exists_reach (fun _ _ _ h => h) twoBlocks (by decide +kernel)

/-- The run of two blocks goes from `PENDING` to `COMPLETED`, and the webhook is entered once although
the stitch handler ran to its end three times more. -/
theorem status_discipline_two_blocks :
    ∃ r, Run (system {}) (fun _ _ _ => True) r ∧
      (statusPath r "j").getLast? = some .completed ∧
      (statusPath r "j").IsChain (fun a b => b = a ∨ a.canTransition b = true) ∧
      (statusPath r "j").head? = some .pending ∧
      ∃ s ∈ r, s.agents.length = 0 ∧
        ((s.shared.db.jobs.get "j").map Job.finalKey) = some (some (outKey "j")) ∧
        notified "j" s.shared ≤ 1 := by
  obtain ⟨s, hr, hend, hp, _⟩ := twoBlocks_completes
  obtain ⟨past, hrun⟩ := (hr.mono (D := fun _ _ _ => True) (fun _ _ _ _ => trivial)).run
  obtain ⟨hchain, hhead, _, hall⟩ := status_discipline hrun "j"
  have hlast := (run_statusPath hrun "j").2.2 s past rfl
  rw [hp] at hlast
  obtain ⟨hkey, _, hnot⟩ := hall s (by simp)
  refine ⟨s :: past, hrun, hlast, hchain, ?_, s, by simp, hend, ?_, hnot⟩
  · cases hd : (statusPath (s :: past) "j").head? with
    | none =>
      rw [List.head?_eq_none_iff.mp hd] at hlast
      cases hlast
    | some st => rw [hhead st (by rw [hd]; rfl)]
  · obtain ⟨job, hg, hst⟩ := Option.map_eq_some_iff.mp hp
    rw [hg, Option.map_some, hkey job hg, if_pos hst]

end Pipeline
end AudioEngine
