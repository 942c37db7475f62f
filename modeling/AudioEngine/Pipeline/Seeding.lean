import AudioEngine.Pipeline.Counter
import AudioEngine.Pipeline.Exact
import AudioEngine.Pipeline.Trace

/-!
# AudioEngine.Pipeline.Seeding

Task rows and the counter seed as one unit.

The insert of `handle_parse` commits with `begin_parse` also when the compare-and-set loses. It
loses without rows in the table in one way only: the dead-letter path has `FAILED` the job before
it was parsed. `rows_are_seeded` shows that runs without such an insert keep the unit;
`rows_without_seed` is a run that breaks it.
-/

namespace AudioEngine
namespace Pipeline

open Relational Interleave

/-! ## Rows and seed -/

/-- A job with rows has been seeded with their number. -/
def RowsSeeded (sh : Shared) : Prop :=
  ∀ j, sh.db.tasksOf j ≠ [] → .beginParse j (sh.db.tasksOf j).length true ∈ sh.trace

section Seed

variable {cfg : Settings} {F : Licence} {sh sh' : Shared}

theorem RowsSeeded.of_lengths (h : RowsSeeded sh) (he : Evolves cfg sh sh') {j : String}
    (hlen : (sh'.db.tasksOf j).length = (sh.db.tasksOf j).length) (hne : sh'.db.tasksOf j ≠ []) :
    .beginParse j (sh'.db.tasksOf j).length true ∈ sh'.trace := by
  obtain ⟨os, ht⟩ := he.trace
  rw [hlen, ht]
  refine List.mem_append_right os (h j ?_)
  rw [← List.length_pos_iff] at hne ⊢
  omega

theorem claimed_length {db' : Db} {k t : String} {task task' : Task} {job : Job}
    (hc : Claimed sh.db db' k t task task' job) (j : String) :
    (db'.tasksOf j).length = (sh.db.tasksOf j).length := by
  rw [hc.tasksOf, List.length_map]

theorem Effect.rowsSeeded (h : Effect cfg F sh sh') (hs : Sound cfg sh) (hF : ¬ F.orphan)
    (hr : RowsSeeded sh) : RowsSeeded sh' := by
  intro j
  have keep := hr.of_lengths (j := j) (h.evolves hs)
  cases h with
  | stores h => exact keep (by rw [h.db])
  | insertJob hp hi => exact keep rfl
  | @seed k text job db won hjob ht hseed horphan =>
    by_cases hk : j = k
    · subst hk
      intro hne
      replace hne : db.tasksOf j ≠ [] := hne
      rcases hs.seed_cases hjob ht hseed with
        ⟨hnil, hrows, ⟨rfl, _, _⟩ | ⟨_, hf, _⟩⟩ | ⟨_, rfl, _, _⟩
      · have hlen : (db.tasksOf j).length = (blocksOf cfg text).length := by
          rw [tasksOf_appended hrows, hnil, if_pos rfl, List.nil_append, length_taskRows]
        show Obs.beginParse j (db.tasksOf j).length true ∈ _
        rw [hlen]
        exact List.mem_cons_self
      · -- the insert of a `FAILED` job without rows
        rw [tasksOf_appended hrows, hnil, if_pos rfl, List.nil_append] at hne
        refine absurd (horphan hf hnil ?_) hF
        intro hb
        rw [hb] at hne
        exact hne rfl
      · exact keep rfl hne
    · exact keep (congrArg List.length (hs.seed_tasksOf hjob ht hseed hk))
  | advance hst h => exact keep (congrArg List.length (cas_tasksOf h j))
  | finalize h _ => exact keep (congrArg List.length (cas_tasksOf h j))
  | complete _ _ _ hc _ =>
    rcases completeTask_cases hc with ⟨_, rfl, _⟩ | ⟨_, _, _, _, hcl⟩
    · exact keep rfl
    · exact keep (claimed_length hcl j)
  | fail _ _ hc _ =>
    rcases failTask_cases hc with ⟨_, rfl, _⟩ | ⟨_, _, _, _, hcl⟩
    · exact keep rfl
    · exact keep (claimed_length hcl j)

end Seed

/-! ## Runs -/

section Run

variable {cfg : Settings} {C : Shared → Agent → Choice → Prop} {s : State}

/-- The event of every publish is in order. -/
theorem reach_published (h : Reach (system cfg) C s) :
    ∀ q e, .published q e ∈ s.shared.trace → EventOk s.shared e := by
  refine Reach.shared (G := fun sh => ∀ q e, .published q e ∈ sh.trace → EventOk sh e) ?_ ?_ ?_ h
  · intro q e hp
    cases hp
  · intro s a i sh' outs hr ha _ hg hact q e hp
    obtain ⟨hs, hA⟩ := reach_data hr
    obtain ⟨heff, houts⟩ := act_data hs (hA a ha) hact
    rcases act_logs hact hp with hp | hlog
    · exact (hg q e hp).mono (heff.evolves hs)
    · cases hlog with
      | call hc => cases hc
      | published hc _ => exact (houts _ hc).2.1
  · intro s x sh' outs hr hg henv q e hp
    have hs := (reach_data hr).1
    rcases env_logs henv hp with hp | ⟨_, _, he⟩
    · exact (hg q e hp).mono ((env_data hs henv .none).1.evolves hs)
    · cases he

theorem reach_rowsSeeded (hC : ∀ sh a i, C sh a i → ¬ SeedsOrphan sh a i)
    (h : Reach (system cfg) C s) : RowsSeeded s.shared := by
  refine reach_effects (K := fun F => ¬ F.orphan) hC id ?_ ?_ h
  · intro j hj
    exact absurd rfl hj
  · intro F s sh' hr hF he hg
    exact he.rowsSeeded (reach_data hr).1 hF hg

/-- In every run without an insert for a `FAILED` job that has no rows: a job with rows was seeded
with their number, and every job for which a `TtsRequested` was published was seeded. When also no
`FAILED` task is completed, outstanding tasks come with a positive counter. -/
theorem rows_are_seeded :
    (Reach (system cfg) (fun sh a i => ¬ SeedsOrphan sh a i) s →
      (∀ j, s.shared.db.tasksOf j ≠ [] →
        .beginParse j (s.shared.db.tasksOf j).length true ∈ s.shared.trace) ∧
      ∀ q j t, .published q (.ttsRequested j t) ∈ s.shared.trace →
        ∃ n, .beginParse j n true ∈ s.shared.trace) ∧
    (Reach (system cfg) (fun sh a i => ¬ SeedsOrphan sh a i ∧ ¬ Recounts sh a i) s →
      ∀ j, 0 < s.shared.db.outstanding j →
        ∃ job, s.shared.db.jobs.get j = some job ∧ 0 < job.pendingCount) := by
  constructor
  · intro h
    have hrows := reach_rowsSeeded (fun _ _ _ hc => hc) h
    refine ⟨hrows, ?_⟩
    intro q j t hp
    obtain ⟨⟨task, hg, hj⟩, _⟩ := reach_published h q _ hp
    have hid := (Table.get_eq_some.mp hg).2
    have hm : task ∈ s.shared.db.tasksOf j := mem_tasksOf.mpr ⟨by rw [hid]; exact hg, hj⟩
    exact ⟨_, hrows j (List.ne_nil_of_mem hm)⟩
  · intro h j hpos
    have hrows := reach_rowsSeeded (fun _ _ _ hc => hc.1) h
    obtain ⟨t, ht, _⟩ := outstanding_pos_iff.mp hpos
    obtain ⟨_, hp, he⟩ := reach_counted (fun _ _ _ hc => hc.2) h j
      ⟨_, hrows j (List.ne_nil_of_mem ht)⟩
    obtain ⟨job, hg, _⟩ := hp
    refine ⟨job, hg, ?_⟩
    rw [Db.Exact, hg, Option.map_some, Option.some.injEq] at he
    omega

end Run

/-- One of two blocks is outstanding after a crash, with four copies in flight. -/
theorem rows_are_seeded_two_blocks :
    ∃ s, Reach (system {}) (fun sh a i => ¬ SeedsOrphan sh a i ∧ ¬ Recounts sh a i) s ∧
      s.agents.length = 4 ∧ s.shared.db.outstanding "j" = 1 ∧
      .beginParse "j" 2 true ∈ s.shared.trace ∧
      (∃ n, .published (.live .tts) (.ttsRequested "j" "j-0") ∈ s.shared.trace ∧
        .beginParse "j" n true ∈ s.shared.trace) ∧
      ∃ job, s.shared.db.jobs.get "j" = some job ∧ 0 < job.pendingCount := by
  obtain ⟨s, hr, hlen, hout, htwo, hpub⟩ := twoBlocks_halfway
  have h := hr.mono (D := fun sh a i => ¬ SeedsOrphan sh a i ∧ ¬ Recounts sh a i)
    fun _ _ _ hc => ⟨calm_not_orphan hc, calm_not_recounts hc⟩
  obtain ⟨hrows, hseeded⟩ :=
    rows_are_seeded.1 (h.mono (D := fun sh a i => ¬ SeedsOrphan sh a i) fun _ _ _ hc => hc.1)
  have hne : s.shared.db.tasksOf "j" ≠ [] := by
    intro hnil
    rw [hnil] at htwo
    cases htwo
  have hbegin := hrows "j" hne
  rw [htwo] at hbegin
  obtain ⟨n, hn⟩ := hseeded _ _ _ hpub
  exact ⟨s, h, hlen, hout, hbegin, ⟨n, hpub, hn⟩, rows_are_seeded.2 h "j" (by omega)⟩

/-- One failed attempt of the copy at the head of the pool, up to the next delivery. -/
def failedAttempt : List (Action Choice Env) :=
  [.act 0 .go, .act 0 (.fail false), .act 0 .go, .act 0 .go, .act 0 .go]

/-- Two copies of `JobCreated`: the first fails on every attempt and is resolved by the dead-letter
consumer, the second is parsed afterwards. -/
def failedThenParsed : List (Action Choice Env) :=
  [.env (.post "j" "A" none), .act 0 .go, .act 0 .go, .act 0 .duplicate] ++
    (List.replicate 4 failedAttempt).flatten ++ List.replicate 11 (.act 0 .go)

set_option maxRecDepth 4000 in
/-- The job is `FAILED`, its row was inserted without a seed, and its `TtsRequested` is out. -/
theorem rows_without_seed : ∃ s, Reach (system {}) (fun _ _ _ => True) s ∧
    s.shared.db.status "j" = some .failed ∧ (s.shared.db.tasksOf "j").length = 1 ∧
    s.shared.trace.countP (seeds "j") = 0 ∧ s.shared.db.outstanding "j" = 1 ∧
    (s.shared.db.jobs.get "j").map Job.pendingCount = some 0 ∧
    .published (.live .tts) (.ttsRequested "j" "j-0") ∈ s.shared.trace :=
  System.exists_reach (C := fun _ _ _ => true) (fun _ _ _ _ => trivial) failedThenParsed
    (by decide +kernel)

end Pipeline
end AudioEngine
