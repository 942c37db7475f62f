import AudioEngine.Pipeline.Chunks
import AudioEngine.Pipeline.Stages
import AudioEngine.Pipeline.Status

/-!
# AudioEngine.Pipeline.Poison

A manuscript with the poison marker is never produced.

Nothing is assumed of the run. The invariant is positive: whatever goes beyond the `JobCreated` of a
job and its `FAILED` (task rows, a status that climbs, a later event, an output object, an entry of
the webhook) belongs to a job whose stored manuscript is without the marker. `simulate_parse` is the
only place where it is decided, and every message of a poison job stays before it.
-/

namespace AudioEngine
namespace Pipeline

open Relational Interleave

/-- The stored manuscript of the job is without the poison marker. -/
def Clean (sh : Shared) (j : String) : Prop :=
  ∃ text, sh.getText (rawKey j) = some text ∧ ¬ poisonMarker.toList <:+: text.toList

/-- Up to `simulate_parse`. -/
def ParsePc.early : ParsePc → Prop
  | .validate => True
  | .loadJob => True
  | .loadText _ => True
  | .simulate _ => True
  | _ => False

/-- Where a message of a poison job can be. -/
def Stage.early : Stage → Prop
  | .work (.parse pc) => pc.early
  | .work _ => False
  | .dlq pc => pc = .resolve ∨ pc = .advanceFailed
  | _ => True

/-- The event is the `JobCreated` of its job and not yet parsed, or the job is clean. -/
def Quarantined (sh : Shared) (e : Event) (st : Stage) : Prop :=
  (e = .jobCreated e.jobId ∧ st.early) ∨ Clean sh e.jobId

section Messages

variable {cfg : Settings} {sh sh' : Shared} {j : String} {e : Event}

theorem Clean.mono (h : Clean sh j) (he : Evolves cfg sh sh') : Clean sh' j := by
  obtain ⟨text, ht, hc⟩ := h
  exact ⟨text, getText_mono he ht, hc⟩

theorem Quarantined.mono {st : Stage} (h : Quarantined sh e st) (he : Evolves cfg sh sh') :
    Quarantined sh' e st :=
  h.imp_right fun hc => hc.mono he

/-- `handle_parse` gets past `simulate_parse` with a clean manuscript only. -/
theorem parse_quarantined {pc : ParsePc} (h : ParseOk cfg sh j pc) (hpc : pc.early) :
    (parseStep cfg sh (.jobCreated j) pc).Upholds cfg sh Quarantined (.jobCreated j)
      fun pc => .work (.parse pc) := by
  have quiet : ∀ {pc' : ParsePc}, pc'.early →
      (Next.goto sh pc' none).Upholds cfg sh Quarantined (.jobCreated j)
        fun pc => .work (.parse pc) :=
    fun hpc' _ => ⟨.inl ⟨rfl, hpc'⟩, by simp⟩
  cases pc with
  | validate => exact quiet trivial
  | loadJob =>
    simp only [parseStep]
    split
    · trivial
    · exact quiet trivial
  | loadText key =>
    simp only [parseStep]
    split
    · trivial
    · exact quiet trivial
  | simulate text =>
    simp only [parseStep, simulateParse]
    split
    · trivial
    · rename_i hok
      split at hok
      · cases hok
      · rename_i hclean
        exact fun _ => ⟨.inr ⟨text, h, hclean⟩, by simp⟩
  | _ => exact hpc.elim

/-- A dead-lettered `JobCreated` fails its job and publishes nothing. -/
theorem dlq_quarantined {pc : DlqPc} (hpc : pc = .resolve ∨ pc = .advanceFailed) :
    (dlqStep sh (.jobCreated j) pc).Upholds cfg sh Quarantined (.jobCreated j) .dlq := by
  rcases hpc with rfl | rfl
  · exact fun _ => ⟨.inl ⟨rfl, .inr rfl⟩, by simp⟩
  · exact fun _ l e he => by cases he

/-- The messages of a clean job are in order wherever they are. -/
theorem Clean.upholds {P : Type} {n : Next P} {f : P → Stage} (h : Clean sh e.jobId)
    (hpub : ∀ l e', n.pub = some (l, e') → e'.jobId = e.jobId) :
    n.Upholds cfg sh Quarantined e f := by
  cases n with
  | goto sh' pc pub =>
    refine fun hev => ⟨.inr (h.mono hev.toEvolves), fun l e' he => .inr ?_⟩
    rw [hpub l e' he]
    exact h.mono hev.toEvolves
  | done sh' pub =>
    intro hev l e' he
    refine .inr ?_
    rw [hpub l e' he]
    exact h.mono hev.toEvolves
  | raise => trivial

end Messages

theorem quarantined_upheld (cfg : Settings) : Upheld cfg Quarantined where
  stable := fun he h => h.mono he.toEvolves
  submitted := fun _ _ => .inl ⟨rfl, trivial⟩
  rests := by
    intro sh e st st' h hst
    refine h.imp_left fun hq => ⟨hq.1, ?_⟩
    cases st' <;> trivial
  starts := by
    intro sh e h
    refine h.imp_left fun hq => ⟨hq.1, ?_⟩
    rw [hq.1]
    trivial
  resolves := fun h => h.imp_left fun hq => ⟨hq.1, .inl rfl⟩
  works := by
    intro sh c w _ hc hst h
    rcases h with ⟨he, hearly⟩ | hclean
    · obtain ⟨pc, rfl, hpc⟩ := work_jobCreated hc he hst
      rw [he]
      exact (parse_quarantined hpc hearly).map
    · exact hclean.upholds fun l e' => work_pub_jobId
  deadLetters := by
    intro sh c pc _ _ _ h
    rcases h with ⟨he, hearly⟩ | hclean
    · rw [he]
      exact dlq_quarantined hearly
    · exact hclean.upholds fun l e' => dlq_pub_jobId

/-! ## The stores -/

/-- What goes beyond the submission of a job belongs to a clean one. -/
structure OnlyClean (sh : Shared) : Prop where
  task : ∀ t task, sh.db.tasks.get t = some task → Clean sh task.jobId
  status : ∀ j job, sh.db.jobs.get j = some job →
    job.status = .pending ∨ job.status = .failed ∨ Clean sh j
  out : ∀ j b, sh.objects (outKey j) = some b → Clean sh j
  published : ∀ q e, .published q e ∈ sh.trace → e = .jobCreated e.jobId ∨ Clean sh e.jobId
  notified : ∀ j, .notify j ∈ sh.trace → Clean sh j

section Stores

variable {cfg : Settings} {F : Licence} {sh sh' : Shared} {t : String} {task : Task} {j : String}
  {job' : Job}

theorem claimed_owner {db' : Db} {k t' : String} {x x' : Task} {job : Job}
    (hc : Claimed sh.db db' k t' x x' job) (ho : x'.jobId = x.jobId)
    (hg : db'.tasks.get t = some task) :
    ∃ task₀, sh.db.tasks.get t = some task₀ ∧ task.jobId = task₀.jobId := by
  rw [hc.tasks] at hg
  split at hg
  · rename_i he
    cases hg
    exact ⟨x, he ▸ hc.task_get, ho⟩
  · exact ⟨task, hg, rfl⟩

/-- A row is an old one of the same job, or its job is being seeded. -/
theorem Effect.task_owner (h : Effect cfg F sh sh') (hs : Sound cfg sh)
    (hg : sh'.db.tasks.get t = some task) :
    (∃ task₀, sh.db.tasks.get t = some task₀ ∧ task.jobId = task₀.jobId) ∨ F.seeds task.jobId := by
  cases h with
  | stores h =>
    rw [h.db] at hg
    exact .inl ⟨task, hg, rfl⟩
  | insertJob _ _ => exact .inl ⟨task, hg, rfl⟩
  | seed hjob ht hseed _ hseeds =>
    rcases (hs.seed_tasks hjob ht hseed).mp hg with hold | ⟨_, hm, _⟩
    · exact .inl ⟨task, hold, rfl⟩
    · obtain ⟨_, _, _, rfl⟩ := mem_taskRows.mp hm
      exact .inr hseeds
  | advance _ h =>
    rw [Shared.log, cas_tasks h] at hg
    exact .inl ⟨task, hg, rfl⟩
  | finalize h _ =>
    rw [Shared.log, cas_tasks h] at hg
    exact .inl ⟨task, hg, rfl⟩
  | complete _ _ _ hc _ =>
    rcases completeTask_cases hc with ⟨_, rfl, _⟩ | ⟨_, _, _, _, hcl⟩
    · exact .inl ⟨task, hg, rfl⟩
    · exact .inl (claimed_owner hcl rfl hg)
  | fail _ _ hc _ =>
    rcases failTask_cases hc with ⟨_, rfl, _⟩ | ⟨_, _, _, _, hcl⟩
    · exact .inl ⟨task, hg, rfl⟩
    · exact .inl (claimed_owner hcl rfl hg)

/-- What a compare-and-set leaves in a row. -/
theorem cas_set {k : String} {expected : List JobStatus} {set : Job → Job}
    {hset : ∀ r, (set r).jobId = r.jobId} {db' : Db} {won : Bool}
    (h : casJob sh.db k expected set hset = (db', won)) (hg : db'.jobs.get j = some job') :
    sh.db.jobs.get j = some job' ∨ (j = k ∧ ∃ job, job' = set job) := by
  rcases casJob_cases h with ⟨_, rfl, _⟩ | ⟨_, _, job, _, _, hget⟩
  · exact .inl hg
  · rw [hget] at hg
    split at hg
    · rename_i he
      cases hg
      exact .inr ⟨he, job, rfl⟩
    · exact .inl hg

/-- A row starts `PENDING`, is failed, keeps its status, or is moved by whoever works for the job. -/
theorem Effect.status_owner (h : Effect cfg F sh sh') (hs : Sound cfg sh)
    (hg : sh'.db.jobs.get j = some job') :
    job'.status = .pending ∨ job'.status = .failed ∨
      (∃ job, sh.db.jobs.get j = some job ∧ job'.status = job.status) ∨
      F.seeds j ∨ F.finalizes j ∨ F.works j := by
  have stays : sh.db.jobs.get j = some job' → job'.status = .pending ∨ job'.status = .failed ∨
      (∃ job, sh.db.jobs.get j = some job ∧ job'.status = job.status) ∨
      F.seeds j ∨ F.finalizes j ∨ F.works j :=
    fun hold => .inr (.inr (.inl ⟨job', hold, rfl⟩))
  cases h with
  | stores h =>
    rw [h.db] at hg
    exact stays hg
  | insertJob _ hi =>
    replace hg := (Table.get_insert? hi j).symm.trans hg
    split at hg
    · cases hg
      exact .inl rfl
    · exact stays hg
  | seed hjob ht hseed _ hseeds =>
    obtain ⟨x, hx, _, ⟨rfl, _⟩ | ⟨rfl, _, _⟩⟩ := hs.seed_jobs hjob ht hseed hg
    · exact stays hx
    · exact .inr (.inr (.inr (.inl hseeds)))
  | @advance k st _ _ _ hcas hworks =>
    rcases cas_set hcas hg with hold | ⟨rfl, job, rfl⟩
    · exact stays hold
    · by_cases hf : st = .failed
      · exact .inr (.inl hf)
      · exact .inr (.inr (.inr (.inr (.inr (hworks hf)))))
  | finalize hcas hfin =>
    rcases cas_set hcas hg with hold | ⟨rfl, _⟩
    · exact stays hold
    · exact .inr (.inr (.inr (.inr (.inl hfin))))
  | complete _ _ _ hc _ =>
    rcases completeTask_cases hc with ⟨_, rfl, _⟩ | ⟨_, _, _, _, hcl⟩
    · exact stays hg
    · obtain ⟨x, hx, _, hst, _⟩ := claimed_job hcl hg
      exact .inr (.inr (.inl ⟨x, hx, hst⟩))
  | fail _ _ hc _ =>
    rcases failTask_cases hc with ⟨_, rfl, _⟩ | ⟨_, _, _, _, hcl⟩
    · exact stays hg
    · obtain ⟨x, hx, _, hst, _⟩ := claimed_job hcl hg
      exact .inr (.inr (.inl ⟨x, hx, hst⟩))

end Stores

section Step

variable {cfg : Settings} {sh sh' : Shared} {c : Copy} {a : Agent} {i : Choice} {outs : List Agent}
  {j : String}

/-- Before `simulate_parse` nothing is written to Postgres; the dead-letter consumer fails the job. -/
theorem early_db (he : c.msg.body = .jobCreated j) (hearly : c.stage.early)
    (hm : Moves cfg sh c i sh' outs) : sh'.db = sh.db ∨ c.stage = .dlq .advanceFailed := by
  cases hm with
  | @work w w' sh₁ pub hst hstep =>
    rw [hst] at hearly
    cases w with
    | parse pc =>
      obtain ⟨pc', hn, rfl⟩ := Next.map_eq_goto hstep
      rw [he] at hn
      rw [db_emit]
      cases pc <;> simp only [parseStep] at hn <;> (try split at hn) <;> cases hn <;>
        first
        | exact .inl rfl
        | exact hearly.elim
    | tts pc => exact hearly.elim
    | stitch pc => exact hearly.elim
  | @returned w sh₁ pub hst hstep =>
    rw [hst] at hearly
    cases w with
    | parse pc =>
      have hn := Next.map_eq_done hstep
      cases pc <;> simp only [parseStep] at hn <;> (try split at hn) <;> cases hn <;>
        exact hearly.elim
    | tts pc => exact hearly.elim
    | stitch pc => exact hearly.elim
  | @dlq pc pc' sh₁ pub hst hstep =>
    rw [hst] at hearly
    rcases hearly with rfl | rfl
    · rw [he] at hstep
      cases hstep
      exact .inl rfl
    · exact .inr hst
  | @dlqReturned pc sh₁ pub hst hstep =>
    rw [hst] at hearly
    rcases hearly with rfl | rfl
    · rw [he] at hstep
      cases hstep
    · exact .inr hst
  | _ => exact .inl rfl

/-- The agent of a later stage works for a clean job. -/
theorem clean_of_late {st : Stage} (h : Quarantined sh c.msg.body c.stage) (hst : c.stage = st)
    (hlate : ¬ st.early) (hj : c.msg.body.jobId = j) : Clean sh j := by
  subst hj
  exact h.resolve_left fun hq => hlate (hst ▸ hq.2)

theorem act_status (hs : Sound cfg sh) (ha : a.Holds cfg sh) (hq : a.Asserts Quarantined sh)
    (hact : act cfg sh a i = some (sh', outs)) {job' : Job} (hg : sh'.db.jobs.get j = some job') :
    job'.status = .pending ∨ job'.status = .failed ∨
      (∃ job, sh.db.jobs.get j = some job ∧ job'.status = job.status) ∨ Clean sh j := by
  have works : ∀ {w : Work}, (∃ c, a = .copy c ∧ c.msg.body.jobId = j ∧ c.stage = .work w) →
      (∃ job, sh.db.jobs.get j = some job ∧ job'.status = job.status) ∨ Clean sh j := by
    rintro w ⟨c, rfl, hj, hst⟩
    rcases hq with ⟨he, hearly⟩ | hclean
    · rcases early_db he hearly (act_moves hact) with hdb | hdlq
      · rw [hdb] at hg
        exact .inl ⟨job', hg, rfl⟩
      · rw [hst] at hdlq
        cases hdlq
    · exact .inr (hj ▸ hclean)
  rcases ((act_data hs ha hact).1).status_owner hs hg with hp | hf | hold | hseeds | hfin | hworks
  · exact .inl hp
  · exact .inr (.inl hf)
  · exact .inr (.inr (.inl hold))
  · obtain ⟨c, blocks, hc, _, hb, hst⟩ := hseeds
    exact .inr (.inr (works ⟨c, hc, by rw [hb]; rfl, hst⟩))
  · obtain ⟨c, hc, hj, hst⟩ := hfin
    exact .inr (.inr (works ⟨c, hc, hj, hst⟩))
  · obtain ⟨c, w, hc, _, hj, hst⟩ := hworks
    exact .inr (.inr (works ⟨c, hc, hj, hst⟩))

/-- The step lemma. -/
theorem act_onlyClean (hs : Sound cfg sh) (ha : a.Holds cfg sh) (hq : a.Asserts Quarantined sh)
    (h : OnlyClean sh) (hact : act cfg sh a i = some (sh', outs)) : OnlyClean sh' := by
  have heff := (act_data hs ha hact).1
  have hev := heff.evolves hs
  refine ⟨?_, ?_, ?_, ?_, ?_⟩
  · intro t task hg
    rcases heff.task_owner hs hg with ⟨task₀, hg₀, hj⟩ | ⟨c, blocks, rfl, _, hb, hst⟩
    · rw [hj]
      exact (h.task t task₀ hg₀).mono hev
    · exact (clean_of_late hq hst id (by rw [hb]; rfl)).mono hev
  · intro j job' hg
    rcases act_status hs ha hq hact hg with hp | hf | ⟨job, hg₀, hst⟩ | hclean
    · exact .inl hp
    · exact .inr (.inl hf)
    · rw [hst]
      exact (h.status j job hg₀).imp_right (Or.imp_right fun hc => hc.mono hev)
    · exact .inr (.inr (hclean.mono hev))
  · intro j b hb
    rcases act_out hact j with hsame | ⟨parts, ⟨c, rfl, hj, hst⟩, _⟩
    · exact (h.out j b (hsame ▸ hb)).mono hev
    · exact (clean_of_late hq hst id hj).mono hev
  · intro q e hp
    rcases act_logs hact hp with hold | hlog
    · exact (h.published q e hold).imp_right fun hc => hc.mono hev
    · cases hlog with
      | call hc => cases hc
      | @published c hc hst =>
        exact (act_asserts (quarantined_upheld cfg) hs ha hq hact _ hc).imp_left And.left
  · intro j hn
    rcases act_logs hact hn with hold | hlog
    · exact (h.notified j hold).mono hev
    · cases hlog with
      | call hc => cases hc
      | notify hnot =>
        obtain ⟨c, rfl, hj, hst⟩ := hnot
        exact (clean_of_late hq hst id hj).mono hev

theorem env_onlyClean (hs : Sound cfg sh) {x : Env} (h : OnlyClean sh)
    (henv : env sh x = some (sh', outs)) : OnlyClean sh' := by
  have heff : Effect cfg .none sh sh' := (env_data hs henv .none).1
  have hev := heff.evolves hs
  refine ⟨?_, ?_, ?_, ?_, ?_⟩
  · intro t task hg
    rcases heff.task_owner hs hg with ⟨task₀, hg₀, hj⟩ | hseeds
    · rw [hj]
      exact (h.task t task₀ hg₀).mono hev
    · exact hseeds.elim
  · intro j job' hg
    rcases heff.status_owner hs hg with hp | hf | ⟨job, hg₀, hst⟩ | hno | hno | hno
    · exact .inl hp
    · exact .inr (.inl hf)
    · rw [hst]
      exact (h.status j job hg₀).imp_right (Or.imp_right fun hc => hc.mono hev)
    · exact hno.elim
    · exact hno.elim
    · exact hno.elim
  · intro j b hb
    rw [env_out henv j] at hb
    exact (h.out j b hb).mono hev
  · intro q e hp
    rcases env_logs henv hp with hold | ⟨_, _, hpost⟩
    · exact (h.published q e hold).imp_right fun hc => hc.mono hev
    · cases hpost
  · intro j hn
    rcases env_logs henv hn with hold | ⟨_, _, hpost⟩
    · exact (h.notified j hold).mono hev
    · cases hpost

end Step

theorem reach_onlyClean {cfg : Settings} {C : Shared → Agent → Choice → Prop} {s : State}
    (h : Reach (system cfg) C s) : OnlyClean s.shared := by
  refine Reach.shared (G := OnlyClean) ?_ ?_ ?_ h
  · constructor <;> intros <;> contradiction
  · intro s a i sh' outs hr ha _ hc hact
    obtain ⟨hs, hA⟩ := reach_data hr
    exact act_onlyClean hs (hA a ha) (reach_asserts (quarantined_upheld cfg) hr a ha) hc hact
  · intro s x sh' outs hr hc henv
    exact env_onlyClean (reach_data hr).1 hc henv

/-- In every run, whatever is redelivered, duplicated, dead-lettered or swept: a manuscript with the
poison marker gets no task row, no status but `PENDING` and `FAILED`, no output object, no event but
`JobCreated` and no webhook. -/
theorem poison_never_produced {cfg : Settings} {s : State} {j m : String}
    (h : Reach (system cfg) (fun _ _ _ => True) s) (hm : .posted j m ∈ s.shared.trace)
    (hp : poisonMarker.toList <:+: m.toList) :
    s.shared.db.tasksOf j = [] ∧
    (∀ job, s.shared.db.jobs.get j = some job → job.status = .pending ∨ job.status = .failed) ∧
    s.shared.objects (outKey j) = none ∧
    (∀ q e, .published q e ∈ s.shared.trace → e.jobId = j → e = .jobCreated j) ∧
    .notify j ∉ s.shared.trace := by
  have hc := reach_onlyClean h
  have hdirty : ¬ Clean s.shared j := by
    rintro ⟨text, ht, hclean⟩
    obtain rfl := Option.some.inj (((reach_data h).1.getText hm).symm.trans ht)
    exact hclean hp
  refine ⟨?_, ?_, ?_, ?_, fun hn => hdirty (hc.notified j hn)⟩
  · rw [List.eq_nil_iff_forall_not_mem]
    intro t ht
    obtain ⟨hg, hj⟩ := mem_tasksOf.mp ht
    exact hdirty (hj ▸ hc.task _ t hg)
  · intro job hg
    rcases hc.status j job hg with h | h | h
    · exact .inl h
    · exact .inr h
    · exact absurd h hdirty
  · exact Option.eq_none_iff_forall_ne_some.mpr fun b hb => hdirty (hc.out j b hb)
  · rintro q e hpub rfl
    exact (hc.published q e hpub).resolve_right hdirty

/-- A poison manuscript climbs the retry ladder and is failed by the dead-letter consumer. -/
def poisonDrained : List (Action Choice Env) :=
  .env (.post "j" "A\n\n__POISON__" none) :: List.replicate 37 (.act 0 .go)

set_option maxRecDepth 4000 in
theorem poisonDrained_reach : ∃ s, Reach (system {}) (fun _ _ _ => True) s ∧
    s.agents.length = 0 ∧ s.shared.db.status "j" = some .failed ∧
    .posted "j" "A\n\n__POISON__" ∈ s.shared.trace :=
  System.exists_reach (C := fun _ _ _ => true) (fun _ _ _ _ => trivial) poisonDrained
    (by decide +kernel)

theorem poison_never_produced_drained :
    ∃ s, Reach (system {}) (fun _ _ _ => True) s ∧ s.shared.db.status "j" = some .failed ∧
      s.shared.db.tasksOf "j" = [] ∧ s.shared.objects (outKey "j") = none := by
  obtain ⟨s, h, _, hst, hm⟩ := poisonDrained_reach
  obtain ⟨htasks, _, hout, _⟩ := poison_never_produced h hm (by decide +kernel)
  exact ⟨s, h, hst, htasks, hout⟩

end Pipeline
end AudioEngine
