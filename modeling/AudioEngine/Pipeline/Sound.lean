import AudioEngine.Pipeline.Rows

/-!
# AudioEngine.Pipeline.Sound

Every move of the model keeps the invariant of the stores (`Effect.sound`) and only moves them
forward (`Effect.evolves`), and outside the job it is licensed for it changes nothing
(`Effect.touch`).
-/

namespace AudioEngine
namespace Pipeline

open Relational

section Effect

variable {cfg : Settings} {F : Licence} {sh sh' : Shared}

theorem Sound.log (hs : Sound cfg sh) {o : Obs} (ho : ∀ j m, o ≠ .posted j m) :
    Sound cfg (sh.log o) where
  posted := by
    intro j m hm
    rcases List.mem_cons.mp hm with he | hm
    · exact absurd he.symm (ho j m)
    · exact hs.posted j m hm
  job := by
    intro j job hj
    obtain ⟨hk, m, hm⟩ := hs.job j job hj
    exact ⟨hk, m, List.mem_cons_of_mem _ hm⟩
  owner := hs.owner
  laid := by
    intro j job hj
    rcases hs.laid j job hj with h0 | ⟨⟨text, hl⟩, hne⟩
    · exact .inl h0
    · exact .inr ⟨⟨text, hl.stored, hl.rows⟩, hne⟩
  done := hs.done
  cached := hs.cached
  audio := hs.audio

theorem Evolves.log (h : Evolves cfg sh sh') (o : Obs) : Evolves cfg sh (sh'.log o) where
  job := h.job
  task := h.task
  laid := fun j text hl => ⟨(h.laid j text hl).stored, (h.laid j text hl).rows⟩
  raw := h.raw
  audio := h.audio
  trace := by
    obtain ⟨os, ht⟩ := h.trace
    exact ⟨o :: os, by rw [Shared.log, ht]; rfl⟩

theorem Evolves.refl (cfg : Settings) (sh : Shared) : Evolves cfg sh sh where
  job := fun _ job hj => ⟨job, hj, .inl rfl⟩
  task := fun _ task ht => ⟨task, ht, rfl, fun _ => rfl, fun hp => hp⟩
  laid := fun _ _ hl => hl
  raw := fun _ _ hb => hb
  audio := fun _ _ hb => hb
  trace := ⟨[], rfl⟩

theorem advance_leaves {st : JobStatus} {P : Prop}
    (hst : st = .generating ∨ st = .stitching ∨ (st = .failed ∧ P))
    (h : JobStatus.pending.canTransition st = true) : st = .failed := by
  rcases hst with rfl | rfl | ⟨rfl, _⟩
  · cases h
  · cases h
  · rfl

theorem Effect.sound (h : Effect cfg F sh sh') (hs : Sound cfg sh) : Sound cfg sh' := by
  cases h with
  | stores h => exact h.sound hs
  | insertJob hp hi => exact insertJob_sound hs hp hi
  | seed hj ht h _ => exact (seed_sound hs hj ht h).log (by simp)
  | advance hst h =>
    exact (cas_sound h (fun _ => ⟨rfl, rfl⟩) (advance_leaves hst) hs).log (by simp)
  | finalize h _ => exact (cas_sound h (fun _ => ⟨rfl, rfl⟩) (by decide) hs).log (by simp)
  | complete ht hj hb h _ =>
    refine Sound.log ?_ (by simp)
    rcases completeTask_cases h with ⟨_, rfl, _⟩ | ⟨task', job, _, _, hc⟩
    · exact hs
    · obtain rfl := Option.some.inj (ht.symm.trans hc.task_get)
      exact claimed_sound hc rfl (fun _ => ⟨rfl, hb⟩) hs
  | fail ht hj h _ =>
    refine Sound.log ?_ (by simp)
    rcases failTask_cases h with ⟨_, rfl, _⟩ | ⟨task', job, _, _, hc⟩
    · exact hs
    · exact claimed_sound hc rfl (fun h => by cases h) hs

theorem Effect.evolves (h : Effect cfg F sh sh') (hs : Sound cfg sh) : Evolves cfg sh sh' := by
  cases h with
  | stores h => exact h.evolves hs
  | insertJob hp hi => exact insertJob_evolves hi
  | seed hj ht h _ => exact (seed_evolves hs hj ht h).log _
  | advance hst h => exact (cas_evolves h fun _ => ⟨rfl, rfl⟩).log _
  | finalize h _ => exact (cas_evolves h fun _ => ⟨rfl, rfl⟩).log _
  | complete ht hj hb h _ =>
    refine Evolves.log ?_ _
    rcases completeTask_cases h with ⟨_, rfl, _⟩ | ⟨task', job, hne, _, hc⟩
    · exact .refl cfg sh
    · exact claimed_evolves hc rfl hne (by simp)
  | fail ht hj h _ =>
    refine Evolves.log ?_ _
    rcases failTask_cases h with ⟨_, rfl, _⟩ | ⟨task', job, hp, _, hc⟩
    · exact .refl cfg sh
    · exact claimed_evolves hc rfl (by rw [hp]; simp) (by simp)

end Effect

/-! ## The view of one job -/

section View

variable {cfg : Settings} {F : Licence} {sh sh' : Shared} {j : String}

theorem jobView_eq {db : Db} {o : Obs} (hj : db.jobs.get j = sh.db.jobs.get j)
    (ht : db.tasksOf j = sh.db.tasksOf j) :
    jobView ({ sh with db := db }.log o) j = jobView sh j := by
  simp only [jobView, Shared.log, hj, ht]

theorem jobView_emit (pub : Option (Live × Event)) : jobView (emit sh pub).1 j = jobView sh j := by
  cases pub <;> rfl

theorem cas_other {k : String} {expected : List JobStatus} {set : Job → Job}
    {hset : ∀ r, (set r).jobId = r.jobId} {db' : Db} {won : Bool} {o : Obs} (hk : j ≠ k)
    (h : casJob sh.db k expected set hset = (db', won)) :
    jobView ({ sh with db := db' }.log o) j = jobView sh j := by
  rcases casJob_cases h with ⟨_, rfl, _⟩ | ⟨_, htasks, _, _, _, hget⟩
  · rfl
  · refine jobView_eq ?_ (by rw [Db.tasksOf, htasks]; rfl)
    rw [hget, if_neg hk]

theorem claimed_tasksOf {db' : Db} {k t : String} {task task' : Task} {job : Job}
    (hc : Claimed sh.db db' k t task task' job) (hj : task.jobId ≠ j) :
    db'.tasksOf j = sh.db.tasksOf j := by
  rw [hc.tasksOf]
  refine (List.map_congr_left fun x hx => ?_).trans (List.map_id _)
  rw [if_neg]
  · rfl
  intro he
  obtain ⟨hg, hx'⟩ := mem_tasksOf.mp hx
  rw [he, hc.task_get] at hg
  cases hg
  exact hj hx'

theorem claimed_other {db' : Db} {k t : String} {task task' : Task} {job : Job} {o : Obs}
    (hc : Claimed sh.db db' k t task task' job) (howner : task.jobId = k) (hk : j ≠ k) :
    jobView ({ sh with db := db' }.log o) j = jobView sh j := by
  refine jobView_eq ?_ (claimed_tasksOf hc ?_)
  · rw [hc.jobs, if_neg hk]
  · rw [howner]
    exact Ne.symm hk

/-- What one move does to the job `j`: nothing, or the agent's work for this job. -/
inductive Touch (cfg : Settings) (F : Licence) (sh sh' : Shared) (j : String) : Prop where
  | other : jobView sh' j = jobView sh j → Touch cfg F sh sh' j
  | created : sh.db.jobs.get j = none → sh'.db.status j = some .pending →
      sh'.db.tasksOf j = sh.db.tasksOf j → Touch cfg F sh sh' j
  | seeds {text : String} {job : Job} {won : Bool} : sh.db.jobs.get j = some job →
      sh.getText (rawKey j) = some text →
      seedTasks sh.db j (blocksOf cfg text) = .ok (sh'.db, won) → F.seeds j → Touch cfg F sh sh' j
  | cas {st : JobStatus} {set : Job → Job} {hset : ∀ r, (set r).jobId = r.jobId} {won : Bool} :
      casJob sh.db j st.expectedFor set hset = (sh'.db, won) →
      (∀ r, (set r).pendingCount = r.pendingCount) → F.finalizes j ∨ F.works j ∨ F.deadLetter →
      Touch cfg F sh sh' j
  | claims : F.claims j → Touch cfg F sh sh' j

/-- **Frame.** Whoever is not at work for the job leaves it alone. -/
theorem Effect.touch (h : Effect cfg F sh sh') (hs : Sound cfg sh) (j : String) :
    Touch cfg F sh sh' j := by
  cases h with
  | stores h => exact .other (by rw [jobView, h.db]; rfl)
  | @insertJob k _ cb jobs hp hi =>
    have hget := Table.get_insert? hi j
    by_cases hk : j = k
    · subst hk
      rw [if_pos rfl] at hget
      exact .created (Table.insert?_eq_some hi).2 (congrArg (Option.map Job.status) hget) rfl
    · rw [if_neg (Ne.symm hk)] at hget
      refine .other ?_
      rw [jobView, hget]
      rfl
  | @seed k text job db won hjob ht hseed _ hseeds =>
    by_cases hk : j = k
    · subst hk
      exact .seeds hjob ht hseed hseeds
    · refine .other (jobView_eq ?_ (hs.seed_tasksOf hjob ht hseed hk))
      rcases hs.seed_cases hjob ht hseed with ⟨_, _, ⟨_, _, hget⟩ | ⟨_, _, hjobs⟩⟩ | ⟨_, rfl, _, _⟩
      · rw [hget, if_neg hk]
      · rw [hjobs]
      · rfl
  | @advance k st db won hst h hworks =>
    by_cases hk : j = k
    · subst hk
      refine .cas h (fun _ => rfl) (.inr ?_)
      by_cases hf : st = .failed
      · rcases hst with rfl | rfl | ⟨_, hd⟩
        · cases hf
        · cases hf
        · exact .inr hd
      · exact .inl (hworks hf)
    · exact .other (cas_other hk h)
  | @finalize k db won h hfin =>
    by_cases hk : j = k
    · subst hk
      exact .cas h (fun _ => rfl) (.inl hfin)
    · exact .other (cas_other hk h)
  | @complete k t task db r ht howner _ hc _ hclaims =>
    by_cases hk : j = k
    · subst hk
      exact .claims hclaims
    · rcases completeTask_cases hc with ⟨_, rfl, _⟩ | ⟨_, _, _, _, hcl⟩
      · exact .other rfl
      · obtain rfl := Option.some.inj (ht.symm.trans hcl.task_get)
        exact .other (claimed_other hcl howner hk)
  | @fail k t task db r ht howner hc _ hclaims =>
    by_cases hk : j = k
    · subst hk
      exact .claims hclaims
    · rcases failTask_cases hc with ⟨_, rfl, _⟩ | ⟨_, _, _, _, hcl⟩
      · exact .other rfl
      · obtain rfl := Option.some.inj (ht.symm.trans hcl.task_get)
        exact .other (claimed_other hcl howner hk)

end View

end Pipeline
end AudioEngine
