import AudioEngine.Pipeline.Seeding

/-!
# AudioEngine.Pipeline.Chunks

The chunks of a job once its fan-in is over.

When no task of a job is `PENDING` its rows are frozen (`Effect.frozen`), and so are the chunk keys
a stitcher reads and the objects behind them. The output object is written by stitchers only.
-/

namespace AudioEngine
namespace Pipeline

open Relational Interleave

def Failed (sh : Shared) (j : String) : Prop := sh.db.status j = some .failed

/-- The fan-in of the job is over: no task is `PENDING`, or the job has been failed. -/
def Crossed (sh : Shared) (j : String) : Prop :=
  Past sh j 2 ∧ (Failed sh j ∨ sh.db.outstanding j = 0)

/-- The output object is the concatenation of the job's chunks. -/
def Stitched (sh : Shared) (j : String) : Prop :=
  ∃ parts, (chunkKeys sh.db j).map sh.objects = parts.map some ∧
    sh.objects (outKey j) = some (joinBytes parts)

section Frozen

variable {cfg : Settings} {F : Licence} {sh sh' : Shared} {j : String}

theorem Failed.mono (h : Failed sh j) (he : Evolves cfg sh sh') : Failed sh' j := by
  obtain ⟨job, hg, hf⟩ := Option.map_eq_some_iff.mp h
  obtain ⟨job', hg', hst⟩ := he.job j job hg
  rw [Failed, Db.status, hg', Option.map_some]
  rcases hst with hst | hst
  · rw [hst, hf]
  · rw [hf, JobStatus.terminal_iff.mp rfl] at hst
    cases hst

theorem Sound.laid_of_completed (hs : Sound cfg sh) (h : sh.db.status j = some .completed) :
    Laid cfg sh j := by
  obtain ⟨job, hg, hst⟩ := Option.map_eq_some_iff.mp h
  rcases hs.laid j job hg with ⟨_, hp | hf⟩ | ⟨hl, _⟩
  · rw [hst] at hp
    cases hp
  · rw [hst] at hf
    cases hf
  · exact hl

theorem not_pending_of_outstanding {db : Db} (h : db.outstanding j = 0) {t : String} {task : Task}
    (hg : db.tasks.get t = some task) (hj : task.jobId = j) : task.status ≠ .pending := by
  intro hp
  have hid := (Table.get_eq_some.mp hg).2
  have := outstanding_pos_iff.mpr ⟨task, mem_tasksOf.mpr ⟨by rw [hid]; exact hg, hj⟩, hp⟩
  omega

/-- Once no task is `PENDING`, the rows of the job are frozen. -/
theorem Effect.frozen (h : Effect cfg F sh sh') (hs : Sound cfg sh) (hF : ¬ F.recount)
    (hp : Past sh j 1) (h0 : sh.db.outstanding j = 0) :
    Failed sh j ∨ sh'.db.tasksOf j = sh.db.tasksOf j := by
  cases h with
  | stores h => exact .inr (by rw [h.db])
  | insertJob _ _ => exact .inr rfl
  | @seed k text job db won hjob ht hseed _ =>
    by_cases hk : j = k
    · subst hk
      rcases hs.seed_cases hjob ht hseed with ⟨_, _, ⟨_, hpend, _⟩ | ⟨_, hf, _⟩⟩ | ⟨_, rfl, _, _⟩
      · obtain ⟨job', hg, hrank⟩ := hp
        obtain rfl := Option.some.inj (hjob.symm.trans hg)
        rw [hpend] at hrank
        cases hrank
      · exact .inl (by rw [Failed, Db.status, hjob, Option.map_some, hf])
      · exact .inr rfl
    · exact .inr (hs.seed_tasksOf hjob ht hseed hk)
  | advance _ h => exact .inr (cas_tasksOf h j)
  | finalize h _ => exact .inr (cas_tasksOf h j)
  | @complete k t task db r ht howner _ hc hrec =>
    refine .inr ?_
    rcases completeTask_cases hc with ⟨_, rfl, _⟩ | ⟨task', job, hne, _, hcl⟩
    · rfl
    · obtain rfl := Option.some.inj (ht.symm.trans hcl.task_get)
      refine claimed_tasksOf hcl ?_
      intro hj
      have hnp := not_pending_of_outstanding h0 ht hj
      cases hst : task.status with
      | pending => exact hnp hst
      | done => exact hne hst
      | failed => exact hF (hrec hst)
  | @fail k t task db r ht howner hc _ =>
    refine .inr ?_
    rcases failTask_cases hc with ⟨_, rfl, _⟩ | ⟨task', job, hpend, _, hcl⟩
    · rfl
    · obtain rfl := Option.some.inj (ht.symm.trans hcl.task_get)
      exact claimed_tasksOf hcl fun hj => not_pending_of_outstanding h0 ht hj hpend

theorem mem_chunkKeys {db : Db} {k : String} : k ∈ chunkKeys db j ↔
    ∃ t ∈ db.tasksOf j, t.status = .done ∧ t.audioKey = some k := by
  simp only [chunkKeys, doneTasks, List.mem_filterMap, List.mem_insertionSort, List.mem_filter,
    decide_eq_true_eq]
  constructor
  · rintro ⟨t, ⟨ht, hd⟩, hk⟩; exact ⟨t, ht, hd, hk⟩
  · rintro ⟨t, ht, hd, hk⟩; exact ⟨t, ⟨ht, hd⟩, hk⟩

/-- The rows of a job stand in the order of its blocks. -/
theorem LaidOut.ordered {text : String} (h : LaidOut cfg sh j text) :
    (sh.db.tasksOf j).Pairwise fun a b => a.blockIndex < b.blockIndex := by
  have hrows := congrArg (List.map fun o => o.2.2.1) h.rows
  rw [List.map_map, List.map_map, taskRows_map] at hrows
  have hindex : (sh.db.tasksOf j).map Task.blockIndex = (blocksOf cfg text).zipIdx.map Prod.snd := hrows
  have hlt : ((sh.db.tasksOf j).map Task.blockIndex).Pairwise (· < ·) := by
    rw [hindex, List.zipIdx_map_snd]
    exact List.pairwise_lt_range'
  exact List.pairwise_map.mp hlt

theorem LaidOut.doneTasks_eq {text : String} (h : LaidOut cfg sh j text) :
    doneTasks sh.db j = (sh.db.tasksOf j).filter fun t => t.status = .done := by
  refine List.Pairwise.insertionSort_eq ((h.ordered.filter _).imp ?_)
  intro a b hab
  exact Nat.le_of_lt hab

/-- The object `key` names for a task. -/
def Chunk (sh : Shared) (t : Task) (bytes : ByteArray) : Prop :=
  ∃ key, t.audioKey = some key ∧ sh.objects key = some bytes

theorem chunks_of_keys {l : List Task} {parts : List ByteArray} (hl : ∀ t ∈ l, t.audioKey ≠ none)
    (h : (l.filterMap Task.audioKey).map sh.objects = parts.map some) :
    List.Forall₂ (Chunk sh) l parts := by
  induction l generalizing parts with
  | nil =>
    cases parts with
    | nil => exact .nil
    | cons _ _ => cases h
  | cons t l ih =>
    obtain ⟨key, hkey⟩ := Option.ne_none_iff_exists'.mp (hl t (by simp))
    rw [List.filterMap_cons_some hkey, List.map_cons] at h
    cases parts with
    | nil => cases h
    | cons bytes parts =>
      obtain ⟨hb, ht⟩ := List.cons.inj h
      exact .cons ⟨key, hkey, hb⟩ (ih (fun x hx => hl x (by simp [hx])) ht)

/-- A chunk stays what it is. -/
theorem Sound.chunk (hs : Sound cfg sh) (he : Evolves cfg sh sh') {k : String}
    (hk : k ∈ chunkKeys sh.db j) : sh'.objects k = sh.objects k := by
  obtain ⟨t, ht, hd, hkey⟩ := mem_chunkKeys.mp hk
  obtain ⟨hkey', hb⟩ := hs.done _ t (mem_tasksOf.mp ht).1 hd
  rw [hkey] at hkey'
  cases hkey'
  rw [hb]
  exact he.audio _ _ hb

/-- What a crossed job keeps over a move. -/
structure Keeps (sh sh' : Shared) (j : String) : Prop where
  keys : chunkKeys sh'.db j = chunkKeys sh.db j
  chunks : ∀ k ∈ chunkKeys sh.db j, sh'.objects k = sh.objects k

theorem Effect.crossed (h : Effect cfg F sh sh') (hs : Sound cfg sh) (hF : ¬ F.recount)
    (hc : Crossed sh j) : Crossed sh' j ∧ (Failed sh' j ∨ Keeps sh sh' j) := by
  have hev := h.evolves hs
  obtain ⟨hp, hf | h0⟩ := hc
  · exact ⟨⟨hp.mono hev, .inl (hf.mono hev)⟩, .inl (hf.mono hev)⟩
  · rcases h.frozen hs hF (hp.weaken (by omega)) h0 with hf | hrows
    · exact ⟨⟨hp.mono hev, .inl (hf.mono hev)⟩, .inl (hf.mono hev)⟩
    · refine ⟨⟨hp.mono hev, .inr ?_⟩, .inr ⟨?_, fun k hk => hs.chunk hev hk⟩⟩
      · rw [outstanding_eq, hrows, ← outstanding_eq]
        exact h0
      · rw [chunkKeys, doneTasks, hrows]
        rfl

theorem Keeps.map (h : Keeps sh sh' j) {keys : List String} (hk : ∀ k ∈ keys, k ∈ chunkKeys sh.db j) :
    keys.map sh'.objects = keys.map sh.objects :=
  List.map_congr_left fun k hm => h.chunks k (hk k hm)

end Frozen

/-! ## The output object -/

section Out

variable {cfg : Settings} {sh sh' : Shared} {j : String}

/-- The agent is about to write the output object of `j`. -/
def Agent.putsFinal (j : String) (parts : List ByteArray) (a : Agent) : Prop :=
  ∃ c, a = .copy c ∧ c.msg.body.jobId = j ∧ c.stage = .work (.stitch (.putFinal parts))

theorem parse_out (cfg : Settings) (sh : Shared) (e : Event) (k : String) (pc : ParsePc) :
    (parseStep cfg sh e pc).Leaves fun sh' => sh'.objects k = sh.objects k := by
  cases pc <;> simp only [parseStep] <;> (repeat' split) <;> trivial

theorem tts_out (sh : Shared) (e : Event) (j : String) (pc : TtsPc) :
    (ttsStep sh e pc).Leaves fun sh' => sh'.objects (outKey j) = sh.objects (outKey j) := by
  cases pc with
  | putAudio text => exact putObject_of_ne _ _ (ttsKey_ne_outKey _ j).symm
  | _ =>
    simp only [ttsStep]
    (repeat' split) <;> trivial

theorem dlq_out (sh : Shared) (e : Event) (k : String) (pc : DlqPc) :
    (dlqStep sh e pc).Leaves fun sh' => sh'.objects k = sh.objects k := by
  cases pc <;> simp only [dlqStep] <;> (repeat' split) <;> trivial

theorem stitch_out (sh : Shared) (e : Event) (j : String) (pc : StitchPc) :
    (stitchStep sh e pc).Leaves fun sh' => sh'.objects (outKey j) = sh.objects (outKey j) ∨
      ∃ parts, pc = .putFinal parts ∧ e.jobId = j ∧ sh'.objects (outKey j) = some (joinBytes parts) := by
  cases pc with
  | putFinal parts =>
    by_cases hj : j = e.jobId
    · subst hj
      exact .inr ⟨parts, rfl, rfl, putObject_self _ _ _⟩
    · exact .inl (putObject_of_ne _ _ (by simpa using hj))
  | getParts keys parts =>
    cases keys <;> simp only [stitchStep] <;> (repeat' split) <;> first | trivial | exact .inl rfl
  | _ =>
    simp only [stitchStep]
    (repeat' split) <;> first | trivial | exact .inl rfl

theorem objects_emit (pub : Option (Live × Event)) : (emit sh pub).1.objects = sh.objects := by
  cases pub <;> rfl

theorem work_out {c : Copy} {w : Work} (cfg : Settings) (sh : Shared) (j : String)
    (hst : c.stage = .work w) : (w.step cfg sh c.msg.body).Leaves fun sh' =>
      sh'.objects (outKey j) = sh.objects (outKey j) ∨
        ∃ parts, (Agent.copy c).putsFinal j parts ∧ sh'.objects (outKey j) = some (joinBytes parts) := by
  cases w with
  | parse pc => exact (parse_out cfg sh c.msg.body _ pc).map Work.parse fun _ h => .inl h
  | tts pc => exact (tts_out sh c.msg.body j pc).map Work.tts fun _ h => .inl h
  | stitch pc =>
    refine (stitch_out sh c.msg.body j pc).map Work.stitch ?_
    rintro sh' (h | ⟨parts, rfl, hj, h⟩)
    · exact .inl h
    · exact .inr ⟨parts, ⟨c, rfl, hj, hst⟩, h⟩

/-- Nobody but the stitcher of `j` touches its output object. -/
theorem act_out {a : Agent} {i : Choice} {outs : List Agent}
    (h : act cfg sh a i = some (sh', outs)) (j : String) :
    sh'.objects (outKey j) = sh.objects (outKey j) ∨
      ∃ parts, a.putsFinal j parts ∧ sh'.objects (outKey j) = some (joinBytes parts) := by
  rcases act_cases h with ⟨c, rfl, hm⟩ | hr
  · cases hm with
    | work hst hstep =>
      have hl := work_out cfg sh j hst
      rw [hstep] at hl
      rw [objects_emit]
      exact hl
    | returned hst hstep =>
      have hl := work_out cfg sh j hst
      rw [hstep] at hl
      rw [objects_emit]
      exact hl
    | @dlq pc _ _ pub _ hstep =>
      have hl := dlq_out sh c.msg.body (outKey j) pc
      rw [hstep] at hl
      rw [objects_emit]
      exact .inl hl
    | @dlqReturned pc _ pub _ hstep =>
      have hl := dlq_out sh c.msg.body (outKey j) pc
      rw [hstep] at hl
      rw [objects_emit]
      exact .inl hl
    | _ => exact .inl rfl
  · cases hr <;> exact .inl rfl

theorem env_out {x : Env} {outs : List Agent} (h : env sh x = some (sh', outs)) (j : String) :
    sh'.objects (outKey j) = sh.objects (outKey j) := by
  cases env_moves h with
  | @posted k m _ _ => exact putObject_of_ne sh m.toUTF8 (rawKey_ne_outKey k j).symm
  | sweeping _ => rfl
  | redis _ => rfl

end Out

end Pipeline
end AudioEngine
