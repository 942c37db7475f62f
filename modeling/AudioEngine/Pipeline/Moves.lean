import AudioEngine.Pipeline.Sound

/-!
# AudioEngine.Pipeline.Moves

Inversion of `act` and `env`: everything that can happen to a message copy in one step (`Moves`),
to a request or a sweep (`Requests`) and in the environment (`EnvMoves`). Proofs about agents go by
cases on these and never unfold the delivery loop again.
-/

namespace AudioEngine
namespace Pipeline

open Relational

/-- The copy `c` under the choice `i` leaves the stores `sh'` and the agents `outs`. -/
inductive Moves (cfg : Settings) (sh : Shared) (c : Copy) : Choice → Shared → List Agent → Prop where
  | deliver {l : Live} : c.stage = .ready → c.queue = .live l →
      Moves cfg sh c .go sh [.copy { c with stage := .work (.start l) }]
  | due {l : Live} {d : Int} : c.stage = .ready → c.queue = .retry l d →
      Moves cfg sh c .go sh [.copy { c with queue := .live l }]
  | deliverDlq : c.stage = .ready → c.queue = .dlq →
      Moves cfg sh c .go sh [.copy { c with stage := .dlq .resolve }]
  | duplicate : c.stage = .ready → Moves cfg sh c .duplicate sh [.copy c, .copy c]
  | work {w w' : Work} {sh' : Shared} {pub : Option (Live × Event)} : c.stage = .work w →
      w.step cfg sh c.msg.body = .goto sh' w' pub →
      Moves cfg sh c .go (emit sh' pub).1 (.copy { c with stage := .work w' } :: (emit sh' pub).2)
  | returned {w : Work} {sh' : Shared} {pub : Option (Live × Event)} : c.stage = .work w →
      w.step cfg sh c.msg.body = .done sh' pub →
      Moves cfg sh c .go (emit sh' pub).1 (.copy { c with stage := .acking } :: (emit sh' pub).2)
  | raised {w : Work} {i : Choice} {exc : Raised} : c.stage = .work w →
      (exc = .cancelled → i = .cancel) → Moves cfg sh c i sh (c.raiseAt w exc)
  | unwound {text : String} {exc exc' : Raised} {i : Choice} {inflight : String → Option String} :
      c.stage = .unwind text exc → (exc' = exc ∨ (exc' = .cancelled → i = .cancel)) →
      Moves cfg sh c i { sh with inflight := inflight } (c.leave exc')
  | routed {p : Bool} {q : QueueName} {m : Message Event} : c.stage = .routing p →
      c.route cfg p = some (q, m) →
      Moves cfg sh c .go (sh.log (.published q m.body))
        [.copy { c with stage := .acking }, .copy { queue := q, msg := m }]
  | unrouted {p : Bool} {i : Choice} : c.stage = .routing p → (i = .go → c.route cfg p = none) →
      i ≠ .crash → i ≠ .duplicate → Moves cfg sh c i sh []
  | acked {i : Choice} : c.stage = .acking → Moves cfg sh c i sh []
  | dlq {pc pc' : DlqPc} {sh' : Shared} {pub : Option (Live × Event)} : c.stage = .dlq pc →
      dlqStep sh c.msg.body pc = .goto sh' pc' pub →
      Moves cfg sh c .go (emit sh' pub).1 (.copy { c with stage := .dlq pc' } :: (emit sh' pub).2)
  | dlqReturned {pc : DlqPc} {sh' : Shared} {pub : Option (Live × Event)} : c.stage = .dlq pc →
      dlqStep sh c.msg.body pc = .done sh' pub →
      Moves cfg sh c .go (emit sh' pub).1
        (.copy { c with stage := .dlqAcking } :: (emit sh' pub).2)
  | dlqAcked : c.stage = .dlqAcking → Moves cfg sh c .go sh []
  | requeued {i : Choice} : c.stage ≠ .ready → Moves cfg sh c i sh [.copy { c with stage := .ready }]

theorem act_moves {cfg : Settings} {sh sh' : Shared} {c : Copy} {i : Choice} {outs : List Agent}
    (h : c.act cfg sh i = some (sh', outs)) : Moves cfg sh c i sh' outs := by
  simp only [Copy.act] at h
  split at h
  case h_1 hst =>
    split at h
    · rename_i l hq; cases h; exact .deliver hst hq
    · rename_i l d hq; cases h; exact .due hst hq
    · rename_i hq; cases h; exact .deliverDlq hst hq
  case h_2 hst => cases h; exact .duplicate hst
  case h_3 => cases h
  case h_4 w hst =>
    split at h
    · rename_i hs; cases h; exact .work hst hs
    · rename_i hs; cases h; exact .returned hst hs
    · cases h; exact .raised hst (by simp)
  case h_5 hst => cases h; exact .raised hst (by simp)
  case h_6 hst => cases h; exact .raised hst (by simp)
  case h_7 hst => cases h; exact .unwound hst (.inl rfl)
  case h_8 hst =>
    have hm : ∀ exc' i, (exc' = .cancelled → i = .cancel) →
        Moves cfg sh c i { sh with inflight := sh.inflight } (c.leave exc') :=
      fun exc' i he => .unwound hst (.inr he)
    cases h
    exact hm _ _ (by simp)
  case h_9 hst =>
    have hm : Moves cfg sh c .cancel { sh with inflight := sh.inflight } (c.leave .cancelled) :=
      .unwound hst (.inr (by simp))
    cases h
    exact hm
  case h_10 p hst =>
    split at h
    · rename_i hr; cases h; exact .unrouted hst (fun _ => hr) (by simp) (by simp)
    · rename_i q m hr; cases h; exact .routed hst hr
  case h_11 hst => cases h; exact .unrouted hst (by simp) (by simp) (by simp)
  case h_12 hst => cases h; exact .unrouted hst (by simp) (by simp) (by simp)
  case h_13 hst => cases h; exact .acked hst
  case h_14 hst => cases h; exact .acked hst
  case h_15 hst => cases h; exact .acked hst
  case h_16 pc hst =>
    split at h
    · rename_i hs; cases h; exact .dlq hst hs
    · rename_i hs; cases h; exact .dlqReturned hst hs
    · cases h; exact .requeued (by rw [hst]; simp)
  case h_17 hst => cases h; exact .dlqAcked hst
  case h_18 hst => cases h; exact .requeued (by rw [hst]; simp)
  case h_19 hst => cases h; exact .requeued (by rw [hst]; simp)
  case h_20 hst => cases h; exact .requeued (by rw [hst]; simp)
  case h_21 hst => cases h; exact .requeued (by rw [hst]; simp)
  case h_22 hst => cases h; exact .requeued hst
  case h_23 => cases h

/-- The agent is a copy of `e`, wherever it is. -/
def Agent.carries (e : Event) : Agent → Prop
  | .copy c => c.msg.body = e
  | _ => False

instance (e : Event) (a : Agent) : Decidable (a.carries e) :=
  match a with
  | .copy c => inferInstanceAs (Decidable (c.msg.body = e))
  | .create _ _ _ => inferInstanceAs (Decidable False)
  | .sweep _ => inferInstanceAs (Decidable False)

theorem Next.map_eq_goto {P Q : Type} {f : P → Q} {n : Next P} {sh : Shared} {q : Q}
    {pub : Option (Live × Event)} (h : n.map f = .goto sh q pub) :
    ∃ pc, n = .goto sh pc pub ∧ f pc = q := by
  cases n with
  | goto sh' pc pub' => cases h; exact ⟨pc, rfl, rfl⟩
  | done sh' pub' => cases h
  | raise => cases h

theorem Next.map_eq_done {P Q : Type} {f : P → Q} {n : Next P} {sh : Shared}
    {pub : Option (Live × Event)} (h : n.map f = .done sh pub) : n = .done sh pub := by
  cases n with
  | goto sh' pc pub' => cases h
  | done sh' pub' => cases h; rfl
  | raise => cases h

/-- The stores a step leaves satisfy `Q`. -/
def Next.Leaves {P : Type} (Q : Shared → Prop) : Next P → Prop
  | .goto sh' _ _ => Q sh'
  | .done sh' _ => Q sh'
  | .raise => True

theorem Next.Leaves.map {P R : Type} {n : Next P} {Q Q' : Shared → Prop} (f : P → R)
    (h : n.Leaves Q) (hQ : ∀ sh, Q sh → Q' sh) : (n.map f).Leaves Q' := by
  cases n with
  | goto sh' pc pub => exact hQ sh' h
  | done sh' pub => exact hQ sh' h
  | raise => trivial

theorem mem_emit {sh : Shared} {l : Live} {e : Event} :
    .copy { queue := .live l, msg := publishMessage e } ∈ (emit sh (some (l, e))).2 := by
  simp [emit]

theorem db_emit {sh : Shared} (pub : Option (Live × Event)) : (emit sh pub).1.db = sh.db := by
  cases pub <;> rfl

/-! ## Requests, sweeps and the environment -/

/-- A request or a sweep leaves the stores `sh'` and the agents `outs`. It may end at any point: its
process crashes, a publish raises, the id is taken, or nothing is left to do. -/
inductive Requests (sh : Shared) : Agent → Shared → List Agent → Prop where
  | inserted {j : String} {cb : Option String} {jobs : Table Job.jobId} :
      sh.db.jobs.insert? { jobId := j, manuscriptKey := rawKey j, callbackUrl := cb } = some jobs →
      Requests sh (.create j cb .insert) { sh with db := { sh.db with jobs := jobs } }
        [.create j cb .publish]
  | created {j : String} {cb : Option String} :
      Requests sh (.create j cb .publish) (emit sh (some (.parse, .jobCreated j))).1
        (emit sh (some (.parse, .jobCreated j))).2
  | swept {j : String} {rest : List String} :
      Requests sh (.sweep (j :: rest)) (emit sh (some (.parse, .jobCreated j))).1
        (.sweep rest :: (emit sh (some (.parse, .jobCreated j))).2)
  | ended {a : Agent} : Requests sh a sh []

theorem act_cases {cfg : Settings} {sh sh' : Shared} {a : Agent} {i : Choice} {outs : List Agent}
    (h : act cfg sh a i = some (sh', outs)) :
    (∃ c, a = .copy c ∧ Moves cfg sh c i sh' outs) ∨ Requests sh a sh' outs := by
  cases a with
  | copy c => exact .inl ⟨c, rfl, act_moves h⟩
  | create j cb pc =>
    refine .inr ?_
    cases i with
    | go =>
      cases pc with
      | insert =>
        simp only [act, createAct] at h
        split at h
        · cases h; exact .ended
        · rename_i jobs hi; cases h; exact .inserted hi
      | publish => cases h; exact .created
    | _ => cases h; exact .ended
  | sweep stale =>
    refine .inr ?_
    cases i with
    | go =>
      cases stale with
      | nil => cases h; exact .ended
      | cons j rest => cases h; exact .swept
    | _ => cases h; exact .ended

/-- Requests and sweeps leave requests, sweeps and fresh copies of `JobCreated`. -/
theorem request_outs {Q : Agent → Prop} {sh sh' : Shared} {a : Agent} {outs : List Agent}
    (hcreate : ∀ j cb pc, Q (.create j cb pc)) (hsweep : ∀ stale, Q (.sweep stale))
    (hpub : ∀ j, Q (.copy { queue := .live .parse, msg := publishMessage (.jobCreated j) }))
    (h : Requests sh a sh' outs) : ∀ b ∈ outs, Q b := by
  cases h with
  | @inserted j cb _ _ =>
    rw [List.forall_mem_singleton]
    exact hcreate j cb .publish
  | @created j =>
    simp only [emit]
    rw [List.forall_mem_singleton]
    exact hpub j
  | @swept j rest =>
    simp only [emit]
    rw [List.forall_mem_cons, List.forall_mem_singleton]
    exact ⟨hsweep rest, hpub j⟩
  | ended => simp

/-- The environment leaves the stores `sh'` and adds the agents `outs`. -/
inductive EnvMoves (sh : Shared) : Shared → List Agent → Prop where
  | posted {j m : String} {cb : Option String} : sh.objects (rawKey j) = none →
      EnvMoves sh ((sh.putObject (rawKey j) m.toUTF8).log (.posted j m)) [.create j cb .insert]
  | sweeping {stale : List String} : (∀ j ∈ stale, sh.db.status j = some .pending) →
      EnvMoves sh sh [.sweep stale]
  | redis {cache inflight : String → Option String} :
      (∀ h k, cache h = some k → sh.cache h = some k) →
      EnvMoves sh { sh with cache := cache, inflight := inflight } []

theorem env_moves {sh sh' : Shared} {x : Env} {outs : List Agent}
    (h : env sh x = some (sh', outs)) : EnvMoves sh sh' outs := by
  cases x with
  | post j m cb =>
    simp only [env] at h
    split at h
    · rename_i hnone; cases h; exact .posted hnone
    · cases h
  | startSweep stale =>
    simp only [env] at h
    split at h
    · rename_i hall
      cases h
      exact .sweeping fun j hj => of_decide_eq_true (List.all_eq_true.mp hall j hj)
    · cases h
  | expireCache k =>
    have hm : EnvMoves sh { sh with cache := Function.update sh.cache k none,
                                    inflight := sh.inflight } [] := by
      refine .redis ?_
      intro h v hv
      by_cases hk : h = k
      · subst hk
        rw [Function.update_self] at hv
        cases hv
      · rwa [Function.update_of_ne hk] at hv
    cases h
    exact hm
  | expireInflight k =>
    have hm : EnvMoves sh { sh with cache := sh.cache,
                                    inflight := Function.update sh.inflight k none } [] :=
      .redis fun _ _ hv => hv
    cases h
    exact hm
  | wipeRedis => cases h; exact .redis (by simp)

/-- The environment adds requests and sweeps. -/
theorem env_outs {Q : Agent → Prop} {sh sh' : Shared} {x : Env} {outs : List Agent}
    (hcreate : ∀ j cb pc, Q (.create j cb pc)) (hsweep : ∀ stale, Q (.sweep stale))
    (h : env sh x = some (sh', outs)) : ∀ b ∈ outs, Q b := by
  cases env_moves h with
  | @posted j m cb _ =>
    rw [List.forall_mem_singleton]
    exact hcreate j cb .insert
  | @sweeping stale _ =>
    rw [List.forall_mem_singleton]
    exact hsweep stale
  | redis _ => simp

end Pipeline
end AudioEngine
