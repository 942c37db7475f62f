import AudioEngine.Worker.Ladder

/-!
# AudioEngine.Worker.Climb

Runs of one message over the retry ladder.

Without a crash one copy is under way at a time; the others only wait for their ack. `Phase` says
where the message is and what the broker has seen, and `steady_phase` that every run is in one of
the phases. `retry_ladder` reads off them what happens to a message whose work always fails. With
crashes copies multiply, but none of them carries a count above the limit (`reach_stamped`).
-/

namespace AudioEngine
namespace Ladder

open Interleave

variable {β : Type}

/-! ## Runs without a crash -/

/-- A copy that only has to be acked or rejected is out of the way. -/
def Copy.busy (c : Copy β) : Bool :=
  match c.stage with
  | .closing [.ack] => false
  | .closing [.reject] => false
  | _ => true

/-- The first `k` deliveries fail and lead to a delay queue. -/
def Climbs (su : Setup) (M k : Nat) : Prop := ∀ j < k, Retries su.cfg M j (su.work j)

/-- The delivery after `k` failures leads to the dead-letter queue. -/
structure Falls (su : Setup) (M k : Nat) : Prop where
  le : k ≤ M
  climbs : Climbs su M k
  falls : DeadLetters su.cfg M k (su.work k)

/-- Where the message is: the log and the copy that is not out of the way. -/
inductive Phase (su : Setup) (m : Message β) (M : Nat) : List (Rung β) → List (Copy β) → Prop where
  | arrived {k : Nat} : k ≤ M → Climbs su M k →
      Phase su m M (climb su m k) [⟨su.live.name, stamped m k, .waiting⟩]
  | retrying {k : Nat} : Climbs su M (k + 1) →
      Phase su m M (climb su m k ++ [.delivered (stamped m k)])
        [⟨su.live.name, stamped m k, .closing
          [.publish (.retry su.live (delayAfter su.declared k)) (stamped m (k + 1)), .ack]⟩]
  | delayed {k : Nat} : Climbs su M (k + 1) →
      Phase su m M (climb su m k ++
        [.delivered (stamped m k), .published (su.delayKey k) (stamped m (k + 1))])
        [⟨su.delayKey k, stamped m (k + 1), .waiting⟩]
  | finished {k : Nat} : k ≤ M → Climbs su M k → ¬ Retries su.cfg M k (su.work k) →
      ¬ DeadLetters su.cfg M k (su.work k) →
      Phase su m M (climb su m k ++ [.delivered (stamped m k)]) []
  | falling {k : Nat} : Falls su M k →
      Phase su m M (climb su m k ++ [.delivered (stamped m k)])
        [⟨su.live.name, stamped m k, .closing [.publish .dlq (stamped m (k + 1)), .ack]⟩]
  | dead {k n : Nat} : Falls su M k → (∀ i < n, su.resolves i = false) →
      Phase su m M (climb su m k ++ fall m k ++ List.replicate n (.attempted (stamped m (k + 1))))
        [⟨QueueName.dlq.name, stamped m (k + 1), .waiting⟩]
  | resolving {k n : Nat} : Falls su M k → (∀ i < n, su.resolves i = false) →
      Phase su m M
        (climb su m k ++ fall m k ++ List.replicate (n + 1) (.attempted (stamped m (k + 1))))
        [⟨QueueName.dlq.name, stamped m (k + 1), .resolving (su.resolves n)⟩]
  | resolved {k n : Nat} : Falls su M k → (∀ i < n, su.resolves i = false) → su.resolves n = true →
      Phase su m M
        (climb su m k ++ fall m k ++ List.replicate (n + 1) (.attempted (stamped m (k + 1)))) []

section Steady

variable {su : Setup} {m : Message β} {M k n : Nat} {log log' : List (Rung β)} {c : Copy β}
  {outs : List (Copy β)}

theorem climb_succ (su : Setup) (m : Message β) (k : Nat) :
    climb su m (k + 1) = climb su m k ++
      [.delivered (stamped m k), .published (su.delayKey k) (stamped m (k + 1)),
        .expired (su.delayKey k) (stamped m (k + 1))] := by
  simp [climb, List.range_succ]

@[simp] theorem countP_delivered_climb (su : Setup) (m : Message β) (k : Nat) :
    (climb su m k).countP Rung.isDelivered = k := by
  induction k with
  | zero => rfl
  | succ k ih => simp [climb_succ, ih, List.countP_cons, Rung.isDelivered]

@[simp] theorem countP_attempted_climb (su : Setup) (m : Message β) (k : Nat) :
    (climb su m k).countP Rung.isAttempted = 0 := by
  induction k with
  | zero => rfl
  | succ k ih => simp [climb_succ, ih, Rung.isAttempted]

@[simp] theorem length_climb (su : Setup) (m : Message β) (k : Nat) :
    (climb su m k).length = 3 * k := by
  induction k with
  | zero => rfl
  | succ k ih => rw [climb_succ, List.length_append, ih]; simp; omega

theorem Climbs.lt (h : Climbs su M (k + 1)) : k < M := (h k (by omega)).2.1

theorem Climbs.declared (h : Climbs su M (k + 1)) : su.declared ≠ [] := by
  obtain ⟨_, _, d, ds, hds⟩ := h k (by omega)
  simp [Setup.declared, hds]

theorem Climbs.succ (h : Climbs su M k) (hr : Retries su.cfg M k (su.work k)) :
    Climbs su M (k + 1) := by
  intro j hj
  rcases Nat.lt_succ_iff_lt_or_eq.mp hj with hj | rfl
  · exact h j hj
  · exact hr

/-- The delivery of the copy with the count `k`. -/
theorem Phase.deliver (hm : m.headers.lookup headerRetryCount = none)
    (hM : su.cfg.maxRetries.toNat = M) (hk : k ≤ M) (hc : Climbs su M k) :
    Phase su m M (climb su m k ++ [.delivered (stamped m k)])
      ([⟨su.live.name, stamped m k,
        .closing (ackLastOps su.cfg su.live (stamped m k) { work := su.work k })⟩].filter
          Copy.busy) := by
  rcases ops_cases hm hM hk (su.work k) with ⟨hr, hops⟩ | ⟨hd, hops⟩ | ⟨hr, hd, hops | hops⟩
  · rw [hops]
    exact .retrying (hc.succ hr)
  · rw [hops]
    exact .falling ⟨hk, hc, hd⟩
  · rw [hops]
    exact .finished hk hc hr hd
  · rw [hops]
    exact .finished hk hc hr hd

/-- **Step**: the copy under way goes on from phase to phase. -/
theorem Phase.step (hm : m.headers.lookup headerRetryCount = none)
    (hM : su.cfg.maxRetries.toNat = M) (h : Phase su m M log [c])
    (ha : c.act su log .go = some (log', outs)) : Phase su m M log' (outs.filter Copy.busy) := by
  cases h with
  | @arrived k hk hc =>
    rw [act_live, countP_delivered_climb] at ha
    cases ha
    exact Phase.deliver hm hM hk hc
  | @retrying k hc =>
    rw [act_publish, List.append_assoc] at ha
    cases ha
    rw [show (QueueName.retry su.live (delayAfter su.declared k)).name = su.delayKey k from rfl,
      enqueue_delayKey hc.declared]
    exact .delayed hc
  | @delayed k hc =>
    rw [act_delayKey hc.declared, List.append_assoc] at ha
    cases ha
    have hlog := climb_succ su m k
    simp only [List.cons_append, List.nil_append]
    rw [← hlog]
    exact .arrived hc.lt hc
  | @falling k hf =>
    rw [act_publish, enqueue_dlq, List.append_assoc] at ha
    cases ha
    have hdead : Phase su m M (climb su m k ++ fall m k ++ []) _ :=
      .dead (n := 0) hf fun i hi => absurd hi (Nat.not_lt_zero i)
    rw [List.append_nil] at hdead
    exact hdead
  | @dead k n hf hn =>
    have hcount : (climb su m k ++ fall m k ++ List.replicate n
        (Rung.attempted (stamped m (k + 1)))).countP Rung.isAttempted = n := by
      simp [fall, List.countP_replicate, Rung.isAttempted]
    rw [act_dlq, hcount, List.append_assoc (climb su m k ++ fall m k), ← List.replicate_succ'] at ha
    cases ha
    exact .resolving hf hn
  | @resolving k n hf hn =>
    rw [act_resolving] at ha
    cases hr : su.resolves n with
    | true =>
      rw [hr] at ha
      cases ha
      exact .resolved hf hn hr
    | false =>
      rw [hr] at ha
      cases ha
      refine .dead hf fun i hi => ?_
      rcases Nat.lt_succ_iff_lt_or_eq.mp hi with hi | rfl
      · exact hn i hi
      · exact hr

/-- The copy under way can always go on. -/
theorem Phase.enabled (h : Phase su m M log [c]) : (c.act su log .go).isSome := by
  cases h with
  | arrived => rw [act_live]; rfl
  | retrying => rfl
  | delayed hc => rw [act_delayKey hc.declared]; rfl
  | falling => rfl
  | dead => rw [act_dlq]; rfl
  | resolving => rw [act_resolving]; rfl

/-- At most one copy is under way. -/
theorem Phase.alone {cs : List (Copy β)} (h : Phase su m M log cs) : cs = [] ∨ ∃ c, cs = [c] := by
  cases h <;> first | exact .inl rfl | exact .inr ⟨_, rfl⟩

theorem act_idle {i : Choice} (hb : c.busy = false) (hi : i ≠ .crash)
    (ha : c.act su log i = some (log', outs)) : log' = log ∧ outs = [] := by
  obtain ⟨q, msg, st⟩ := c
  unfold Copy.busy at hb
  split at hb
  · rename_i hst
    cases hst
    cases i with
    | go => cases ha; exact ⟨rfl, rfl⟩
    | crash => exact absurd rfl hi
  · rename_i hst
    cases hst
    cases i with
    | go => cases ha; exact ⟨rfl, rfl⟩
    | crash => exact absurd rfl hi
  · cases hb

/-- **Run**: without a crash the message is in one of the phases. -/
theorem steady_phase (hm : m.headers.lookup headerRetryCount = none)
    (hM : su.cfg.maxRetries.toNat = M) {h : List (Taken (List (Rung β)) (Copy β) Choice)}
    {s : Pool (List (Rung β)) (Copy β)} (ht : Story (system su m) Steady (system su m).init h s) :
    Phase su m M s.shared (s.agents.filter Copy.busy) := by
  refine Story.induct (I := fun _ s => Phase su m M s.shared (s.agents.filter Copy.busy))
    ?_ ?_ ?_ ht
  · rw [system, enqueue_live]
    exact .arrived (k := 0) (Nat.zero_le M) fun j hj => absurd hj (Nat.not_lt_zero j)
  · intro h s rest a i sh outs _ ih hp ha hd
    have hi : i ≠ .crash := fun hi => hd a (by rw [hi])
    have hfilter := hp.filter Copy.busy
    cases hb : a.busy with
    | false =>
      obtain ⟨rfl, rfl⟩ := act_idle hb hi ha
      rw [List.filter_cons_of_neg (by simp [hb])] at hfilter
      rcases ih.alone with hnil | ⟨c, hc⟩
      · rw [hnil] at hfilter ih
        simpa [List.nil_perm.mp hfilter] using ih
      · rw [hc] at hfilter ih
        simpa [List.singleton_perm.mp hfilter] using ih
    | true =>
      rw [List.filter_cons_of_pos hb] at hfilter
      rcases ih.alone with hnil | ⟨c, hc⟩
      · rw [hnil] at hfilter
        exact absurd (List.nil_perm.mp hfilter) (by simp)
      rw [hc] at hfilter ih
      obtain ⟨rfl, hrest⟩ : c = a ∧ rest.filter Copy.busy = [] := by
        simpa using List.singleton_perm.mp hfilter
      cases i with
      | go => simpa [hrest] using ih.step hm hM ha
      | crash => exact absurd rfl hi
  · intro h s e
    exact nomatch e

/-! ## Steps and rungs -/

def Copy.opened (c : Copy β) : Bool := c.stage matches .closing _ | .resolving _

theorem opened_enqueue (su : Setup) (key : String) (m : Message β) :
    (enqueue su key m).countP Copy.opened = 0 := by
  unfold enqueue
  split <;> rfl

/-- The log, with deliveries counted twice: once for the delivery, once for what closes it. -/
def weight (log : List (Rung β)) : Nat :=
  log.length + log.countP Rung.isDelivered + log.countP Rung.isAttempted

theorem weight_le (log : List (Rung β)) : weight log ≤ 2 * log.length := by
  induction log with
  | nil => exact Nat.le_refl 0
  | cons r log ih =>
    simp only [weight, List.length_cons, List.countP_cons] at ih ⊢
    cases r <;> simp [Rung.isDelivered, Rung.isAttempted] <;> omega

theorem weight_snoc (log : List (Rung β)) (r : Rung β) :
    weight (log ++ [r]) = weight log + 1 + r.isDelivered.toNat + r.isAttempted.toNat := by
  simp only [weight, List.length_append, List.countP_append]
  cases r <;> simp [Rung.isDelivered, Rung.isAttempted] <;> omega

theorem act_weight {i : Choice} (hi : i ≠ .crash) (ha : c.act su log i = some (log', outs)) :
    weight log' + c.opened.toNat = weight log + 1 + outs.countP Copy.opened := by
  obtain ⟨q, msg, st⟩ := c
  cases i with
  | crash => exact absurd rfl hi
  | go =>
    cases st with
    | waiting =>
      have ha : Copy.leave su log ⟨q, msg, .waiting⟩ = some (log', outs) := ha
      unfold Copy.leave at ha
      split at ha
      · cases ha
        rw [weight_snoc]
        rfl
      · split at ha
        · cases ha
          rw [weight_snoc]
          rfl
        · split at ha
          · cases ha
            rw [weight_snoc, opened_enqueue]
            rfl
          · cases ha
    | closing ops =>
      cases ops with
      | nil => cases ha
      | cons op ops =>
        cases op with
        | publish q' m' =>
          rw [act_publish] at ha
          cases ha
          rw [weight_snoc, List.countP_append, opened_enqueue]
          rfl
        | ack => cases ha; rfl
        | reject => cases ha; rfl
    | resolving returns =>
      rw [act_resolving] at ha
      cases ha
      cases returns <;> rfl

/-- Every step adds a rung or closes a delivery. -/
theorem steady_weight {h : List (Taken (List (Rung β)) (Copy β) Choice)}
    {s : Pool (List (Rung β)) (Copy β)} (ht : Story (system su m) Steady (system su m).init h s) :
    h.length + s.agents.countP Copy.opened = weight s.shared := by
  refine Story.induct
    (I := fun h s => h.length + s.agents.countP Copy.opened = weight s.shared) ?_ ?_ ?_ ht
  · rw [system, enqueue_live]
    rfl
  · intro h s rest a i sh outs _ ih hp ha hd
    have hi : i ≠ .crash := fun hi => hd a (by rw [hi])
    have hw := act_weight hi ha
    rw [hp.countP_eq, List.countP_cons] at ih
    simp only [List.length_cons, List.countP_append]
    cases ho : a.opened <;> simp [ho] at hw ih <;> omega
  · intro h s e
    exact nomatch e

/-- A copy that is not out of the way can go on. -/
theorem steady_enabled {s : Pool (List (Rung β)) (Copy β)}
    (hph : Phase su m M s.shared (s.agents.filter Copy.busy))
    (hc : s.agents.filter Copy.busy = [c]) :
    c ∈ s.agents ∧ (c.act su s.shared .go).isSome := by
  have hmem : c ∈ s.agents.filter Copy.busy := by simp [hc]
  rw [hc] at hph
  exact ⟨List.mem_of_mem_filter hmem, hph.enabled⟩

/-! ## Work that always fails -/

/-- `M` failures on the way up, and the last one. -/
def ladder (su : Setup) (m : Message β) (M : Nat) : List (Rung β) := climb su m M ++ fall m M

/-- The log without what the dead-letter consumer sees. -/
def climbed (log : List (Rung β)) : List (Rung β) := log.filter fun r => !r.isAttempted

theorem prefix_climb {j : Nat} (h : j ≤ k) : climb su m j <+: climb su m k := by
  induction k, h using Nat.le_induction with
  | base => exact List.prefix_rfl
  | succ k _ ih =>
    rw [climb_succ]
    exact ih.trans (List.prefix_append _ _)

@[simp] theorem length_ladder (su : Setup) (m : Message β) (M : Nat) :
    (ladder su m M).length = 3 * M + 2 := by
  simp [ladder, fall]

theorem climbed_ladder (su : Setup) (m : Message β) (M : Nat) :
    climbed (ladder su m M) = ladder su m M := by
  refine List.filter_eq_self.mpr fun r hr => ?_
  have h0 : (ladder su m M).countP Rung.isAttempted = 0 := by
    simp [ladder, fall, Rung.isAttempted]
  simpa using List.countP_eq_zero.mp h0 r hr

theorem climbed_eq_self (h : log <+: ladder su m M) : climbed log = log := by
  refine List.filter_eq_self.mpr fun r hr => ?_
  have hself := climbed_ladder su m M
  exact List.filter_eq_self.mp hself r (h.subset hr)

/-- What has been delivered after `k` failures is the next rung. -/
theorem prefix_delivered (hk : k ≤ M) :
    climb su m k ++ [.delivered (stamped m k)] <+: ladder su m M := by
  rcases Nat.lt_or_eq_of_le hk with hlt | rfl
  · refine List.IsPrefix.trans ?_ ((prefix_climb hlt).trans (List.prefix_append _ _))
    rw [climb_succ, List.prefix_append_right_inj]
    exact List.prefix_append [_] _
  · rw [ladder, List.prefix_append_right_inj]
    exact List.prefix_append [_] _

theorem prefix_published (hk : k < M) :
    climb su m k ++ [.delivered (stamped m k), .published (su.delayKey k) (stamped m (k + 1))] <+:
      ladder su m M := by
  refine List.IsPrefix.trans ?_ ((prefix_climb hk).trans (List.prefix_append _ _))
  rw [climb_succ, List.prefix_append_right_inj]
  exact List.prefix_append [_, _] _

/-- A message whose work always fails falls from the top, so its log is the ladder and some
attempts. -/
theorem Falls.climbed (hf : Falls su M k) (hw : ∀ n, su.work n = .raised false) (n : Nat) :
    Ladder.climbed (climb su m k ++ fall m k ++
      List.replicate n (.attempted (stamped m (k + 1)))) = ladder su m M := by
  obtain rfl : k = M := by
    rcases hf.falls.1 with h | h
    · rw [hw] at h
      cases h
    · exact h.2
  have hself := climbed_ladder su m k
  have hatt : Ladder.climbed (List.replicate n (Rung.attempted (stamped m (k + 1)))) = [] :=
    List.filter_eq_nil_iff.mpr fun r hr => by simp [List.eq_of_mem_replicate hr, Rung.isAttempted]
  rw [Ladder.climbed, List.filter_append, ← Ladder.climbed, ← Ladder.climbed, hatt,
    List.append_nil]
  exact hself

/-- When the work always fails, the phases are the rungs of the ladder, in order. -/
theorem Phase.on_ladder {cs : List (Copy β)} (h : Phase su m M log cs) (hds : su.declared ≠ [])
    (hw : ∀ n, su.work n = .raised false) :
    climbed log = ladder su m M ∨
      (log <+: ladder su m M ∧ log.length < 3 * M + 2 ∧ ∃ c, cs = [c]) := by
  have hsome : ∃ d ds, su.cfg.retryDelays = some (d :: ds) := by
    unfold Setup.declared at hds
    cases hr : su.cfg.retryDelays with
    | none => simp [hr] at hds
    | some ds =>
      cases ds with
      | nil => simp [hr] at hds
      | cons d ds => exact ⟨d, ds, rfl⟩
  cases h with
  | arrived hk =>
    refine .inr ⟨(prefix_climb hk).trans (List.prefix_append _ _), ?_, _, rfl⟩
    rw [length_climb]
    omega
  | retrying hc =>
    refine .inr ⟨prefix_delivered hc.lt.le, ?_, _, rfl⟩
    have := hc.lt
    simp
    omega
  | delayed hc =>
    refine .inr ⟨prefix_published hc.lt, ?_, _, rfl⟩
    have := hc.lt
    simp
    omega
  | @finished k hk hc hr hd =>
    rw [hw] at hr hd
    rcases Nat.lt_or_eq_of_le hk with hlt | heq
    · exact absurd ⟨rfl, hlt, hsome⟩ hr
    · obtain ⟨d, ds, hds⟩ := hsome
      exact absurd ⟨.inr ⟨rfl, heq⟩, by simp [hds]⟩ hd
  | falling hf =>
    refine .inr ⟨prefix_delivered hf.le, ?_, _, rfl⟩
    have := hf.le
    simp
    omega
  | dead hf => exact .inl (hf.climbed hw _)
  | resolving hf => exact .inl (hf.climbed hw _)
  | resolved hf => exact .inl (hf.climbed hw _)

end Steady

/-! ## Runs with crashes -/

section Crashes

variable {su : Setup} {m : Message β} {M : Nat}

/-- The copy carries a count up to the limit unless it is on the dead-letter queue, and what it
publishes carries the next one. -/
def Copy.Stamped (m : Message β) (M : Nat) (c : Copy β) : Prop :=
  ∃ k, c.msg = stamped m k ∧ (c.queue ≠ QueueName.dlq.name → k ≤ M) ∧
    ∀ ops, c.stage = .closing ops → ∀ q copy, .publish q copy ∈ ops →
      copy = stamped m (k + 1) ∧ (q ≠ .dlq → k < M)

theorem Copy.Stamped.waiting {c : Copy β} (h : c.Stamped m M) :
    Copy.Stamped m M { c with stage := .waiting } := by
  obtain ⟨k, hmsg, hk, _⟩ := h
  exact ⟨k, hmsg, hk, fun _ h => nomatch h⟩

theorem stamped_enqueue {key : String} {k : Nat} (hk : key ≠ QueueName.dlq.name → k ≤ M) :
    ∀ c ∈ enqueue su key (stamped m k), c.Stamped m M := by
  intro c hc
  unfold enqueue at hc
  split at hc
  · cases hc
  · rename_i q hq
    have hname : q.queue.name = key := by simpa using List.find?_some hq
    rw [List.mem_singleton] at hc
    subst hc
    exact ⟨k, rfl, fun h => hk (hname ▸ h), fun _ h => nomatch h⟩

theorem stamped_deliver (hm : m.headers.lookup headerRetryCount = none)
    (hM : su.cfg.maxRetries.toNat = M) {k : Nat} (hk : k ≤ M) (w : WorkOutcome) :
    Copy.Stamped m M ⟨su.live.name, stamped m k,
      .closing (ackLastOps su.cfg su.live (stamped m k) { work := w })⟩ := by
  refine ⟨k, rfl, fun _ => hk, fun ops hops q copy hpub => ?_⟩
  cases hops
  rcases ops_cases hm hM hk w with ⟨hr, hops⟩ | ⟨_, hops⟩ | ⟨_, _, hops | hops⟩
  · rw [hops] at hpub
    obtain ⟨rfl, rfl⟩ : q = _ ∧ copy = _ := by simpa using hpub
    exact ⟨rfl, fun _ => hr.2.1⟩
  · rw [hops] at hpub
    obtain ⟨rfl, rfl⟩ : q = _ ∧ copy = _ := by simpa using hpub
    exact ⟨rfl, fun h => absurd rfl h⟩
  · simp [hops] at hpub
  · simp [hops] at hpub

theorem leave_stamped (hm : m.headers.lookup headerRetryCount = none)
    (hM : su.cfg.maxRetries.toNat = M) {log log' : List (Rung β)} {queue : String} {k : Nat}
    {outs : List (Copy β)} (hk : queue ≠ QueueName.dlq.name → k ≤ M)
    (ha : Copy.leave su log ⟨queue, stamped m k, .waiting⟩ = some (log', outs)) :
    ∀ b ∈ outs, b.Stamped m M := by
  unfold Copy.leave at ha
  split at ha
  · rename_i hlive
    cases hlive
    cases ha
    rw [List.forall_mem_singleton]
    exact stamped_deliver hm hM (hk (dlq_ne_live su.live).symm) _
  · split at ha
    · cases ha
      rw [List.forall_mem_singleton]
      exact ⟨k, rfl, hk, fun _ h => nomatch h⟩
    · rename_i hdlq
      split at ha
      · cases ha
        exact stamped_enqueue fun _ => hk hdlq
      · cases ha

theorem act_stamped (hm : m.headers.lookup headerRetryCount = none) (hM : su.cfg.maxRetries.toNat = M)
    {log log' : List (Rung β)} {c : Copy β} {i : Choice} {outs : List (Copy β)}
    (h : c.Stamped m M) (ha : c.act su log i = some (log', outs)) :
    ∀ b ∈ outs, b.Stamped m M := by
  cases i with
  | crash =>
    rw [act_crash ha]
    simpa using h.waiting
  | go =>
    have hwait := h.waiting
    obtain ⟨queue, msg, st⟩ := c
    obtain ⟨k, rfl, hk, hpub⟩ := h
    cases st with
    | waiting => exact leave_stamped hm hM hk ha
    | closing ops =>
      cases ops with
      | nil => cases ha
      | cons op ops =>
        cases op with
        | publish q copy =>
          obtain ⟨rfl, hlt⟩ := hpub _ rfl q copy (by simp)
          rw [act_publish] at ha
          cases ha
          intro b hb
          rcases List.mem_append.mp hb with hb | hb
          · exact stamped_enqueue (fun hq => hlt fun h => hq (h ▸ rfl)) b hb
          · rw [List.mem_singleton] at hb
            subst hb
            refine ⟨k, rfl, hk, fun ops' h q' copy' hmem => ?_⟩
            cases h
            exact hpub _ rfl q' copy' (by simp [hmem])
        | ack => cases ha; simp
        | reject => cases ha; simp
    | resolving returns =>
      rw [act_resolving] at ha
      cases ha
      cases returns
      · simpa using hwait
      · simp

/-- In every run, whatever the work does and wherever workers crash. -/
theorem reach_stamped (hm : m.headers.lookup headerRetryCount = none)
    (hM : su.cfg.maxRetries.toNat = M) {s : Pool (List (Rung β)) (Copy β)}
    (hs : Reach (system su m) (fun _ _ _ => True) s) : ∀ c ∈ s.agents, c.Stamped m M := by
  refine Reach.each ?_ ?_ ?_ hs
  · exact stamped_enqueue (k := 0) fun _ => Nat.zero_le M
  · intro log c i log' outs _ hc ha
    exact act_stamped hm hM hc ha
  · intro log e
    exact nomatch e

end Crashes

/-- **The retry ladder**, for a message without retry header whose work always fails, under a limit
`M` and a non-empty tuple of delays.

Without a crash the broker sees the rungs of `ladder` in order, and as long as it has not seen all
of them a step is possible and few were taken. The ladder has `M + 1` deliveries; failure `k + 1`
publishes the copy with the count `k + 1`, up to `M` to the delay queue of delay `min k (len - 1)`,
which is declared with that time to live and leads back to the live queue. With crashes, what is
not on the dead-letter queue carries a count up to `M`. -/
theorem retry_ladder (su : Setup) (m : Message β) (M : Nat) (ds : List Int)
    (hM : su.cfg.maxRetries = M) (hds : su.cfg.retryDelays = some ds) (hne : ds ≠ [])
    (hm : m.headers.lookup headerRetryCount = none) (hw : ∀ n, su.work n = .raised false) :
    (∀ h s, Story (system su m) Steady (system su m).init h s →
      climbed s.shared <+: ladder su m M ∧
      (climbed s.shared = ladder su m M ∨
        h.length < 6 * M + 4 ∧ ∃ c ∈ s.agents, (c.act su s.shared .go).isSome)) ∧
    (ladder su m M).countP Rung.isDelivered = M + 1 ∧
    (∀ k, (stamped m k).body = m.body ∧ getRetryCount (stamped m k) = .ok k) ∧
    (∀ k < M, ∃ d, ds[min k (ds.length - 1)]? = some d ∧
      su.delayKey k = (QueueName.retry su.live d).name ∧
      boundTo ds (su.delayKey k) = some (delayQueue su.live d)) ∧
    ∀ s, Reach (system su m) (fun _ _ _ => True) s → ∀ c ∈ s.agents, c.msg.body = m.body ∧
      (c.queue ≠ QueueName.dlq.name → ∃ k ≤ M, getRetryCount c.msg = .ok k) := by
  have hdecl : su.declared = ds := by rw [Setup.declared, hds, Option.getD_some]
  have hM : su.cfg.maxRetries.toNat = M := by omega
  refine ⟨fun h s ht => ?_, ?_, fun k => ⟨stamped_body m k, getRetryCount_stamped hm k⟩,
    fun k _ => ?_, fun s hs c hc => ?_⟩
  · have hph := steady_phase hm hM ht
    have hsteps := steady_weight ht
    rcases hph.on_ladder (hdecl ▸ hne) hw with hall | ⟨hpre, hlen, c, hc⟩
    · exact ⟨hall ▸ List.prefix_rfl, .inl hall⟩
    · rw [climbed_eq_self hpre]
      have hle := weight_le s.shared
      exact ⟨hpre, .inr ⟨by omega, c, steady_enabled hph hc⟩⟩
  · simp [ladder, fall, Rung.isDelivered, List.countP_cons]
  · have hlen : 0 < ds.length := List.length_pos_iff.mpr hne
    refine ⟨delayAfter ds k, ?_, by rw [Setup.delayKey, hdecl], ?_⟩
    · rw [delayAfter, List.getElem?_eq_getElem (by omega), Option.getD_some]
    · have hb : boundTo su.declared (su.delayKey k) = some (delayQueue su.live _) :=
        boundTo_delayKey (hdecl ▸ hne) k
      rwa [hdecl] at hb
  · obtain ⟨k, hmsg, hk, _⟩ := reach_stamped hm hM hs c hc
    rw [hmsg]
    exact ⟨stamped_body m k, fun hq => ⟨k, hk hq, getRetryCount_stamped hm k⟩⟩

/-- A worker under the default settings whose vendor never answers. -/
def vendorDown : Setup where
  cfg := {}
  live := .tts
  work _ := .raised false
  resolves _ := true

/-- Its message climbs over the delays of 1, 4 and 16 seconds. -/
theorem retry_ladder_vendorDown :
    (∀ h s, Story (system vendorDown (publishMessage "body")) Steady
        (system vendorDown (publishMessage "body")).init h s →
      climbed s.shared <+: ladder vendorDown (publishMessage "body") 3) ∧
    vendorDown.delayKey 2 = "q.retry.q.tts.16s" := by
  have h := retry_ladder vendorDown (publishMessage "body") 3 [1, 4, 16] rfl (by decide)
    (by simp) rfl (fun _ => rfl)
  refine ⟨fun hist s hs => (h.1 hist s hs).1, ?_⟩
  obtain ⟨d, hd, hkey, _⟩ := h.2.2.2.1 2 (by decide)
  cases hd
  rw [hkey]
  decide

end Ladder
end AudioEngine
