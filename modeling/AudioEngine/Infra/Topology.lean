import AudioEngine.Infra.Broker
import AudioEngine.Lib.Registry
import AudioEngine.Lib.Settle

/-!
# AudioEngine.Infra.Topology

Workers and gateways that boot at the same time declare the topology of `core/infra/broker.py` in
one broker: `declare_full` with whatever `RETRY_DELAYS` the process was configured with, or
`declare_minimal`. Each AMQP method is a step; a process may crash between two of them and the
broker may restart.

* `Broker`: exchanges, queues and bindings under the names the source gives them.
* `Wired`: what the broker holds and what a boot that returned has left there.
* `topology_converges`: no boot is refused for what another one did; once it has returned, its part
  of the topology is what `boundTo` says, whatever is declared later.

Which values the broker takes for `x-message-ttl` is a parameter.
-/

namespace AudioEngine
namespace Topology

open Interleave Relational

/-! ## The broker -/

structure Exchange where
  name : String
  type : String
  durable : Bool
deriving DecidableEq, Repr

structure Queue where
  name : String
  durable : Bool
  messageTtlMs : Option Int
  deadLetterExchange : Option String
  deadLetterRoutingKey : Option String
deriving DecidableEq, Repr

structure Binding where
  exchange : String
  routingKey : String
  queue : String
deriving DecidableEq, Repr

structure Broker where
  exchanges : Table Exchange.name
  queues : Table Queue.name
  bindings : List Binding

inductive BrokerError where
  | refused (r : Refused)
  | notFound
deriving DecidableEq, Repr

def Broker.declareExchange (b : Broker) (x : Exchange) : Except BrokerError Broker :=
  match b.exchanges.declare (fun _ => true) x with
  | .error r => .error (.refused r)
  | .ok t => .ok { b with exchanges := t }

def Broker.declareQueue (validTtl : Int → Bool) (b : Broker) (q : Queue) :
    Except BrokerError Broker :=
  match b.queues.declare (fun q => q.messageTtlMs.all validTtl) q with
  | .error r => .error (.refused r)
  | .ok t => .ok { b with queues := t }

def Broker.bind (b : Broker) (x : Binding) : Except BrokerError Broker :=
  if (b.exchanges.get x.exchange).isSome && (b.queues.get x.queue).isSome then
    .ok { b with bindings := if x ∈ b.bindings then b.bindings else x :: b.bindings }
  else .error .notFound

/-- Where a direct exchange sends a message with a routing key. -/
def Broker.route (b : Broker) (exchange routingKey : String) : List Queue :=
  b.queues.rows.filter fun q => decide (⟨exchange, routingKey, q.name⟩ ∈ b.bindings)

/-- Where a message goes that expires in `q`; without a routing key of its own it keeps the one it
came under, which is the queue's name here. -/
def Broker.expired (b : Broker) (q : Queue) : List Queue :=
  match q.messageTtlMs, q.deadLetterExchange with
  | some _, some x => b.route x (q.deadLetterRoutingKey.getD q.name)
  | _, _ => []

/-- Only what is durable is there after a restart; a binding goes with either end. -/
def Broker.restart (b : Broker) : Broker where
  exchanges := b.exchanges.keep Exchange.durable
  queues := b.queues.keep Queue.durable
  bindings := b.bindings.filter fun x =>
    (b.exchanges.rows.all fun e => e.name ≠ x.exchange || e.durable) &&
      b.queues.rows.all fun q => q.name ≠ x.queue || q.durable

/-! ## Booting -/

def pipelineExchange : Exchange := { name := exchangeName, type := "direct", durable := true }

/-- The queue that a declaration asks for. -/
def entity (q : QueueDecl) : Queue where
  name := q.queue.name
  durable := true
  messageTtlMs := q.messageTtlMs
  deadLetterExchange := q.deadLetterExchange
  deadLetterRoutingKey := q.deadLetterRoutingKey.map QueueName.name

/-- `declare_minimal(channel)`. -/
def declareMinimal : List QueueDecl := [{ queue := .live .parse }]

/-- The AMQP method a boot is about to call. -/
inductive Pc where
  | exchange
  | declare (q : QueueDecl) (todo : List QueueDecl)
  | bind (q : QueueDecl) (todo : List QueueDecl)
deriving DecidableEq, Repr

def Pc.queue : List QueueDecl → Option Pc
  | [] => none
  | q :: todo => some (.declare q todo)

/-- `none` is the return. -/
def Pc.next (target : List QueueDecl) : Pc → Option Pc
  | exchange => queue target
  | declare q todo => some (bind q todo)
  | bind _ todo => queue todo

def Pc.call (validTtl : Int → Bool) (b : Broker) : Pc → Except BrokerError Broker
  | exchange => b.declareExchange pipelineExchange
  | declare q _ => b.declareQueue validTtl (entity q)
  | bind q _ => b.bind ⟨exchangeName, q.queue.name, q.queue.name⟩

/-- A process in `declare_full` or `declare_minimal`. -/
structure Boot where
  target : List QueueDecl
  pc : Pc := .exchange
deriving DecidableEq, Repr

/-- `booted` and `failed` log the boots that returned and the ones that raised. -/
structure Shared where
  broker : Broker
  booted : List (List QueueDecl) := []
  failed : List (List QueueDecl × BrokerError) := []

inductive Choice where
  | go
  | crash
deriving DecidableEq, Repr

inductive Env where
  | declareMinimal
  | declareFull (retryDelays : List Int)
  | restart
deriving DecidableEq, Repr

def act (validTtl : Int → Bool) (sh : Shared) (a : Boot) : Choice → Option (Shared × List Boot)
  | .crash => some (sh, [])
  | .go =>
    match a.pc.call validTtl sh.broker with
    | .error e => some ({ sh with failed := (a.target, e) :: sh.failed }, [])
    | .ok b =>
      match a.pc.next a.target with
      | none => some ({ sh with broker := b, booted := a.target :: sh.booted }, [])
      | some pc => some ({ sh with broker := b }, [{ a with pc := pc }])

def env (sh : Shared) : Env → Option (Shared × List Boot)
  | .declareMinimal => some (sh, [{ target := declareMinimal }])
  | .declareFull ds => some (sh, [{ target := declareFull ds }])
  | .restart => some ({ sh with broker := sh.broker.restart }, [])

/-- The broker starts empty. -/
def system (validTtl : Int → Bool) : System Shared Boot Choice Env where
  init := ⟨{ broker := ⟨.empty, .empty, []⟩ }, []⟩
  act := act validTtl
  env := env

/-! ## What a name means -/

/-- The declarations the source makes. -/
inductive Planned : QueueDecl → Prop where
  | dlq : Planned { queue := .dlq }
  | live (l : Live) : Planned { queue := .live l }
  | delay (l : Live) (d : Int) : Planned (delayQueue l d)

theorem planned_full {ds : List Int} {q : QueueDecl} (h : q ∈ declareFull ds) : Planned q := by
  simp only [declareFull, List.mem_cons, List.mem_flatMap, List.mem_map] at h
  rcases h with rfl | ⟨l, _, rfl | ⟨d, _, rfl⟩⟩
  · exact .dlq
  · exact .live l
  · exact .delay l d

theorem planned_minimal {q : QueueDecl} (h : q ∈ declareMinimal) : Planned q := by
  obtain rfl := List.mem_singleton.mp h
  exact .live .parse

/-- Two processes never mean different queues by one name, whatever their delays. -/
theorem Planned.unique {q q' : QueueDecl} (h : Planned q) (h' : Planned q')
    (hname : q.queue.name = q'.queue.name) : q = q' := by
  have hqueue := QueueName.name_inj.mp hname
  cases h <;> cases h' <;> cases hqueue <;> rfl

/-! ## What a step does -/

/-- The broker holds nothing but what the source declares. -/
structure Sane (b : Broker) : Prop where
  exchanges : ∀ x ∈ b.exchanges.rows, x = pipelineExchange
  queues : ∀ x ∈ b.queues.rows, ∃ q, Planned q ∧ x = entity q
  bindings : ∀ x ∈ b.bindings, x = ⟨exchangeName, x.queue, x.queue⟩

structure Grows (b b' : Broker) : Prop where
  exchanges : ∀ x ∈ b.exchanges.rows, x ∈ b'.exchanges.rows
  queues : ∀ x ∈ b.queues.rows, x ∈ b'.queues.rows
  bindings : ∀ x ∈ b.bindings, x ∈ b'.bindings

structure Bound (b : Broker) (q : QueueDecl) : Prop where
  queue : entity q ∈ b.queues.rows
  binding : ⟨exchangeName, q.queue.name, q.queue.name⟩ ∈ b.bindings

/-- What a boot has behind it. -/
def Pc.Reached (b : Broker) (target : List QueueDecl) : Pc → Prop
  | exchange => True
  | declare q todo => pipelineExchange ∈ b.exchanges.rows ∧
      ∃ done, target = done ++ q :: todo ∧ ∀ x ∈ done, Bound b x
  | bind q todo => pipelineExchange ∈ b.exchanges.rows ∧ entity q ∈ b.queues.rows ∧
      ∃ done, target = done ++ q :: todo ∧ ∀ x ∈ done, Bound b x

section Call

variable {validTtl : Int → Bool} {b b' : Broker} {target : List QueueDecl} {pc : Pc}
  {q : QueueDecl}

theorem Grows.refl (b : Broker) : Grows b b := ⟨fun _ h => h, fun _ h => h, fun _ h => h⟩

theorem Bound.mono (h : Bound b q) (hg : Grows b b') : Bound b' q :=
  ⟨hg.queues _ h.queue, hg.bindings _ h.binding⟩

theorem Pc.Reached.mono (h : pc.Reached b target) (hg : Grows b b') : pc.Reached b' target := by
  cases pc with
  | exchange => trivial
  | declare q todo =>
    obtain ⟨hx, done, htarget, hdone⟩ := h
    exact ⟨hg.exchanges _ hx, done, htarget, fun x hm => (hdone x hm).mono hg⟩
  | bind q todo =>
    obtain ⟨hx, hq, done, htarget, hdone⟩ := h
    exact ⟨hg.exchanges _ hx, hg.queues _ hq, done, htarget, fun x hm => (hdone x hm).mono hg⟩

theorem Pc.Reached.mem (h : pc.Reached b target) :
    ∀ q todo, pc = declare q todo ∨ pc = bind q todo → q ∈ target := by
  rintro q todo (rfl | rfl)
  · obtain ⟨_, done, rfl, _⟩ := h
    simp
  · obtain ⟨_, _, done, rfl, _⟩ := h
    simp

/-- With all of `done` bound, what is left starts with the next declaration or is nothing. -/
theorem reached_queue {done todo : List QueueDecl} (htarget : target = done ++ todo)
    (hx : pipelineExchange ∈ b.exchanges.rows) (hdone : ∀ x ∈ done, Bound b x) :
    (Pc.queue todo).elim (∀ x ∈ target, Bound b x) (Pc.Reached b target) := by
  cases todo with
  | nil =>
    rw [List.append_nil] at htarget
    subst htarget
    exact hdone
  | cons q todo => exact ⟨hx, done, htarget, hdone⟩

theorem declareExchange_ok (hs : Sane b) (h : b.declareExchange pipelineExchange = .ok b') :
    Sane b' ∧ Grows b b' ∧ pipelineExchange ∈ b'.exchanges.rows := by
  unfold Broker.declareExchange at h
  split at h
  · cases h
  · rename_i t ht
    cases h
    obtain ⟨hx, hgrow, hnew⟩ := Table.declare_ok ht
    refine ⟨⟨fun y hy => ?_, hs.queues, hs.bindings⟩, ⟨hgrow, fun _ h => h, fun _ h => h⟩, hx⟩
    exact (hnew y hy).elim (hs.exchanges y) id

theorem declareQueue_ok (hs : Sane b) (hq : Planned q)
    (h : b.declareQueue validTtl (entity q) = .ok b') :
    Sane b' ∧ Grows b b' ∧ entity q ∈ b'.queues.rows := by
  unfold Broker.declareQueue at h
  split at h
  · cases h
  · rename_i t ht
    cases h
    obtain ⟨hx, hgrow, hnew⟩ := Table.declare_ok ht
    refine ⟨⟨hs.exchanges, fun y hy => ?_, hs.bindings⟩, ⟨fun _ h => h, hgrow, fun _ h => h⟩, hx⟩
    exact (hnew y hy).elim (hs.queues y) fun he => ⟨q, hq, he⟩

theorem bind_ok (hs : Sane b) {key : String} (h : b.bind ⟨exchangeName, key, key⟩ = .ok b') :
    Sane b' ∧ Grows b b' ∧ ⟨exchangeName, key, key⟩ ∈ b'.bindings := by
  unfold Broker.bind at h
  split at h
  · cases h
    dsimp only
    split
    · rename_i hmem
      exact ⟨⟨hs.exchanges, hs.queues, hs.bindings⟩, .refl b, hmem⟩
    · refine ⟨⟨hs.exchanges, hs.queues, fun x hx => ?_⟩,
        ⟨fun _ h => h, fun _ h => h, fun x hx => List.mem_cons_of_mem _ hx⟩, by simp⟩
      rcases List.mem_cons.mp hx with rfl | hx
      · rfl
      · exact hs.bindings x hx
  · cases h

/-- A method that succeeds takes the boot one declaration further. -/
theorem call_ok (hs : Sane b) (hplan : ∀ q ∈ target, Planned q) (hr : pc.Reached b target)
    (h : pc.call validTtl b = .ok b') :
    Sane b' ∧ Grows b b' ∧
      (pc.next target).elim (∀ x ∈ target, Bound b' x) (Pc.Reached b' target) := by
  cases pc with
  | exchange =>
    obtain ⟨hs', hg, hx⟩ := declareExchange_ok hs h
    exact ⟨hs', hg, reached_queue (List.nil_append _).symm hx (by simp)⟩
  | declare q todo =>
    have hq := hplan q (hr.mem q todo (.inl rfl))
    obtain ⟨hx, done, htarget, hdone⟩ := hr
    obtain ⟨hs', hg, hqueue⟩ := declareQueue_ok hs hq h
    exact ⟨hs', hg, hg.exchanges _ hx, hqueue, done, htarget, fun x hm => (hdone x hm).mono hg⟩
  | bind q todo =>
    obtain ⟨hx, hqueue, done, htarget, hdone⟩ := hr
    obtain ⟨hs', hg, hbinding⟩ := bind_ok hs h
    have hsplit : target = (done ++ [q]) ++ todo := by simp [htarget]
    refine ⟨hs', hg, reached_queue hsplit (hg.exchanges _ hx) fun x hm => ?_⟩
    rcases List.mem_append.mp hm with hm | hm
    · exact (hdone x hm).mono hg
    · obtain rfl := List.mem_singleton.mp hm
      exact ⟨hg.queues _ hqueue, hbinding⟩

/-- A method fails only for a time to live that the boot asks for itself. -/
theorem call_error {e : BrokerError} (hs : Sane b) (hplan : ∀ q ∈ target, Planned q)
    (hr : pc.Reached b target) (h : pc.call validTtl b = .error e) :
    e = .refused .invalid ∧ ∃ q ∈ target, q.messageTtlMs.all validTtl = false := by
  cases pc with
  | exchange =>
    simp only [Pc.call, Broker.declareExchange] at h
    split at h
    · rename_i r hr
      have := (Table.declare_refused (fun y hy _ => hs.exchanges y hy) hr).2
      cases this
    · cases h
  | declare q todo =>
    have hmem := hr.mem q todo (.inl rfl)
    have hagree : ∀ y ∈ b.queues.rows, y.name = (entity q).name → y = entity q := by
      intro y hy hname
      obtain ⟨q', hq', rfl⟩ := hs.queues y hy
      rw [hq'.unique (hplan q hmem) hname]
    simp only [Pc.call, Broker.declareQueue] at h
    split at h
    · rename_i r hr
      cases h
      obtain ⟨rfl, hinvalid⟩ := Table.declare_refused hagree hr
      exact ⟨rfl, q, hmem, hinvalid⟩
    · cases h
  | bind q todo =>
    obtain ⟨hx, hqueue, _⟩ := hr
    have hgetx : b.exchanges.get exchangeName = some pipelineExchange := Table.get_of_mem hx
    have hgetq : b.queues.get q.queue.name = some (entity q) := Table.get_of_mem hqueue
    simp [Pc.call, Broker.bind, hgetx, hgetq] at h

theorem restart_eq (hs : Sane b) : b.restart = b := by
  have hx : ∀ x ∈ b.exchanges.rows, x.durable = true := by
    intro x hx
    rw [hs.exchanges x hx]
    rfl
  have hq : ∀ x ∈ b.queues.rows, x.durable = true := by
    intro x hx
    obtain ⟨q, _, rfl⟩ := hs.queues x hx
    rfl
  have hb : b.bindings.filter (fun x =>
      (b.exchanges.rows.all fun e => e.name ≠ x.exchange || e.durable) &&
        b.queues.rows.all fun q => q.name ≠ x.queue || q.durable) = b.bindings := by
    refine List.filter_eq_self.mpr fun x _ => ?_
    simp only [Bool.and_eq_true, List.all_eq_true, Bool.or_eq_true]
    exact ⟨fun e he => .inr (hx e he), fun q hq' => .inr (hq q hq')⟩
  unfold Broker.restart
  rw [Table.keep_eq_self hx, Table.keep_eq_self hq, hb]

end Call

/-! ## Whole runs -/

/-- What the broker and the logs say in every reachable state. -/
structure Wired (validTtl : Int → Bool) (sh : Shared) : Prop where
  sane : Sane sh.broker
  booted : ∀ target ∈ sh.booted, ∀ q ∈ target, Bound sh.broker q
  failed : ∀ x ∈ sh.failed, x.2 = .refused .invalid ∧ ∃ q ∈ x.1, q.messageTtlMs.all validTtl = false

structure OnTheWay (b : Broker) (a : Boot) : Prop where
  planned : ∀ q ∈ a.target, Planned q
  reached : a.pc.Reached b a.target

section Run

variable {validTtl : Int → Bool} {C : Shared → Boot → Choice → Prop} {s : Pool Shared Boot}
  {sh sh' : Shared} {a : Boot} {outs : List Boot}

theorem OnTheWay.mono {b b' : Broker} (h : OnTheWay b a) (hg : Grows b b') : OnTheWay b' a :=
  ⟨h.planned, h.reached.mono hg⟩

theorem act_wired {i : Choice} (hw : Wired validTtl sh) (ha : OnTheWay sh.broker a)
    (h : act validTtl sh a i = some (sh', outs)) :
    Wired validTtl sh' ∧ Grows sh.broker sh'.broker ∧ ∀ x ∈ outs, OnTheWay sh'.broker x := by
  cases i with
  | crash =>
    cases h
    exact ⟨hw, .refl _, by simp⟩
  | go =>
    simp only [act] at h
    split at h
    · rename_i e he
      cases h
      refine ⟨⟨hw.sane, hw.booted, fun x hx => ?_⟩, .refl _, by simp⟩
      rcases List.mem_cons.mp hx with rfl | hx
      · exact call_error hw.sane ha.planned ha.reached he
      · exact hw.failed x hx
    · rename_i b hb
      obtain ⟨hsane, hg, hnext⟩ := call_ok hw.sane ha.planned ha.reached hb
      have hbooted : ∀ target ∈ sh.booted, ∀ q ∈ target, Bound b q :=
        fun target ht q hq => (hw.booted target ht q hq).mono hg
      split at h
      · rename_i hreturn
        cases h
        rw [hreturn] at hnext
        refine ⟨⟨hsane, fun target ht => ?_, hw.failed⟩, hg, by simp⟩
        rcases List.mem_cons.mp ht with rfl | ht
        · exact hnext
        · exact hbooted target ht
      · rename_i pc hpc
        cases h
        rw [hpc] at hnext
        refine ⟨⟨hsane, hbooted, hw.failed⟩, hg, fun x hx => ?_⟩
        obtain rfl := List.mem_singleton.mp hx
        exact ⟨ha.planned, hnext⟩

theorem env_wired {e : Env} (hw : Wired validTtl sh) (h : env sh e = some (sh', outs)) :
    Wired validTtl sh' ∧ Grows sh.broker sh'.broker ∧ ∀ x ∈ outs, OnTheWay sh'.broker x := by
  cases e with
  | declareMinimal =>
    cases h
    refine ⟨hw, .refl _, fun x hx => ?_⟩
    obtain rfl := List.mem_singleton.mp hx
    exact ⟨fun q hq => planned_minimal hq, trivial⟩
  | declareFull ds =>
    cases h
    refine ⟨hw, .refl _, fun x hx => ?_⟩
    obtain rfl := List.mem_singleton.mp hx
    exact ⟨fun q hq => planned_full hq, trivial⟩
  | restart =>
    cases h
    rw [restart_eq hw.sane]
    exact ⟨hw, .refl _, by simp⟩

theorem reach_wired (h : Reach (system validTtl) C s) :
    Wired validTtl s.shared ∧ ∀ a ∈ s.agents, OnTheWay s.shared.broker a := by
  refine Reach.rely (R := fun sh sh' => Grows sh.broker sh'.broker) ?_ (by simp [system])
    (fun _ _ _ hw ha hs => act_wired hw ha hs) (fun _ hw he => env_wired hw he)
    (fun _ hg ha => ha.mono hg) h
  exact ⟨⟨by simp [system, Table.empty], by simp [system, Table.empty], by simp [system]⟩,
    by simp [system], by simp [system]⟩

/-! ## Where messages go -/

theorem Bound.route {b : Broker} {q : QueueDecl} (h : Bound b q) (hs : Sane b) :
    b.route exchangeName q.queue.name = [entity q] := by
  refine Table.filter_eq_singleton h.queue (decide_eq_true h.binding) fun y hy hbound => ?_
  -- a binding leads to the queue of its own routing key
  have hname : q.queue.name = y.name :=
    congrArg Binding.routingKey (hs.bindings _ (of_decide_eq_true hbound))
  exact Table.eq_of_key hy h.queue hname.symm

theorem subscript_mem {α : Type} {l : List α} {i : Int} {x : α} (h : subscript l i = some x) :
    x ∈ l := by
  unfold subscript at h
  split at h
  · exact List.mem_of_getElem? h
  · split at h
    · exact List.mem_of_getElem? h
    · cases h

/-- The retry path only uses delays that were declared. -/
theorem routeRetryOrDlq_key {β : Type} {m copy : Message β} {l : Live} {maxRetries : Int}
    {ds : List Int} {key : QueueName} (h : routeRetryOrDlq m l maxRetries ds = .ok (key, copy)) :
    key = .dlq ∨ ∃ d ∈ ds, key = .retry l d := by
  unfold routeRetryOrDlq at h
  split at h
  · cases h
  · dsimp only at h
    split at h
    · cases h
      exact .inl rfl
    · split at h
      · cases h
      · rename_i d hd
        cases h
        exact .inr ⟨d, subscript_mem hd, rfl⟩

/-! ## A boot that is left alone -/

/-- The methods still to call. -/
def Pc.left (target : List QueueDecl) : Pc → Nat
  | exchange => 2 * target.length + 1
  | declare _ todo => 2 * todo.length + 2
  | bind _ todo => 2 * todo.length + 1

theorem Pc.left_next {target : List QueueDecl} {pc pc' : Pc} (h : pc.next target = some pc') :
    pc'.left target < pc.left target := by
  cases pc with
  | exchange =>
    cases target with
    | nil => cases h
    | cons q todo => cases h; simp [Pc.left]; omega
  | declare q todo => cases h; simp [Pc.left]
  | bind q todo =>
    cases todo with
    | nil => cases h
    | cons q' todo => cases h; simp [Pc.left]; omega

/-- From wherever it is, whatever the others have left, it returns by its own steps: it leaves the
pool, the others stay where they are, and its return is logged. -/
theorem boots_alone {rest : List Boot} (hw : Wired validTtl s.shared)
    (ha : OnTheWay s.shared.broker a) (hp : s.agents.Perm (a :: rest))
    (hvalid : ∀ q ∈ a.target, q.messageTtlMs.all validTtl = true) :
    ∃ s', Schedule (system validTtl) (fun _ x i => x.target = a.target ∧ i = .go) s s' ∧
      s'.agents.Perm rest ∧ s'.shared.booted = a.target :: s.shared.booted := by
  -- induction on the methods left
  generalize hn : a.pc.left a.target = n
  induction n using Nat.strong_induction_on generalizing s a with
  | _ n ih =>
    cases hcall : a.pc.call validTtl s.shared.broker with
    | error e =>
      obtain ⟨_, q, hq, hinvalid⟩ := call_error hw.sane ha.planned ha.reached hcall
      rw [hvalid q hq] at hinvalid
      cases hinvalid
    | ok b =>
      cases hnext : a.pc.next a.target with
      | none =>
        have hact : act validTtl s.shared a .go =
            some ({ s.shared with broker := b, booted := a.target :: s.shared.booted }, []) := by
          simp only [act, hcall, hnext]
        exact ⟨_, .single (.act hp ⟨rfl, rfl⟩ hact), List.Perm.refl _, rfl⟩
      | some pc =>
        have hact : act validTtl s.shared a .go =
            some ({ s.shared with broker := b }, [{ a with pc := pc }]) := by
          simp only [act, hcall, hnext]
        obtain ⟨hw', _, hout⟩ := act_wired hw ha hact
        obtain ⟨s', hs', hbooted⟩ := ih (pc.left a.target) (hn ▸ Pc.left_next hnext)
          (s := ⟨{ s.shared with broker := b }, [{ a with pc := pc }] ++ rest⟩)
          (a := { a with pc := pc }) hw' (hout _ (by simp)) (List.Perm.refl _) hvalid rfl
        exact ⟨s', .head (.act hp ⟨rfl, rfl⟩ hact) hs', hbooted⟩

end Run

/-- Whoever boots, in whatever order, with whatever delays, crashes and restarts of the broker on
the way: a boot is refused only for a time to live it asks for itself; once it has returned, every
routing key it declared leads to exactly its queue and stays so, the static topology of `boundTo` is
what the broker does, and what the retry path publishes lands in the dead-letter queue or in the
delay queue that expires to exactly the live queue; and a boot with valid delays returns by its own
steps from anywhere, while the others stay where they are. -/
theorem topology_converges {validTtl : Int → Bool} {C : Shared → Boot → Choice → Prop}
    {s : Pool Shared Boot} (h : Reach (system validTtl) C s) :
    (∀ target e, (target, e) ∈ s.shared.failed →
      e = .refused .invalid ∧ ∃ q ∈ target, q.messageTtlMs.all validTtl = false) ∧
    (∀ target ∈ s.shared.booted, ∀ q ∈ target,
      s.shared.broker.route exchangeName q.queue.name = [entity q]) ∧
    (∀ ds, declareFull ds ∈ s.shared.booted →
      (∀ key q, boundTo ds key = some q → s.shared.broker.route exchangeName key = [entity q]) ∧
      ∀ {β : Type} (m copy : Message β) l maxRetries key,
        routeRetryOrDlq m l maxRetries ds = .ok (key, copy) →
        ∃ q, s.shared.broker.route exchangeName key.name = [q] ∧
          (key = .dlq ∧ q.messageTtlMs = none ∨
            ∃ d ∈ ds, key = .retry l d ∧ q.messageTtlMs = some (d * 1000) ∧
              s.shared.broker.expired q = [entity { queue := .live l }])) ∧
    ∀ a rest, s.agents.Perm (a :: rest) → (∀ q ∈ a.target, q.messageTtlMs.all validTtl = true) →
      ∃ s', Schedule (system validTtl) (fun _ x i => x.target = a.target ∧ i = .go) s s' ∧
        s'.agents.Perm rest ∧ s'.shared.booted = a.target :: s.shared.booted := by
  obtain ⟨hw, hagents⟩ := reach_wired h
  have hroute : ∀ target ∈ s.shared.booted, ∀ q ∈ target,
      s.shared.broker.route exchangeName q.queue.name = [entity q] :=
    fun target ht q hq => (hw.booted target ht q hq).route hw.sane
  refine ⟨fun target e hf => hw.failed _ hf, hroute, fun ds hds => ⟨fun key q hq => ?_, ?_⟩,
    fun a rest hp hvalid => ?_⟩
  · have hname : q.queue.name = key := by simpa using List.find?_some hq
    rw [← hname]
    exact hroute _ hds q (List.mem_of_find?_eq_some hq)
  · intro β m copy l maxRetries key hkey
    rcases routeRetryOrDlq_key hkey with rfl | ⟨d, hd, rfl⟩
    · exact ⟨_, hroute _ hds _ (declareFull_dlq ds), .inl ⟨rfl, rfl⟩⟩
    · refine ⟨_, hroute _ hds _ (declareFull_delayQueue l hd), .inr ⟨d, hd, rfl, rfl, ?_⟩⟩
      exact hroute _ hds _ (declareFull_liveQueue ds l)
  · exact boots_alone hw (hagents a (hp.mem_iff.mpr List.mem_cons_self)) hp hvalid

/-- One worker crashes half way, one with a negative delay is refused, one boots, and one more with
the same delays is half way: it returns as well. -/
theorem topology_converges_after_crash :
    ∃ s, Reach (system fun ttl => decide (0 ≤ ttl)) (fun _ _ _ => True) s ∧
      (∃ e, (declareFull [-1], e) ∈ s.shared.failed ∧ e = .refused .invalid) ∧
      (∃ q, s.shared.broker.route exchangeName (QueueName.retry .tts 1).name = [q] ∧
        q.messageTtlMs = some 1000 ∧
        s.shared.broker.expired q = [entity { queue := .live .tts }]) ∧
      s.agents.length = 1 ∧
      ∃ s', Schedule (system fun ttl => decide (0 ≤ ttl)) (fun _ x i =>
          x.target = declareFull [1] ∧ i = .go) s s' ∧
        s'.agents = [] ∧ s'.shared.booted = [declareFull [1], declareFull [1]] := by
  obtain ⟨s, h, hfailed, hbooted, hagents⟩ :
      ∃ s, Reach (system fun ttl => decide (0 ≤ ttl)) (fun _ _ _ => True) s ∧
        s.shared.failed.map Prod.fst = [declareFull [-1]] ∧ s.shared.booted = [declareFull [1]] ∧
        s.agents.map Boot.target = [declareFull [1]] :=
    System.exists_reach (C := fun _ _ _ => true) (fun _ _ _ _ => trivial)
      (List.flatten [.env (.declareFull [1]) :: List.replicate 8 (.act 0 .go), [.act 0 .crash],
        .env (.declareFull [-1]) :: List.replicate 6 (.act 0 .go),
        .env (.declareFull [1]) :: List.replicate 15 (.act 0 .go),
        .env (.declareFull [1]) :: List.replicate 5 (.act 0 .go)]) (by decide +kernel)
  obtain ⟨hrefused, _, hfull, hreturns⟩ := topology_converges h
  obtain ⟨x, hx, hfst⟩ : ∃ x ∈ s.shared.failed, x.1 = declareFull [-1] :=
    List.mem_map.mp (hfailed ▸ List.mem_singleton_self _)
  have hmem : (declareFull [-1], x.2) ∈ s.shared.failed := by rwa [← hfst]
  obtain ⟨_, hretry⟩ := hfull [1] (hbooted ▸ List.mem_singleton_self _)
  obtain ⟨copy, hcopy⟩ : ∃ copy, routeRetryOrDlq ({ body := () } : Message Unit) .tts 3 [1] =
      .ok (.retry .tts 1, copy) := ⟨_, rfl⟩
  -- the boot that is half way
  obtain ⟨a, hone, htarget⟩ := List.map_eq_singleton_iff.mp hagents
  have hvalid : ∀ q ∈ a.target, q.messageTtlMs.all (fun ttl => decide (0 ≤ ttl)) = true := by
    rw [htarget]
    decide
  obtain ⟨s', hs', hgone, hlog⟩ := hreturns a [] (by rw [hone]) hvalid
  rw [htarget] at hs' hlog
  rw [hbooted] at hlog
  obtain ⟨q, hq, hdlq | ⟨d, hd, _, httl, hexp⟩⟩ := hretry _ copy .tts 3 _ hcopy
  · cases hdlq.1
  · obtain rfl := List.mem_singleton.mp hd
    exact ⟨s, h, ⟨x.2, hmem, (hrefused _ _ hmem).1⟩, ⟨q, hq, httl, hexp⟩, by rw [hone]; rfl,
      s', hs', hgone.eq_nil, hlog⟩

end Topology
end AudioEngine
