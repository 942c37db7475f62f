import AudioEngine.Lib.Interleave
import AudioEngine.Lib.Registry

/-!
# AudioEngine.Infra.Inbox

The inbox of `core/infra/db.py`: `mark_event`, and its retention by `purge_once` of the gateway.

Any number of transactions are open at a time. The `INSERT … ON CONFLICT DO NOTHING` waits for an
open transaction that has inserted or deleted the row, and so does the `DELETE` of the purge; both
see what is committed otherwise. `func.now()` is the time at which the transaction began, so a row
may be older than its commit.

`marked_once`: what `mark_event` promises is that an event is new at most once in the retention.
-/

namespace AudioEngine
namespace Inbox

open Interleave Relational

structure ProcessedEvent where
  eventId : String
  consumedAt : Nat
deriving DecidableEq, Repr

/-- A `mark_event` that returned `True` in a transaction that has committed. -/
structure Consumed where
  event : ProcessedEvent
  committedAt : Nat
deriving DecidableEq, Repr

/-- The committed rows and the ids of the rows that open transactions have written. -/
structure Shared where
  now : Nat := 0
  processedEvents : Table ProcessedEvent.eventId := .empty
  locks : List String := []
  /-- newest first -/
  consumed : List Consumed := []

inductive Agent where
  /-- a transaction that calls `mark_event`, with the ids that were new -/
  | consumer (start : Nat) (marked : List String)
  /-- a run of `purge_once`, with the ids it has deleted -/
  | purge (start : Nat) (deleted : Option (List String))
deriving DecidableEq, Repr

inductive Choice where
  | markEvent (eventId : String)
  | purgeProcessedEvents
  | commit
  | rollback
deriving DecidableEq, Repr

inductive Env where
  | tick
  | consumer
  | purge
deriving DecidableEq, Repr

/-- `mark_event(session, event_id)`; `none` waits. -/
def markEvent (sh : Shared) (marked : List String) (eventId : String) : Option Bool :=
  if eventId ∈ marked then some false
  else if eventId ∈ sh.locks then none
  else some (sh.processedEvents.get eventId).isNone

/-- The rows of `purge_processed_events(session, older_than_seconds)`. -/
def purgeable (sh : Shared) (start olderThanSeconds : Nat) : List String :=
  (sh.processedEvents.rows.filter fun r => r.consumedAt + olderThanSeconds < start).map
    ProcessedEvent.eventId

def release (sh : Shared) (ids : List String) : List String := sh.locks.filter fun e => e ∉ ids

def act (retention : Nat) (sh : Shared) : Agent → Choice → Option (Shared × List Agent)
  | .consumer start marked, .markEvent eventId =>
    match markEvent sh marked eventId with
    | none => none
    | some false => some (sh, [.consumer start marked])
    | some true =>
      some ({ sh with locks := eventId :: sh.locks }, [.consumer start (eventId :: marked)])
  | .consumer start marked, .commit =>
    match sh.processedEvents.insertIgnore ProcessedEvent.eventId
        (marked.map fun e => ⟨e, start⟩) with
    | none => none
    | some t =>
      some ({ sh with
        processedEvents := t
        locks := release sh marked
        consumed := marked.map (fun e => ⟨⟨e, start⟩, sh.now⟩) ++ sh.consumed }, [])
  | .consumer _ marked, .rollback => some ({ sh with locks := release sh marked }, [])
  | .purge start none, .purgeProcessedEvents =>
    if ∀ e ∈ purgeable sh start retention, e ∉ sh.locks then
      some ({ sh with locks := purgeable sh start retention ++ sh.locks },
        [.purge start (some (purgeable sh start retention))])
    else none
  | .purge _ none, .rollback => some (sh, [])
  | .purge _ (some deleted), .commit =>
    some ({ sh with
      processedEvents := sh.processedEvents.keep fun r => r.eventId ∉ deleted
      locks := release sh deleted }, [])
  | .purge _ (some deleted), .rollback => some ({ sh with locks := release sh deleted }, [])
  | _, _ => none

def env (sh : Shared) : Env → Option (Shared × List Agent)
  | .tick => some ({ sh with now := sh.now + 1 }, [])
  | .consumer => some (sh, [.consumer sh.now []])
  | .purge => some (sh, [.purge sh.now none])

abbrev State := Pool Shared Agent

def system (retention : Nat) : System Shared Agent Choice Env where
  init := ⟨{}, []⟩
  act := act retention
  env := env

/-! ## Locks -/

/-- The ids an open transaction has written. -/
def Agent.held : Agent → List String
  | .consumer _ marked => marked
  | .purge _ deleted => deleted.getD []

/-- Every lock is held by one transaction. -/
structure Locked (s : State) : Prop where
  held : (s.agents.flatMap Agent.held).Perm s.shared.locks
  nodup : s.shared.locks.Nodup

section Locks

variable {s : State} {sh : Shared} {a b : Agent} {rest : List Agent} {e : String}

theorem Locked.split (h : Locked s) (hp : s.agents.Perm (a :: rest)) :
    (a.held ++ rest.flatMap Agent.held).Perm s.shared.locks :=
  ((hp.flatMap_right Agent.held).symm.trans h.held)

theorem Locked.disjoint (h : Locked s) (hp : s.agents.Perm (a :: rest)) (hb : b ∈ rest)
    (he : e ∈ b.held) : e ∉ a.held := by
  have hnodup := (h.split hp).nodup_iff.mpr h.nodup
  intro ha
  exact List.disjoint_of_nodup_append hnodup ha (List.mem_flatMap.mpr ⟨b, hb, he⟩)

/-- A transaction that ends gives its locks back. -/
theorem Locked.release (h : Locked s) (hp : s.agents.Perm (a :: rest))
    (hsh : sh.locks = Inbox.release s.shared a.held) : Locked ⟨sh, rest⟩ := by
  have hrest : (rest.flatMap Agent.held).filter (fun e => e ∉ a.held) =
      rest.flatMap Agent.held := by
    refine List.filter_eq_self.mpr fun e he => ?_
    obtain ⟨b, hb, heb⟩ := List.mem_flatMap.mp he
    exact decide_eq_true (h.disjoint hp hb heb)
  have hown : a.held.filter (fun e => e ∉ a.held) = [] := by
    refine List.filter_eq_nil_iff.mpr fun e he => ?_
    simpa using he
  have hfilter := (h.split hp).filter fun e => e ∉ a.held
  rw [List.filter_append, hown, hrest, List.nil_append] at hfilter
  refine ⟨?_, ?_⟩
  · rw [hsh]
    exact hfilter
  · rw [hsh]
    exact h.nodup.filter _

/-- A transaction that writes rows nobody has written locks them. -/
theorem Locked.take {ids : List String} (h : Locked s) (hp : s.agents.Perm (a :: rest))
    (hids : ids.Nodup) (hfree : ∀ e ∈ ids, e ∉ s.shared.locks)
    (hsh : sh.locks = ids ++ s.shared.locks) (hb : b.held = ids ++ a.held) :
    Locked ⟨sh, b :: rest⟩ := by
  constructor
  · rw [hsh, List.flatMap_cons, hb, List.append_assoc]
    exact (h.split hp).append_left ids
  · rw [hsh]
    exact hids.append h.nodup fun e he hl => hfree e he hl

end Locks

/-! ## What is new -/

/-- What an open transaction knows of the rows it has written. -/
def Agent.Ok (retention : Nat) (sh : Shared) : Agent → Prop
  | .consumer _ marked => ∀ e ∈ marked, sh.processedEvents.get e = none ∧
      ∀ y ∈ sh.consumed, y.event.eventId = e → y.event.consumedAt + retention < sh.now
  | .purge start deleted => start ≤ sh.now ∧ ∀ e ∈ deleted.getD [], ∀ r,
      sh.processedEvents.get e = some r → r.consumedAt + retention < sh.now

structure Sound (retention : Nat) (s : State) : Prop where
  locked : Locked s
  ok : ∀ a ∈ s.agents, a.Ok retention s.shared
  /-- what is consumed has its row for the retention -/
  kept : ∀ y ∈ s.shared.consumed, y.event ∈ s.shared.processedEvents.rows ∨
    y.event.consumedAt + retention < s.shared.now
  backed : ∀ r ∈ s.shared.processedEvents.rows, ∃ y ∈ s.shared.consumed, y.event = r
  spaced : s.shared.consumed.Pairwise fun later earlier =>
    later.event.eventId = earlier.event.eventId →
      earlier.event.consumedAt + retention < later.committedAt

section Step

variable {retention : Nat} {s : State} {sh : Shared} {a b : Agent} {rest outs : List Agent}
  {i : Choice} {marked : List String} {start : Nat}

theorem markEvent_eq_true {eventId : String} (h : markEvent sh marked eventId = some true) :
    eventId ∉ marked ∧ eventId ∉ sh.locks ∧ sh.processedEvents.get eventId = none := by
  unfold markEvent at h
  split at h
  · cases h
  · rename_i hm
    split at h
    · cases h
    · rename_i hl
      exact ⟨hm, hl, Option.isNone_iff_eq_none.mp (Option.some.inj h)⟩

theorem purgeable_old {e : String} (h : e ∈ purgeable sh start retention) :
    ∃ r, sh.processedEvents.get e = some r ∧ r.consumedAt + retention < start := by
  obtain ⟨r, hr, rfl⟩ := List.mem_map.mp h
  obtain ⟨hrow, hold⟩ := List.mem_filter.mp hr
  exact ⟨r, Table.get_of_mem hrow, of_decide_eq_true hold⟩

theorem nodup_purgeable : (purgeable sh start retention).Nodup :=
  sh.processedEvents.nodup.sublist (List.filter_sublist.map _)

/-- `Ok` does not look at the locks. -/
theorem Agent.Ok.congr {sh' : Shared} (h : b.Ok retention sh)
    (hrows : sh'.processedEvents = sh.processedEvents) (hnow : sh'.now = sh.now) (hlog : sh'.consumed = sh.consumed) : b.Ok retention sh' := by
  cases b with
  | consumer start marked =>
    simp only [Agent.Ok, hrows, hnow, hlog]
    exact h
  | purge start deleted =>
    simp only [Agent.Ok, hrows, hnow]
    exact h

theorem Sound.ok_rest (h : Sound retention s) (hp : s.agents.Perm (a :: rest)) (hb : b ∈ rest) :
    b.Ok retention s.shared :=
  h.ok b (hp.mem_iff.mpr (by simp [hb]))

/-- A step that writes no row. -/
theorem Sound.locks (h : Sound retention s) (hp : s.agents.Perm (a :: rest))
    (hl : Locked ⟨sh, outs ++ rest⟩) (hrows : sh.processedEvents = s.shared.processedEvents)
    (hnow : sh.now = s.shared.now) (hlog : sh.consumed = s.shared.consumed)
    (hout : ∀ b ∈ outs, b.Ok retention s.shared) : Sound retention ⟨sh, outs ++ rest⟩ := by
  refine ⟨hl, fun b hb => ?_, ?_, ?_, ?_⟩
  · rcases List.mem_append.mp hb with hb | hb
    · exact (hout b hb).congr hrows hnow hlog
    · exact (h.ok_rest hp hb).congr hrows hnow hlog
  · simp only [hrows, hnow, hlog]
    exact h.kept
  · simp only [hrows, hlog]
    exact h.backed
  · simp only [hlog]
    exact h.spaced

theorem Sound.marks {eventId : String} (h : Sound retention s)
    (hp : s.agents.Perm (.consumer start marked :: rest))
    (hm : markEvent s.shared marked eventId = some true) :
    Sound retention ⟨{ s.shared with locks := eventId :: s.shared.locks },
      [.consumer start (eventId :: marked)] ++ rest⟩ := by
  obtain ⟨_, hfree, hnone⟩ := markEvent_eq_true hm
  have hok : (Agent.consumer start marked).Ok retention s.shared :=
    h.ok _ (hp.mem_iff.mpr (by simp))
  refine h.locks hp (h.locked.take hp (List.nodup_singleton eventId) ?_ rfl rfl) rfl rfl rfl ?_
  · simpa using hfree
  · intro b hb
    obtain rfl := List.mem_singleton.mp hb
    intro e he
    rcases List.mem_cons.mp he with rfl | he
    · refine ⟨hnone, fun y hy hid => (h.kept y hy).resolve_left fun hrow => ?_⟩
      exact Table.get_eq_none.mp hnone _ hrow hid
    · exact hok e he

/-- The rows of a commit go in as they are: nobody else has got there first. -/
theorem Sound.insert (h : Sound retention s)
    (hp : s.agents.Perm (.consumer start marked :: rest)) :
    marked.Nodup ∧ ∃ t, s.shared.processedEvents.insertIgnore ProcessedEvent.eventId
        (marked.map fun e => ⟨e, start⟩) = some t ∧
      t.rows = s.shared.processedEvents.rows ++ marked.map fun e => ⟨e, start⟩ := by
  have hok : (Agent.consumer start marked).Ok retention s.shared :=
    h.ok _ (hp.mem_iff.mpr (by simp))
  have hmarked : marked.Nodup := by
    have := (h.locked.split hp).nodup_iff.mpr h.locked.nodup
    exact (List.nodup_append.mp this).1
  have hids : ((marked.map fun e => (⟨e, start⟩ : ProcessedEvent)).map
      ProcessedEvent.eventId) = marked := by
    rw [List.map_map]
    exact List.map_id marked
  refine ⟨hmarked, Table.insertIgnore_all_new _ _ (hids.symm ▸ hmarked) (hids.symm ▸ hmarked)
    (fun r hr hmem => ?_) fun r hr => ?_⟩
  · obtain ⟨e, he, rfl⟩ := List.mem_map.mp hr
    obtain ⟨r', hr', hid⟩ := List.mem_map.mp hmem
    exact Table.get_eq_none.mp (hok e he).1 r' hr' hid
  · obtain ⟨e, he, rfl⟩ := List.mem_map.mp hr
    exact (hok e he).1

theorem Sound.commits {t : Table ProcessedEvent.eventId} (h : Sound retention s)
    (hp : s.agents.Perm (.consumer start marked :: rest))
    (ht : s.shared.processedEvents.insertIgnore ProcessedEvent.eventId
      (marked.map fun e => ⟨e, start⟩) = some t) :
    Sound retention ⟨{ s.shared with
      processedEvents := t
      locks := Inbox.release s.shared marked
      consumed := marked.map (fun e => ⟨⟨e, start⟩, s.shared.now⟩) ++ s.shared.consumed }, rest⟩ := by
  have hok : (Agent.consumer start marked).Ok retention s.shared :=
    h.ok _ (hp.mem_iff.mpr (by simp))
  obtain ⟨hmarked, t', ht', hrows⟩ := h.insert hp
  obtain rfl := Option.some.inj (ht.symm.trans ht')
  have hsplit : ∀ r, r ∈ t.rows ↔ r ∈ s.shared.processedEvents.rows ∨
      r.eventId ∈ marked ∧ r = ⟨r.eventId, start⟩ := by
    intro r
    rw [hrows, List.mem_append, List.mem_map]
    refine or_congr_right ⟨?_, fun hr => ⟨r.eventId, hr.1, hr.2.symm⟩⟩
    rintro ⟨e, he, rfl⟩
    exact ⟨he, rfl⟩
  refine ⟨h.locked.release hp rfl, fun b hb => ?_, fun y hy => ?_, fun r hr => ?_, ?_⟩
  · have hokb := h.ok_rest hp hb
    have hdisj : ∀ e ∈ b.held, e ∉ marked := fun e he => h.locked.disjoint hp hb he
    cases b with
    | consumer start' marked' =>
      intro e he
      refine ⟨Table.get_eq_none.mpr fun r hr hid => ?_, fun y hy hid => ?_⟩
      · rcases (hsplit r).mp hr with hr | ⟨hr, _⟩
        · exact Table.get_eq_none.mp (hokb e he).1 r hr hid
        · exact hdisj e he (hid ▸ hr)
      · rcases List.mem_append.mp hy with hy | hy
        · obtain ⟨e', he', rfl⟩ := List.mem_map.mp hy
          exact absurd (hid ▸ he') (hdisj e he)
        · exact (hokb e he).2 y hy hid
    | purge start' deleted =>
      refine ⟨hokb.1, fun e he r hr => ?_⟩
      obtain ⟨hrow, hid⟩ := Table.get_eq_some.mp hr
      rcases (hsplit r).mp hrow with hrow | ⟨hnew, _⟩
      · exact hokb.2 e he r (Table.get_eq_some.mpr ⟨hrow, hid⟩)
      · exact absurd (hid ▸ hnew) (hdisj e he)
  · rcases List.mem_append.mp hy with hy | hy
    · obtain ⟨e, he, rfl⟩ := List.mem_map.mp hy
      exact .inl ((hsplit _).mpr (.inr ⟨he, rfl⟩))
    · exact (h.kept y hy).imp_left fun hrow => (hsplit _).mpr (.inl hrow)
  · rcases (hsplit r).mp hr with hr | ⟨hr, heq⟩
    · obtain ⟨y, hy, hyr⟩ := h.backed r hr
      exact ⟨y, List.mem_append_right _ hy, hyr⟩
    · exact ⟨⟨⟨r.eventId, start⟩, s.shared.now⟩,
        List.mem_append_left _ (List.mem_map.mpr ⟨r.eventId, hr, rfl⟩), heq.symm⟩
  · refine List.pairwise_append.mpr ⟨?_, h.spaced, fun x hx y hy hid => ?_⟩
    · refine List.pairwise_map.mpr (hmarked.imp fun hne hid => absurd hid hne)
    · obtain ⟨e, he, rfl⟩ := List.mem_map.mp hx
      exact (hok e he).2 y hy hid.symm

theorem Sound.deletes (h : Sound retention s)
    (hp : s.agents.Perm (.purge start none :: rest))
    (hfree : ∀ e ∈ purgeable s.shared start retention, e ∉ s.shared.locks) :
    Sound retention ⟨{ s.shared with
        locks := purgeable s.shared start retention ++ s.shared.locks },
      [.purge start (some (purgeable s.shared start retention))] ++ rest⟩ := by
  have hok : (Agent.purge start none).Ok retention s.shared := h.ok _ (hp.mem_iff.mpr (by simp))
  have htake : Locked ⟨{ s.shared with
        locks := purgeable s.shared start retention ++ s.shared.locks },
      .purge start (some (purgeable s.shared start retention)) :: rest⟩ :=
    h.locked.take hp nodup_purgeable hfree rfl (List.append_nil _).symm
  refine h.locks hp htake rfl rfl rfl fun b hb => ?_
  obtain rfl := List.mem_singleton.mp hb
  refine ⟨hok.1, fun e he r hr => ?_⟩
  obtain ⟨r', hr', hold⟩ := purgeable_old he
  rw [hr] at hr'
  obtain rfl := Option.some.inj hr'
  exact Nat.lt_of_lt_of_le hold hok.1

theorem Sound.purges {deleted : List String} (h : Sound retention s)
    (hp : s.agents.Perm (.purge start (some deleted) :: rest)) :
    Sound retention ⟨{ s.shared with
      processedEvents := s.shared.processedEvents.keep fun r => r.eventId ∉ deleted
      locks := Inbox.release s.shared deleted }, rest⟩ := by
  have hok : (Agent.purge start (some deleted)).Ok retention s.shared :=
    h.ok _ (hp.mem_iff.mpr (by simp))
  have hsub : ∀ r ∈ (s.shared.processedEvents.keep fun r => r.eventId ∉ deleted).rows,
      r ∈ s.shared.processedEvents.rows := fun r hr => (List.mem_filter.mp hr).1
  refine ⟨h.locked.release hp rfl, fun b hb => ?_, fun y hy => ?_, fun r hr => h.backed r (hsub r hr),
    h.spaced⟩
  · have hokb := h.ok_rest hp hb
    cases b with
    | consumer start' marked =>
      refine fun e he => ⟨Table.get_eq_none.mpr fun r hr => ?_, (hokb e he).2⟩
      exact Table.get_eq_none.mp (hokb e he).1 r (hsub r hr)
    | purge start' deleted' =>
      refine ⟨hokb.1, fun e he r hr => ?_⟩
      obtain ⟨hrow, hid⟩ := Table.get_eq_some.mp hr
      exact hokb.2 e he r (Table.get_eq_some.mpr ⟨hsub r hrow, hid⟩)
  · by_cases hdel : y.event.eventId ∈ deleted
    · refine .inr ((h.kept y hy).elim (fun hrow => ?_) id)
      exact hok.2 _ hdel _ (Table.get_of_mem hrow)
    · exact (h.kept y hy).imp_left fun hrow => List.mem_filter.mpr ⟨hrow, decide_eq_true hdel⟩

/-- One step of a transaction. -/
theorem Sound.act (h : Sound retention s) (hp : s.agents.Perm (a :: rest))
    (ha : act retention s.shared a i = some (sh, outs)) : Sound retention ⟨sh, outs ++ rest⟩ := by
  have hok : a.Ok retention s.shared := h.ok a (hp.mem_iff.mpr (by simp))
  cases a with
  | consumer start marked =>
    cases i with
    | markEvent eventId =>
      simp only [Inbox.act] at ha
      split at ha
      · cases ha
      · cases ha
        refine h.locks hp ⟨(hp.flatMap_right Agent.held).symm.trans h.locked.held,
          h.locked.nodup⟩ rfl rfl rfl fun b hb => ?_
        rwa [List.mem_singleton.mp hb]
      · rename_i hm
        cases ha
        exact h.marks hp hm
    | commit =>
      simp only [Inbox.act] at ha
      split at ha
      · cases ha
      · rename_i t ht
        cases ha
        exact h.commits hp ht
    | rollback =>
      cases ha
      exact h.locks hp (h.locked.release hp rfl) rfl rfl rfl (by simp)
    | purgeProcessedEvents => cases ha
  | purge start deleted =>
    cases deleted with
    | none =>
      cases i with
      | purgeProcessedEvents =>
        simp only [Inbox.act] at ha
        split at ha
        · rename_i hfree
          cases ha
          exact h.deletes hp hfree
        · cases ha
      | rollback =>
        cases ha
        have hlocks : s.shared.locks = Inbox.release s.shared [] := by simp [Inbox.release]
        exact h.locks hp (h.locked.release hp hlocks) rfl rfl rfl (by simp)
      | _ => cases ha
    | some deleted =>
      cases i with
      | commit =>
        cases ha
        exact h.purges hp
      | rollback =>
        cases ha
        exact h.locks hp (h.locked.release hp rfl) rfl rfl rfl (by simp)
      | _ => cases ha

theorem Sound.env {x : Env} (h : Sound retention s) (he : env s.shared x = some (sh, outs)) :
    Sound retention ⟨sh, outs ++ s.agents⟩ := by
  cases x with
  | tick =>
    cases he
    refine ⟨⟨h.locked.held, h.locked.nodup⟩, fun b hb => ?_, fun y hy => ?_, h.backed, h.spaced⟩
    · have hokb := h.ok b hb
      cases b with
      | consumer start marked =>
        exact fun e he => ⟨(hokb e he).1, fun y hy hid =>
          Nat.lt_succ_of_lt ((hokb e he).2 y hy hid)⟩
      | purge start deleted =>
        exact ⟨Nat.le_succ_of_le hokb.1, fun e he r hr => Nat.lt_succ_of_lt (hokb.2 e he r hr)⟩
    · exact (h.kept y hy).imp_right Nat.lt_succ_of_lt
  | consumer =>
    cases he
    refine ⟨⟨h.locked.held, h.locked.nodup⟩, fun b hb => ?_, h.kept, h.backed, h.spaced⟩
    rcases List.mem_cons.mp hb with rfl | hb
    · intro e he
      cases he
    · exact h.ok b hb
  | purge =>
    cases he
    refine ⟨⟨h.locked.held, h.locked.nodup⟩, fun b hb => ?_, h.kept, h.backed, h.spaced⟩
    rcases List.mem_cons.mp hb with rfl | hb
    · exact ⟨Nat.le_refl _, fun e he => by cases he⟩
    · exact h.ok b hb

theorem reach_sound {C : Shared → Agent → Choice → Prop} (h : Reach (system retention) C s) :
    Sound retention s := by
  induction h with
  | init =>
    constructor
    · exact ⟨List.Perm.refl _, List.nodup_nil⟩
    · simp [system]
    · simp [system]
    · simp [system, Table.empty]
    · exact List.Pairwise.nil
  | step _ hs ih =>
    cases hs with
    | act hp _ ha => exact ih.act hp ha
    | env he => exact ih.env he

end Step

/-- Whatever transactions are open, roll back or purge at the same time: of the transactions that
have committed, two for which one event was new lie more than the retention apart, from the start of
the first to the commit of the second, and before that nobody is told that the event is new; who is
told that it is not has marked it itself, or it has been consumed; no two open transactions have
marked one event, and their commits do not fail. -/
theorem marked_once {retention : Nat} {C : Shared → Agent → Choice → Prop} {s : State}
    (h : Reach (system retention) C s) :
    (s.shared.consumed.Pairwise fun later earlier =>
      later.event.eventId = earlier.event.eventId →
        earlier.event.consumedAt + retention < later.committedAt) ∧
    (∀ y ∈ s.shared.consumed, s.shared.now ≤ y.event.consumedAt + retention →
      ∀ marked, markEvent s.shared marked y.event.eventId ≠ some true) ∧
    (∀ marked eventId, markEvent s.shared marked eventId = some false →
      eventId ∈ marked ∨ ∃ y ∈ s.shared.consumed, y.event.eventId = eventId) ∧
    (s.agents.flatMap Agent.held).Nodup ∧
    ∀ start marked, .consumer start marked ∈ s.agents →
      (act retention s.shared (.consumer start marked) .commit).isSome = true := by
  have hs := reach_sound h
  refine ⟨hs.spaced, fun y hy hnow marked hm => ?_, fun marked eventId hm => ?_, ?_,
    fun start marked ha => ?_⟩
  · have hnone := (markEvent_eq_true hm).2.2
    rcases hs.kept y hy with hrow | hold
    · exact Table.get_eq_none.mp hnone _ hrow rfl
    · omega
  · unfold markEvent at hm
    split at hm
    · exact .inl ‹_›
    · split at hm
      · cases hm
      · cases hget : s.shared.processedEvents.get eventId with
        | none =>
          rw [hget] at hm
          cases hm
        | some r =>
          obtain ⟨hrow, hid⟩ := Table.get_eq_some.mp hget
          obtain ⟨y, hy, rfl⟩ := hs.backed r hrow
          exact .inr ⟨y, hy, hid⟩
  · exact hs.locked.held.nodup_iff.mpr hs.locked.nodup
  · obtain ⟨_, t, ht, _⟩ := hs.insert (List.perm_cons_erase ha)
    simp [act, ht]

/-- A retention of 5: an event is new at 0, a purge removes its row at 6, and it is new again. -/
theorem marked_once_again :
    ∃ s, Reach (system 5) (fun _ _ _ => True) s ∧
      s.shared.consumed = [⟨⟨"e", 6⟩, 6⟩, ⟨⟨"e", 0⟩, 0⟩] ∧
      markEvent s.shared [] "e" = some false ∧ ∃ y ∈ s.shared.consumed, y.event.eventId = "e" := by
  obtain ⟨s, h, hconsumed, hmark⟩ :
      ∃ s, Reach (system 5) (fun _ _ _ => True) s ∧
        s.shared.consumed = [⟨⟨"e", 6⟩, 6⟩, ⟨⟨"e", 0⟩, 0⟩] ∧ markEvent s.shared [] "e" = some false :=
    System.exists_reach (C := fun _ _ _ => true) (fun _ _ _ _ => trivial)
      (List.flatten [[.env .consumer, .act 0 (.markEvent "e"), .act 0 .commit],
        List.replicate 6 (.env .tick),
        [.env .purge, .env .consumer, .act 1 .purgeProcessedEvents, .act 0 .commit,
          .act 0 (.markEvent "e"), .act 0 .commit]]) (by decide +kernel)
  obtain ⟨_, _, hseen, _⟩ := marked_once h
  exact ⟨s, h, hconsumed, hmark, (hseen [] "e" hmark).resolve_left (by simp)⟩

end Inbox
end AudioEngine
