import AudioEngine.Pipeline.Data

/-!
# AudioEngine.Pipeline.Lock

The content cache and the in-flight lock of one hash, step by step.

`Role` says where an agent stands with the lock of the hash `h`: outside, before its vendor call,
between the call and the cache entry, or about to drop the lock. `Handles` is everything a step of
any agent can do to the two Redis keys of `h` and to its own role: the lock is won by the `SET NX`,
the vendor is called in front of the object write, the entry is made by `cache_set`, and the lock is
dropped by the `finally`, whoever holds it by then.
-/

namespace AudioEngine
namespace Pipeline

open Relational Interleave

inductive Role where
  | outside
  | before
  | between
  | leaving
deriving DecidableEq, Repr

/-- The role `r`, if the text has the hash `h`. -/
def roleOn (h text : String) (r : Role) : Role := if contentHash text = h then r else .outside

def TtsPc.role (h : String) : TtsPc → Role
  | .enterSlot text => roleOn h text .before
  | .putAudio text => roleOn h text .before
  | .leaveSlot text => roleOn h text .between
  | .cacheSet text => roleOn h text .between
  | .releaseInflight text => roleOn h text .leaving
  | _ => .outside

def Stage.role (h : String) : Stage → Role
  | .work (.tts pc) => pc.role h
  | .unwind text _ => roleOn h text .leaving
  | _ => .outside

def Agent.role (h : String) : Agent → Role
  | .copy c => c.stage.role h
  | _ => .outside

/-- The step calls `tts_fake_audio` on a text with the hash `h`. -/
def Agent.calls (h : String) (a : Agent) (i : Choice) : Bool :=
  match a, i with
  | .copy c, .go =>
    match c.stage with
    | .work (.tts (.putAudio text)) => decide (contentHash text = h)
    | _ => false
  | _, _ => false

/-- The step neither touches the keys of `h` nor calls the vendor. -/
structure Still (h : String) (sh : Shared) (a : Agent) (i : Choice) (sh' : Shared) : Prop where
  cache : sh'.cache h = sh.cache h
  inflight : sh'.inflight h = sh.inflight h
  calls : a.calls h i = false

/-- The agent goes on as `b`; what else it leaves has nothing to do with `h`. -/
def GoesOn (h : String) (outs : List Agent) (r : Role) : Prop :=
  ∃ b rest, outs = b :: rest ∧ b.role h = r ∧ ∀ x ∈ rest, x.role h = .outside

/-- What a step does to the cache entry and the lock of `h`. -/
inductive Handles (h : String) (sh : Shared) (a : Agent) (i : Choice) (sh' : Shared)
    (outs : List Agent) : Prop where
  | apart : Still h sh a i sh' → (∀ b ∈ outs, b.role h = .outside) → Handles h sh a i sh' outs
  | onwards : Still h sh a i sh' → GoesOn h outs (a.role h) → Handles h sh a i sh' outs
  /-- an exception in the `try`: on to the `finally` -/
  | interrupted : Still h sh a i sh' → i ≠ .go → a.role h = .before ∨ a.role h = .between →
      GoesOn h outs .leaving → Handles h sh a i sh' outs
  | wins {c : Copy} {text : String} : a = .copy c →
      c.stage = .work (.tts (.acquireInflight text)) → contentHash text = h → i = .go →
      sh.inflight h = none → sh'.inflight h ≠ none → sh'.cache h = sh.cache h →
      GoesOn h outs .before → Handles h sh a i sh' outs
  | calls : a.calls h i = true → a.role h = .before → sh'.cache h = sh.cache h →
      sh'.inflight h = sh.inflight h → GoesOn h outs .between → Handles h sh a i sh' outs
  | fills {c : Copy} {text : String} : a = .copy c → c.stage = .work (.tts (.cacheSet text)) →
      contentHash text = h → a.calls h i = false → sh'.cache h ≠ none →
      sh'.inflight h = sh.inflight h → GoesOn h outs .leaving → Handles h sh a i sh' outs
  | drops : a.role h = .leaving → a.calls h i = false → sh'.cache h = sh.cache h →
      sh'.inflight h = none → (∀ b ∈ outs, b.role h = .outside) → Handles h sh a i sh' outs

section Roles

variable {h text : String}

theorem roleOn_self (r : Role) : roleOn (contentHash text) text r = r := if_pos rfl

theorem roleOn_ne {r : Role} (hne : h ≠ contentHash text) : roleOn h text r = .outside :=
  if_neg (Ne.symm hne)

theorem role_emit (h : String) (sh : Shared) (pub : Option (Live × Event)) :
    ∀ b ∈ (emit sh pub).2, b.role h = .outside := by
  cases pub with
  | none => simp [emit]
  | some p =>
    simp only [emit]
    rw [List.forall_mem_singleton]
    rfl

theorem role_leave (h : String) (c : Copy) (exc : Raised) :
    ∀ b ∈ c.leave exc, b.role h = .outside := by
  cases exc with
  | error p =>
    simp only [Copy.leave]
    rw [List.forall_mem_singleton]
    rfl
  | cancelled => simp [Copy.leave]

/-- A handler other than `handle_tts` leaves Redis alone. -/
theorem parse_redis (cfg : Settings) (sh : Shared) (e : Event) (pc : ParsePc) :
    (parseStep cfg sh e pc).Leaves fun sh' => sh'.cache = sh.cache ∧ sh'.inflight = sh.inflight := by
  cases pc <;> simp only [parseStep] <;> (repeat' split) <;> trivial

theorem dlq_redis (sh : Shared) (e : Event) (pc : DlqPc) :
    (dlqStep sh e pc).Leaves fun sh' => sh'.cache = sh.cache ∧ sh'.inflight = sh.inflight := by
  cases pc <;> simp only [dlqStep] <;> (repeat' split) <;> trivial

theorem stitch_redis (sh : Shared) (e : Event) (pc : StitchPc) :
    (stitchStep sh e pc).Leaves fun sh' => sh'.cache = sh.cache ∧ sh'.inflight = sh.inflight := by
  cases pc with
  | getParts keys parts =>
    cases keys <;> simp only [stitchStep] <;> (repeat' split) <;> trivial
  | _ =>
    simp only [stitchStep]
    (repeat' split) <;> trivial

theorem redis_emit (sh : Shared) (pub : Option (Live × Event)) :
    (emit sh pub).1.cache = sh.cache ∧ (emit sh pub).1.inflight = sh.inflight := by
  cases pub <;> exact ⟨rfl, rfl⟩

end Roles

/-! ## The steps of `handle_tts` -/

section Tts

variable {h : String} {sh sh' : Shared} {c : Copy} {e : Event}

/-- A step that leaves Redis alone, by an agent that is outside afterwards. -/
theorem Handles.away {st : Stage} (pub : Option (Live × Event))
    (hredis : sh'.cache = sh.cache ∧ sh'.inflight = sh.inflight)
    (hcalls : (Agent.copy c).calls h .go = false) (hrole : st.role h = .outside) :
    Handles h sh (.copy c) .go (emit sh' pub).1
      (.copy { c with stage := st } :: (emit sh' pub).2) := by
  obtain ⟨hcache, hinflight⟩ := redis_emit sh' pub
  refine .apart ⟨?_, ?_, hcalls⟩ ?_
  · rw [hcache, hredis.1]
  · rw [hinflight, hredis.2]
  · rw [List.forall_mem_cons]
    exact ⟨hrole, role_emit h sh' pub⟩

/-- A step on another hash. -/
theorem Handles.elsewhere {st : Stage} (hcache : sh'.cache h = sh.cache h)
    (hinflight : sh'.inflight h = sh.inflight h) (hcalls : (Agent.copy c).calls h .go = false)
    (hrole : st.role h = .outside) :
    Handles h sh (.copy c) .go sh' [.copy { c with stage := st }] := by
  refine .apart ⟨hcache, hinflight, hcalls⟩ ?_
  rw [List.forall_mem_singleton]
  exact hrole

theorem tts_handles {pc pc' : TtsPc} {pub : Option (Live × Event)} (h : String)
    (hst : c.stage = .work (.tts pc)) (hs : ttsStep sh e pc = .goto sh' pc' pub) :
    Handles h sh (.copy c) .go (emit sh' pub).1
      (.copy { c with stage := .work (.tts pc') } :: (emit sh' pub).2) := by
  have single : ∀ st, st.role h = (Agent.copy c).role h →
      GoesOn h [.copy { c with stage := st }] ((Agent.copy c).role h) :=
    fun st hrole => ⟨_, [], rfl, hrole, by simp⟩
  cases pc with
  | acquireInflight text =>
    simp only [ttsStep] at hs
    split at hs
    · cases hs
      exact .away none ⟨rfl, rfl⟩ (by simp [Agent.calls, hst]) rfl
    · rename_i hfree
      cases hs
      by_cases hh : h = contentHash text
      · subst hh
        refine .wins rfl hst rfl rfl hfree ?_ rfl ⟨_, [], rfl, roleOn_self _, by simp⟩
        simp [emit]
      · refine .elsewhere rfl ?_ (by simp [Agent.calls, hst]) (roleOn_ne hh)
        exact Function.update_of_ne hh _ _
  | enterSlot text =>
    cases hs
    refine .onwards ⟨rfl, rfl, by simp [Agent.calls, hst]⟩ (single _ ?_)
    rw [Agent.role, hst]; rfl
  | putAudio text =>
    cases hs
    by_cases hh : h = contentHash text
    · subst hh
      refine .calls (by simp [Agent.calls, hst]) ?_ rfl rfl ⟨_, [], rfl, roleOn_self _, by simp⟩
      rw [Agent.role, hst]; exact roleOn_self _
    · exact .elsewhere rfl rfl (by simp [Agent.calls, hst, Ne.symm hh]) (roleOn_ne hh)
  | leaveSlot text =>
    cases hs
    refine .onwards ⟨rfl, rfl, by simp [Agent.calls, hst]⟩ (single _ ?_)
    rw [Agent.role, hst]; rfl
  | cacheSet text =>
    cases hs
    by_cases hh : h = contentHash text
    · subst hh
      refine .fills rfl hst rfl (by simp [Agent.calls, hst]) ?_ rfl
        ⟨_, [], rfl, roleOn_self _, by simp⟩
      simp [emit]
    · refine .elsewhere ?_ rfl (by simp [Agent.calls, hst]) (roleOn_ne hh)
      exact Function.update_of_ne hh _ _
  | releaseInflight text =>
    cases hs
    by_cases hh : h = contentHash text
    · subst hh
      refine .drops ?_ (by simp [Agent.calls, hst]) rfl (Function.update_self ..) ?_
      · rw [Agent.role, hst]; exact roleOn_self _
      · simp only [emit]
        rw [List.forall_mem_singleton]
        rfl
    · refine .elsewhere rfl ?_ (by simp [Agent.calls, hst]) rfl
      exact Function.update_of_ne hh _ _
  | complete key =>
    simp only [ttsStep] at hs
    (repeat' split at hs) <;> cases hs <;>
      exact .away none ⟨rfl, rfl⟩ (by simp [Agent.calls, hst]) rfl
  | _ =>
    simp only [ttsStep] at hs
    (repeat' split at hs) <;> cases hs <;>
      exact .away none ⟨rfl, rfl⟩ (by simp [Agent.calls, hst]) rfl

theorem tts_handles_done {pc : TtsPc} {pub : Option (Live × Event)} (h : String)
    (hst : c.stage = .work (.tts pc)) (hs : ttsStep sh e pc = .done sh' pub) :
    Handles h sh (.copy c) .go (emit sh' pub).1
      (.copy { c with stage := .acking } :: (emit sh' pub).2) := by
  cases pc with
  | putAudio text => cases hs
  | _ =>
    simp only [ttsStep] at hs
    (repeat' split at hs) <;> cases hs <;>
      exact .away _ ⟨rfl, rfl⟩ (by simp [Agent.calls, hst]) rfl

end Tts

/-! ## Every step -/

section Step

variable {cfg : Settings} {h : String} {sh sh' : Shared} {c : Copy} {i : Choice}
  {outs : List Agent}

theorem calls_elim (hc : (Agent.copy c).calls h i = true) :
    ∃ text, c.stage = .work (.tts (.putAudio text)) ∧ i = .go ∧ contentHash text = h := by
  simp only [Agent.calls] at hc
  split at hc
  · rename_i heq
    cases heq
    split at hc
    · rename_i text hst
      exact ⟨text, hst, rfl, of_decide_eq_true hc⟩
    · cases hc
  · cases hc

/-- A step without effect on Redis that leaves only agents outside. -/
theorem Handles.quiet {a : Agent} (hredis : sh'.cache = sh.cache ∧ sh'.inflight = sh.inflight)
    (hcalls : a.calls h i = false) (houts : ∀ b ∈ outs, b.role h = .outside) :
    Handles h sh a i sh' outs :=
  .apart ⟨by rw [hredis.1], by rw [hredis.2], hcalls⟩ houts

/-- Inside the `try` of `_synthesize` no step raises by itself. -/
theorem raise_outside {w : Work} {exc : Raised} {text : String} (hst : c.stage = .work w)
    (htext : w.holdsInflight = some text) (ha : c.act cfg sh i = some (sh, c.raiseAt w exc)) :
    i ≠ .go := by
  rintro rfl
  simp only [Copy.raiseAt, htext] at ha
  cases w with
  | tts pc =>
    cases pc with
    | enterSlot text' => simp [Copy.act, hst, Work.step, ttsStep, Next.map, emit] at ha
    | putAudio text' => simp [Copy.act, hst, Work.step, ttsStep, Next.map, emit] at ha
    | leaveSlot text' => simp [Copy.act, hst, Work.step, ttsStep, Next.map, emit] at ha
    | cacheSet text' => simp [Copy.act, hst, Work.step, ttsStep, Next.map, emit] at ha
    | _ => cases htext
  | parse pc => cases htext
  | stitch pc => cases htext

/-- An exception at a point of `do_work`. -/
theorem raiseAt_handles {w : Work} {exc : Raised} (hst : c.stage = .work w)
    (hcalls : (Agent.copy c).calls h i = false)
    (ha : c.act cfg sh i = some (sh, c.raiseAt w exc)) :
    Handles h sh (.copy c) i sh (c.raiseAt w exc) := by
  cases htext : w.holdsInflight with
  | some text =>
    have hgo := raise_outside hst htext ha
    simp only [Copy.raiseAt, htext]
    by_cases hh : h = contentHash text
    · subst hh
      refine .interrupted ⟨rfl, rfl, hcalls⟩ hgo ?_ ⟨_, [], rfl, roleOn_self _, by simp⟩
      rw [Agent.role, hst]
      cases w with
      | tts pc =>
        cases pc with
        | enterSlot text' => cases htext; exact .inl (roleOn_self _)
        | putAudio text' => cases htext; exact .inl (roleOn_self _)
        | leaveSlot text' => cases htext; exact .inr (roleOn_self _)
        | cacheSet text' => cases htext; exact .inr (roleOn_self _)
        | _ => cases htext
      | parse pc => cases htext
      | stitch pc => cases htext
    · refine .quiet ⟨rfl, rfl⟩ hcalls ?_
      rw [List.forall_mem_singleton]
      exact roleOn_ne hh
  | none =>
    simp only [Copy.raiseAt, htext]
    exact .quiet ⟨rfl, rfl⟩ hcalls (role_leave h c exc)

/-- The `finally` of `_synthesize`, with an exception pending. -/
theorem unwind_handles {text : String} {exc : Raised} (h : String)
    (hst : c.stage = .unwind text exc) (ha : c.act cfg sh i = some (sh', outs)) :
    Handles h sh (.copy c) i sh' outs := by
  have hcalls : (Agent.copy c).calls h i = false := by
    by_contra hc
    obtain ⟨_, hst', _⟩ := calls_elim (Bool.not_eq_false _ ▸ hc)
    rw [hst] at hst'
    cases hst'
  simp only [Copy.act, hst] at ha
  cases i with
  | go =>
    cases ha
    by_cases hh : h = contentHash text
    · subst hh
      refine .drops ?_ hcalls rfl (Function.update_self ..) (role_leave _ c exc)
      rw [Agent.role, hst]; exact roleOn_self _
    · exact .apart ⟨rfl, Function.update_of_ne hh _ _, hcalls⟩ (role_leave h c exc)
  | fail p => cases ha; exact .quiet ⟨rfl, rfl⟩ hcalls (role_leave h c _)
  | cancel => cases ha; exact .quiet ⟨rfl, rfl⟩ hcalls (by simp)
  | crash =>
    cases ha
    refine .quiet ⟨rfl, rfl⟩ hcalls ?_
    rw [List.forall_mem_singleton]
    rfl
  | duplicate => cases ha

theorem work_handles {w w' : Work} {pub : Option (Live × Event)} (h : String)
    (hst : c.stage = .work w) (hs : w.step cfg sh c.msg.body = .goto sh' w' pub) :
    Handles h sh (.copy c) .go (emit sh' pub).1
      (.copy { c with stage := .work w' } :: (emit sh' pub).2) := by
  cases w with
  | tts pc =>
    obtain ⟨pc', hn, rfl⟩ := Next.map_eq_goto hs
    exact tts_handles h hst hn
  | parse pc =>
    obtain ⟨pc', hn, rfl⟩ := Next.map_eq_goto hs
    have hl := parse_redis cfg sh c.msg.body pc
    rw [hn] at hl
    exact .away pub hl (by simp [Agent.calls, hst]) rfl
  | stitch pc =>
    obtain ⟨pc', hn, rfl⟩ := Next.map_eq_goto hs
    have hl := stitch_redis sh c.msg.body pc
    rw [hn] at hl
    exact .away pub hl (by simp [Agent.calls, hst]) rfl

theorem work_handles_done {w : Work} {pub : Option (Live × Event)} (h : String)
    (hst : c.stage = .work w) (hs : w.step cfg sh c.msg.body = .done sh' pub) :
    Handles h sh (.copy c) .go (emit sh' pub).1
      (.copy { c with stage := .acking } :: (emit sh' pub).2) := by
  cases w with
  | tts pc => exact tts_handles_done h hst (Next.map_eq_done hs)
  | parse pc =>
    have hl := parse_redis cfg sh c.msg.body pc
    rw [Next.map_eq_done hs] at hl
    exact .away pub hl (by simp [Agent.calls, hst]) rfl
  | stitch pc =>
    have hl := stitch_redis sh c.msg.body pc
    rw [Next.map_eq_done hs] at hl
    exact .away pub hl (by simp [Agent.calls, hst]) rfl

theorem copy_handles (h : String) (ha : c.act cfg sh i = some (sh', outs)) :
    Handles h sh (.copy c) i sh' outs := by
  by_cases hc : (Agent.copy c).calls h i = true
  · obtain ⟨text, hst, rfl, hh⟩ := calls_elim hc
    simp only [Copy.act, hst, Work.step, ttsStep, Next.map] at ha
    cases ha
    exact tts_handles (e := c.msg.body) h hst rfl
  have hcalls : (Agent.copy c).calls h i = false := Bool.eq_false_iff.mpr hc
  have one : ∀ {b : Agent}, b.role h = .outside → ∀ x ∈ [b], x.role h = .outside :=
    fun hb => List.forall_mem_singleton.mpr hb
  cases act_moves ha with
  | @deliver l hst hq => exact .quiet ⟨rfl, rfl⟩ hcalls (one (by cases l <;> rfl))
  | due hst hq => exact .quiet ⟨rfl, rfl⟩ hcalls (one (by rw [Agent.role, hst]; rfl))
  | deliverDlq hst hq => exact .quiet ⟨rfl, rfl⟩ hcalls (one rfl)
  | duplicate hst =>
    have hr : (Agent.copy c).role h = .outside := by rw [Agent.role, hst]; rfl
    exact .quiet ⟨rfl, rfl⟩ hcalls (List.forall_mem_cons.mpr ⟨hr, one hr⟩)
  | work hst hs => exact work_handles h hst hs
  | returned hst hs => exact work_handles_done h hst hs
  | raised hst _ => exact raiseAt_handles hst hcalls ha
  | unwound hst _ => exact unwind_handles h hst ha
  | routed hst hr =>
    exact .quiet ⟨rfl, rfl⟩ hcalls (List.forall_mem_cons.mpr ⟨rfl, one rfl⟩)
  | unrouted hst _ _ _ => exact .quiet ⟨rfl, rfl⟩ hcalls (by simp)
  | acked hst => exact .quiet ⟨rfl, rfl⟩ hcalls (by simp)
  | @dlq pc pc' sh₁ pub hst hs =>
    have hl := dlq_redis sh c.msg.body pc
    rw [hs] at hl
    exact .away pub hl hcalls rfl
  | @dlqReturned pc sh₁ pub hst hs =>
    have hl := dlq_redis sh c.msg.body pc
    rw [hs] at hl
    exact .away pub hl hcalls rfl
  | dlqAcked hst => exact .quiet ⟨rfl, rfl⟩ hcalls (by simp)
  | requeued hst => exact .quiet ⟨rfl, rfl⟩ hcalls (one rfl)

theorem act_handles {a : Agent} (h : String) (ha : act cfg sh a i = some (sh', outs)) :
    Handles h sh a i sh' outs := by
  cases a with
  | copy c => exact copy_handles h ha
  | create j cb pc =>
    rcases act_cases ha with ⟨c, hc, _⟩ | hr
    · cases hc
    · refine .quiet ?_ rfl (request_outs (fun _ _ _ => rfl) (fun _ => rfl) (fun _ => rfl) hr)
      cases hr <;> exact ⟨rfl, rfl⟩
  | sweep stale =>
    rcases act_cases ha with ⟨c, hc, _⟩ | hr
    · cases hc
    · refine .quiet ?_ rfl (request_outs (fun _ _ _ => rfl) (fun _ => rfl) (fun _ => rfl) hr)
      cases hr <;> exact ⟨rfl, rfl⟩

end Step

end Pipeline
end AudioEngine
