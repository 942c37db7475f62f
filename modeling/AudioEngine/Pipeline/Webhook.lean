import AudioEngine.Pipeline.Wins

/-!
# AudioEngine.Pipeline.Webhook

`_notify` is entered by the worker whose `finalize_job` won, once: the entries so far and the copies
about to enter together are at most the wins of `COMPLETED`.
-/

namespace AudioEngine
namespace Pipeline

open Relational Interleave

/-- Entries of `_notify` for `j`. -/
def notified (j : String) (sh : Shared) : Nat := sh.trace.countP fun o => decide (o = .notify j)

/-- The copy is about to enter `_notify` for `j`. -/
def notifying (j : String) : Agent → Nat
  | .copy c => if c.stage = .work (.stitch .notify) ∧ c.msg.body.jobId = j then 1 else 0
  | _ => 0

section Notify

variable {cfg : Settings} {sh sh' : Shared} {j : String} {e : Event}

theorem notified_log {o : Obs} (h : o ≠ .notify j) : notified j (sh.log o) = notified j sh :=
  List.countP_cons_of_neg (by simpa using h)

theorem notified_emit (j : String) (sh : Shared) (pub : Option (Live × Event)) :
    notified j (emit sh pub).1 = notified j sh := by
  cases pub with
  | none => rfl
  | some p => exact notified_log (by simp)

theorem wins_emit (j : String) (st : JobStatus) (sh : Shared) (pub : Option (Live × Event)) :
    (emit sh pub).1.trace.countP (wins j st) = sh.trace.countP (wins j st) := by
  cases pub with
  | none => rfl
  | some p => exact List.countP_cons_of_neg (by simp [wins])

theorem parse_notified (cfg : Settings) (sh : Shared) (e : Event) (j : String) (pc : ParsePc) :
    (parseStep cfg sh e pc).Leaves fun sh' => notified j sh' = notified j sh := by
  cases pc <;> simp only [parseStep] <;> (repeat' split) <;> trivial

theorem tts_notified (sh : Shared) (e : Event) (j : String) (pc : TtsPc) :
    (ttsStep sh e pc).Leaves fun sh' => notified j sh' = notified j sh := by
  cases pc <;> simp only [ttsStep] <;> (repeat' split) <;> trivial

theorem stitch_goto_notified {pc pc' : StitchPc} {pub : Option (Live × Event)}
    (h : stitchStep sh e pc = .goto sh' pc' pub) :
    notified j sh' = notified j sh ∧
      (pc' = .notify → e.jobId = j →
        sh.trace.countP (wins j .completed) < sh'.trace.countP (wins j .completed)) := by
  cases pc with
  | finalize =>
    simp only [stitchStep] at h
    split at h
    · rename_i hw
      cases h
      refine ⟨notified_log (by simp), ?_⟩
      rintro - rfl
      simp [Shared.log, wins, hw]
    · cases h
  | getParts keys parts =>
    cases keys with
    | nil => cases h; exact ⟨rfl, by simp⟩
    | cons key keys =>
      simp only [stitchStep] at h
      split at h
      · cases h
      · cases h; exact ⟨rfl, by simp⟩
  | advance keys => cases h; exact ⟨notified_log (by simp), by simp⟩
  | notify => cases h
  | _ =>
    simp only [stitchStep] at h
    (repeat' split at h) <;> cases h
    exact ⟨rfl, by simp⟩

theorem stitch_done_notified {pc : StitchPc} {pub : Option (Live × Event)}
    (h : stitchStep sh e pc = .done sh' pub) :
    notified j sh' ≤ notified j sh + if pc = .notify ∧ e.jobId = j then 1 else 0 := by
  cases pc with
  | notify =>
    cases h
    simp only [notified, Shared.log, List.countP_cons]
    by_cases hj : e.jobId = j <;> simp [hj]
  | finalize =>
    simp only [stitchStep] at h
    split at h
    · cases h
    · cases h; exact Nat.le_of_eq (notified_log (by simp))
  | getParts keys parts =>
    cases keys with
    | nil => cases h
    | cons key keys =>
      simp only [stitchStep] at h
      split at h <;> cases h
  | _ =>
    simp only [stitchStep] at h
    (repeat' split at h) <;> cases h <;> simp

/-- Going on keeps the entries and gets a token only by completing the job. -/
theorem work_goto_notified {w w' : Work} {pub : Option (Live × Event)} (j : String)
    (h : w.step cfg sh e = .goto sh' w' pub) :
    notified j sh' = notified j sh ∧
      (w' = .stitch .notify → e.jobId = j →
        sh.trace.countP (wins j .completed) < sh'.trace.countP (wins j .completed)) := by
  cases w with
  | parse pc =>
    obtain ⟨pc', hn, rfl⟩ := Next.map_eq_goto h
    have hl := parse_notified cfg sh e j pc
    rw [hn] at hl
    exact ⟨hl, by simp⟩
  | tts pc =>
    obtain ⟨pc', hn, rfl⟩ := Next.map_eq_goto h
    have hl := tts_notified sh e j pc
    rw [hn] at hl
    exact ⟨hl, by simp⟩
  | stitch pc =>
    obtain ⟨pc', hn, rfl⟩ := Next.map_eq_goto h
    obtain ⟨hk, hw⟩ := stitch_goto_notified (j := j) hn
    exact ⟨hk, fun he => hw (by simpa using he)⟩

/-- Returning enters `_notify` at most from its own point. -/
theorem work_done_notified {w : Work} {pub : Option (Live × Event)} (j : String)
    (h : w.step cfg sh e = .done sh' pub) :
    notified j sh' ≤ notified j sh + if w = .stitch .notify ∧ e.jobId = j then 1 else 0 := by
  cases w with
  | parse pc =>
    have hl := parse_notified cfg sh e j pc
    rw [Next.map_eq_done h] at hl
    exact Nat.le_trans (Nat.le_of_eq hl) (Nat.le_add_right _ _)
  | tts pc =>
    have hl := tts_notified sh e j pc
    rw [Next.map_eq_done h] at hl
    exact Nat.le_trans (Nat.le_of_eq hl) (Nat.le_add_right _ _)
  | stitch pc =>
    have := stitch_done_notified (j := j) (Next.map_eq_done h)
    simpa using this

theorem notifying_emit (j : String) (sh : Shared) (pub : Option (Live × Event)) :
    ((emit sh pub).2.map (notifying j)).sum = 0 := by
  cases pub with
  | none => rfl
  | some p => simp [emit, notifying]

theorem notifying_leave (j : String) (c : Copy) (exc : Raised) :
    ((c.leave exc).map (notifying j)).sum = 0 := by
  cases exc <;> simp [Copy.leave, notifying]

theorem notifying_raiseAt (j : String) (c : Copy) (w : Work) (exc : Raised) :
    ((c.raiseAt w exc).map (notifying j)).sum = 0 := by
  unfold Copy.raiseAt
  split
  · simp [notifying]
  · exact notifying_leave j c exc

theorem dlq_notified (sh : Shared) (e : Event) (j : String) (pc : DlqPc) :
    (dlqStep sh e pc).Leaves fun sh' => notified j sh' = notified j sh := by
  cases pc <;> simp only [dlqStep] <;> (repeat' split) <;> trivial

theorem moves_notified {c : Copy} {i : Choice} {outs : List Agent} (j : String)
    (hm : Moves cfg sh c i sh' outs)
    (hg : sh.trace.countP (wins j .completed) ≤ sh'.trace.countP (wins j .completed)) :
    (outs.map (notifying j)).sum + notified j sh' + sh.trace.countP (wins j .completed) ≤
      notifying j (.copy c) + notified j sh + sh'.trace.countP (wins j .completed) := by
  have quiet : (outs.map (notifying j)).sum = 0 → notified j sh' = notified j sh →
      (outs.map (notifying j)).sum + notified j sh' + sh.trace.countP (wins j .completed) ≤
        notifying j (.copy c) + notified j sh + sh'.trace.countP (wins j .completed) := by
    intro h0 hn
    omega
  cases hm with
  | @deliver l hst hq => exact quiet (by cases l <;> simp [notifying, Work.start]) rfl
  | due hst hq => exact quiet (by simp [notifying, hst]) rfl
  | deliverDlq hst hq => exact quiet (by simp [notifying]) rfl
  | duplicate hst => exact quiet (by simp [notifying, hst]) rfl
  | @work w w' sh₁ pub hst hstep =>
    obtain ⟨hn, hw⟩ := work_goto_notified j hstep
    have he := notifying_emit j sh₁ pub
    have hne := notified_emit j sh₁ pub
    have hwe := wins_emit j .completed sh₁ pub
    simp only [List.map_cons, List.sum_cons, notifying, Stage.work.injEq]
    split
    · rename_i hc
      have := hw hc.1 hc.2
      omega
    · omega
  | @returned w sh₁ pub hst hstep =>
    have hn := work_done_notified j hstep
    have he := notifying_emit j sh₁ pub
    have hne := notified_emit j sh₁ pub
    simp only [List.map_cons, List.sum_cons, notifying, hst, Stage.work.injEq, reduceCtorEq,
      false_and, if_false]
    omega
  | raised hst _ => exact quiet (notifying_raiseAt j c _ _) rfl
  | unwound hst _ => exact quiet (notifying_leave j c _) rfl
  | routed hst hr => exact quiet (by simp [notifying]) (notified_log (by simp))
  | unrouted hst _ _ _ => exact quiet rfl rfl
  | acked hst => exact quiet rfl rfl
  | @dlq pc pc' sh₁ pub hst hstep =>
    have hl := dlq_notified sh c.msg.body j pc
    rw [hstep] at hl
    refine quiet ?_ ((notified_emit j sh₁ pub).trans hl)
    simp [notifying, notifying_emit]
  | @dlqReturned pc sh₁ pub hst hstep =>
    have hl := dlq_notified sh c.msg.body j pc
    rw [hstep] at hl
    refine quiet ?_ ((notified_emit j sh₁ pub).trans hl)
    simp [notifying, notifying_emit]
  | dlqAcked hst => exact quiet rfl rfl
  | requeued hst => exact quiet (by simp [notifying]) rfl

theorem act_notified {a : Agent} {i : Choice} {outs : List Agent} (j : String)
    (h : act cfg sh a i = some (sh', outs))
    (hg : sh.trace.countP (wins j .completed) ≤ sh'.trace.countP (wins j .completed)) :
    (outs.map (notifying j)).sum + notified j sh' + sh.trace.countP (wins j .completed) ≤
      notifying j a + notified j sh + sh'.trace.countP (wins j .completed) := by
  have quiet : (outs.map (notifying j)).sum = 0 → notified j sh' = notified j sh →
      (outs.map (notifying j)).sum + notified j sh' + sh.trace.countP (wins j .completed) ≤
        notifying j a + notified j sh + sh'.trace.countP (wins j .completed) := by
    intro h0 hn
    omega
  rcases act_cases h with ⟨c, rfl, hm⟩ | hr
  · exact moves_notified j hm hg
  · cases hr with
    | inserted _ => exact quiet (by simp [notifying]) rfl
    | created => exact quiet (notifying_emit j sh _) (notified_emit j sh _)
    | swept => exact quiet (by simp [notifying, notifying_emit]) (notified_emit j sh _)
    | ended => exact quiet rfl rfl

theorem env_notified {x : Env} {outs : List Agent} (j : String) (h : env sh x = some (sh', outs)) :
    (outs.map (notifying j)).sum = 0 ∧ notified j sh' = notified j sh := by
  cases env_moves h with
  | posted _ => exact ⟨by simp [notifying], notified_log (by simp)⟩
  | sweeping _ => exact ⟨by simp [notifying], rfl⟩
  | redis _ => exact ⟨rfl, rfl⟩

end Notify

end Pipeline
end AudioEngine
