import AudioEngine.Pipeline.Data

/-!
# AudioEngine.Pipeline.Stages

A proof rule for assertions about messages: what is asserted of an event and of the point its
handler has reached.

A message at rest, a redelivery and a routed copy carry no more than the event itself, so such an
assertion is kept as soon as the steps of the handlers keep it and what they publish satisfies it.
-/

namespace AudioEngine
namespace Pipeline

open Relational Interleave

/-! ## What a step publishes -/

def Next.pub {P : Type} : Next P → Option (Live × Event)
  | .goto _ _ pub => pub
  | .done _ pub => pub
  | .raise => none

@[simp] theorem Next.pub_map {P Q : Type} (f : P → Q) (n : Next P) : (n.map f).pub = n.pub := by
  cases n <;> rfl

section Publish

variable {cfg : Settings} {sh : Shared} {e e' : Event} {l : Live}

theorem parse_pub_jobId {pc : ParsePc} (h : (parseStep cfg sh e pc).pub = some (l, e')) :
    e'.jobId = e.jobId := by
  cases pc with
  | publishStitch => cases h; rfl
  | publishTts n i =>
    simp only [parseStep] at h
    split at h
    · cases h; rfl
    · cases h; rfl
  | _ =>
    simp only [parseStep] at h
    (try split at h) <;> cases h

theorem tts_pub_jobId {pc : TtsPc} (h : (ttsStep sh e pc).pub = some (l, e')) :
    e'.jobId = e.jobId := by
  cases pc with
  | publish => cases h; rfl
  | _ =>
    simp only [ttsStep] at h
    (repeat' split at h) <;> cases h

theorem stitch_pub_none (pc : StitchPc) : (stitchStep sh e pc).pub = none := by
  cases pc with
  | getParts keys parts => cases keys <;> simp only [stitchStep] <;> (try split) <;> rfl
  | _ =>
    simp only [stitchStep]
    (repeat' split) <;> rfl

/-- A handler publishes for the job of its own message. -/
theorem work_pub_jobId {w : Work} (h : (w.step cfg sh e).pub = some (l, e')) :
    e'.jobId = e.jobId := by
  cases w with
  | parse pc => exact parse_pub_jobId ((Next.pub_map Work.parse _).symm.trans h)
  | tts pc => exact tts_pub_jobId ((Next.pub_map Work.tts _).symm.trans h)
  | stitch pc =>
    rw [Work.step, Next.pub_map, stitch_pub_none] at h
    cases h

theorem dlq_pub_jobId {pc : DlqPc} (h : (dlqStep sh e pc).pub = some (l, e')) :
    e'.jobId = e.jobId := by
  cases pc with
  | publish => cases h; rfl
  | _ =>
    simp only [dlqStep] at h
    (repeat' split at h) <;> cases h

end Publish

/-! ## What no step takes back -/

/-- The stores only move forward, and no object is deleted. -/
structure Onward (cfg : Settings) (sh sh' : Shared) : Prop extends Evolves cfg sh sh' where
  kept : ∀ k, (sh.objects k).isSome = true → (sh'.objects k).isSome = true

theorem putObject_isSome {sh : Shared} {k k' : String} (b : ByteArray)
    (h : (sh.objects k).isSome = true) : ((sh.putObject k' b).objects k).isSome = true := by
  by_cases hk : k = k'
  · rw [hk, putObject_self]
    rfl
  · rw [putObject_of_ne _ _ hk]
    exact h

theorem Effect.onward {cfg : Settings} {F : Licence} {sh sh' : Shared} (h : Effect cfg F sh sh')
    (hs : Sound cfg sh) : Onward cfg sh sh' where
  toEvolves := h.evolves hs
  kept := by
    intro k hk
    cases h with
    | stores h =>
      cases h with
      | note _ _ => exact hk
      | redis _ _ _ => exact hk
      | putAudio _ => exact putObject_isSome _ hk
      | putFinal _ _ => exact putObject_isSome _ hk
      | post _ m _ => exact putObject_isSome m.toUTF8 hk
    | _ => exact hk

/-! ## The rule -/

/-- Neither inside a handler nor inside the dead-letter consumer. -/
def Stage.atRest : Stage → Prop
  | .work _ => False
  | .dlq _ => False
  | _ => True

/-- Over the step from `sh₀`, which takes nothing back, the assertion `Q` holds at the point it goes
to and of the event it publishes. -/
def Next.Upholds {P : Type} (cfg : Settings) (sh₀ : Shared) (Q : Shared → Event → Stage → Prop)
    (e : Event) (f : P → Stage) : Next P → Prop
  | .goto sh pc pub => Onward cfg sh₀ (emit sh pub).1 →
    Q (emit sh pub).1 e (f pc) ∧ ∀ l e', pub = some (l, e') → Q (emit sh pub).1 e' .ready
  | .done sh pub => Onward cfg sh₀ (emit sh pub).1 →
    ∀ l e', pub = some (l, e') → Q (emit sh pub).1 e' .ready
  | .raise => True

/-- An assertion that the engine keeps. -/
structure Upheld (cfg : Settings) (Q : Shared → Event → Stage → Prop) : Prop where
  stable : ∀ {sh sh' : Shared} {e : Event} {st : Stage}, Onward cfg sh sh' → Q sh e st → Q sh' e st
  submitted : ∀ (sh : Shared) (j : String), Q sh (.jobCreated j) .ready
  rests : ∀ {sh : Shared} {e : Event} {st st' : Stage}, Q sh e st → st'.atRest → Q sh e st'
  starts : ∀ {sh : Shared} {e : Event}, Q sh e .ready → Q sh e (.work (.start (home e)))
  resolves : ∀ {sh : Shared} {e : Event}, Q sh e .ready → Q sh e (.dlq .resolve)
  works : ∀ {sh : Shared} {c : Copy} {w : Work}, Sound cfg sh → (Agent.copy c).Holds cfg sh →
    c.stage = .work w → Q sh c.msg.body (.work w) →
    (w.step cfg sh c.msg.body).Upholds cfg sh Q c.msg.body .work
  deadLetters : ∀ {sh : Shared} {c : Copy} {pc : DlqPc}, Sound cfg sh → (Agent.copy c).Holds cfg sh →
    c.stage = .dlq pc → Q sh c.msg.body (.dlq pc) →
    (dlqStep sh c.msg.body pc).Upholds cfg sh Q c.msg.body .dlq

/-- The assertion of an agent: requests and sweeps assert nothing. -/
def Agent.Asserts (Q : Shared → Event → Stage → Prop) (sh : Shared) : Agent → Prop
  | .copy c => Q sh c.msg.body c.stage
  | _ => True

section Rule

variable {cfg : Settings} {Q : Shared → Event → Stage → Prop} {sh sh' : Shared} {c : Copy}
  {i : Choice} {outs : List Agent}

theorem Next.Upholds.map {P R : Type} {e : Event} {f : P → R} {g : R → Stage} {n : Next P}
    (h : n.Upholds cfg sh Q e fun pc => g (f pc)) : (n.map f).Upholds cfg sh Q e g := by
  cases n <;> exact h

theorem asserts_emit {pub : Option (Live × Event)}
    (h : ∀ l e, pub = some (l, e) → Q (emit sh pub).1 e .ready) :
    ∀ b ∈ (emit sh pub).2, b.Asserts Q (emit sh pub).1 := by
  cases pub with
  | none => simp [emit]
  | some p =>
    intro b hb
    have hp := h p.1 p.2 rfl
    rw [emit, List.mem_singleton] at hb
    subst hb
    exact hp

theorem asserts_leave (hQ : Upheld cfg Q) {st : Stage} (h : Q sh c.msg.body st) (exc : Raised) :
    ∀ b ∈ c.leave exc, b.Asserts Q sh := by
  cases exc with
  | error p =>
    rw [Copy.leave, List.forall_mem_singleton]
    exact hQ.rests h trivial
  | cancelled => simp [Copy.leave]

theorem moves_asserts (hQ : Upheld cfg Q) (hs : Sound cfg sh) (hc : (Agent.copy c).Holds cfg sh)
    (h : Q sh c.msg.body c.stage) (hev : Onward cfg sh sh') (hm : Moves cfg sh c i sh' outs) :
    ∀ b ∈ outs, b.Asserts Q sh' := by
  have one : ∀ {b : Agent}, b.Asserts Q sh' → ∀ x ∈ [b], x.Asserts Q sh' :=
    fun hb => List.forall_mem_singleton.mpr hb
  cases hm with
  | deliver hst hq =>
    refine one ?_
    have hfit := hc.1
    rw [hq] at hfit
    rw [hfit.home_eq]
    exact hQ.starts (hst ▸ h)
  | due _ _ => exact one h
  | deliverDlq hst _ => exact one (hQ.resolves (hst ▸ h))
  | duplicate _ => exact List.forall_mem_cons.mpr ⟨h, one h⟩
  | @work w w' sh₁ pub hst hstep =>
    have hup := hQ.works hs hc hst (hst ▸ h)
    rw [hstep] at hup
    rw [List.forall_mem_cons]
    exact ⟨(hup hev).1, asserts_emit (hup hev).2⟩
  | @returned w sh₁ pub hst hstep =>
    have hup := hQ.works hs hc hst (hst ▸ h)
    rw [hstep] at hup
    rw [List.forall_mem_cons]
    exact ⟨hQ.rests (hQ.stable hev h) trivial, asserts_emit (hup hev)⟩
  | raised _ _ =>
    unfold Copy.raiseAt
    split
    · exact one (hQ.rests h trivial)
    · exact asserts_leave hQ h _
  | unwound _ _ => exact asserts_leave hQ (hQ.stable hev h) _
  | @routed p q m _ hr =>
    have hrest : ∀ st : Stage, st.atRest → Q (sh.log (.published q m.body)) c.msg.body st :=
      fun st hst => hQ.rests (hQ.stable hev h) hst
    refine List.forall_mem_cons.mpr ⟨hrest _ trivial, one ?_⟩
    show Q _ m.body .ready
    rw [(Copy.route_copy hr).1] at hrest ⊢
    exact hrest _ trivial
  | unrouted _ _ _ _ => simp
  | acked _ => simp
  | @dlq pc pc' sh₁ pub hst hstep =>
    have hup := hQ.deadLetters hs hc hst (hst ▸ h)
    rw [hstep] at hup
    rw [List.forall_mem_cons]
    exact ⟨(hup hev).1, asserts_emit (hup hev).2⟩
  | @dlqReturned pc sh₁ pub hst hstep =>
    have hup := hQ.deadLetters hs hc hst (hst ▸ h)
    rw [hstep] at hup
    rw [List.forall_mem_cons]
    exact ⟨hQ.rests (hQ.stable hev h) trivial, asserts_emit (hup hev)⟩
  | dlqAcked _ => simp
  | requeued _ => exact one (hQ.rests h trivial)

/-- The step lemma of the rule. -/
theorem act_asserts (hQ : Upheld cfg Q) {a : Agent} (hs : Sound cfg sh) (ha : a.Holds cfg sh)
    (h : a.Asserts Q sh) (hact : act cfg sh a i = some (sh', outs)) : ∀ b ∈ outs, b.Asserts Q sh' := by
  rcases act_cases hact with ⟨c, rfl, hm⟩ | hr
  · exact moves_asserts hQ hs ha h ((act_data hs ha hact).1.onward hs) hm
  · exact request_outs (fun _ _ _ => trivial) (fun _ => trivial) (fun j => hQ.submitted sh' j) hr

/-- The run lemma of the rule: the assertion holds of every message of every run. -/
theorem reach_asserts (hQ : Upheld cfg Q) {C : Shared → Agent → Choice → Prop} {s : State}
    (h : Reach (system cfg) C s) : ∀ a ∈ s.agents, a.Asserts Q s.shared := by
  refine (Reach.rely (G := fun _ => True) (A := fun sh a => a.Asserts Q sh) (R := Onward cfg) trivial
    (by simp [system]) ?_ ?_ ?_ h).2
  · intro s a i sh' outs hr ha _ _ hb hact
    obtain ⟨hs, hA⟩ := reach_data hr
    exact ⟨trivial, (act_data hs (hA a ha) hact).1.onward hs, act_asserts hQ hs (hA a ha) hb hact⟩
  · intro s x sh' outs hr _ henv
    have hs := (reach_data hr).1
    exact ⟨trivial, (env_data hs henv .none).1.onward hs,
      env_outs (fun _ _ _ => trivial) (fun _ => trivial) henv⟩
  · intro sh sh' b _ hev hb
    cases b with
    | copy c => exact hQ.stable hev hb
    | create j cb pc => trivial
    | sweep stale => trivial

end Rule

end Pipeline
end AudioEngine
