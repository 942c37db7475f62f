import AudioEngine.Pipeline.Data

/-!
# AudioEngine.Pipeline.Trace

What a step may record: database calls, the publishes of the copies it leaves in flight, the end of
`handle_parse` and the entry of `_notify`, each at its own program point.
-/

namespace AudioEngine
namespace Pipeline

open Relational Interleave

def Obs.isCall : Obs → Bool
  | .beginParse _ _ _ => true
  | .advanceStatus _ _ _ => true
  | .finalizeJob _ _ => true
  | .completeTask _ _ _ => true
  | .failTask _ _ _ => true
  | _ => false

/-- The points of `handle_parse` from which it returns. -/
def ParsePc.last : ParsePc → Prop
  | .publishStitch => True
  | .publishTts _ _ => True
  | _ => False

/-- The agent is about to return from `handle_parse` for `j`. -/
def Agent.finishesParse (j : String) (a : Agent) : Prop :=
  ∃ c pc, a = .copy c ∧ c.msg.body.jobId = j ∧ c.stage = .work (.parse pc) ∧ pc.last

/-- The agent is about to enter `_notify` for `j`. -/
def Agent.notifies (j : String) (a : Agent) : Prop :=
  ∃ c, a = .copy c ∧ c.msg.body.jobId = j ∧ c.stage = .work (.stitch .notify)

inductive Logs (a : Agent) (outs : List Agent) : Obs → Prop where
  | call {o : Obs} : o.isCall = true → Logs a outs o
  | published {c : Copy} : .copy c ∈ outs → c.stage = .ready →
      Logs a outs (.published c.queue c.msg.body)
  | parsed {j : String} : a.finishesParse j → Logs a outs (.parsed j)
  | notify {j : String} : a.notifies j → Logs a outs (.notify j)

/-- The stores a step of a handler leaves have recorded observations `L` on top of `sh`. -/
def Next.Records {P : Type} (sh : Shared) (L : Obs → Prop) : Next P → Prop
  | .goto sh' _ _ => ∃ os, sh'.trace = os ++ sh.trace ∧ ∀ o ∈ os, L o
  | .done sh' _ => ∃ os, sh'.trace = os ++ sh.trace ∧ ∀ o ∈ os, L o
  | .raise => True

section Handlers

variable (cfg : Settings) (sh : Shared) (e : Event)

theorem parse_records (pc : ParsePc) : (parseStep cfg sh e pc).Records sh
    fun o => o.isCall = true ∨ (pc.last ∧ o = .parsed e.jobId) := by
  cases pc <;> simp only [parseStep] <;> (repeat' split) <;>
    first
    | trivial
    | exact ⟨[], rfl, by simp⟩
    | exact ⟨[_], rfl, by simp [Obs.isCall, ParsePc.last]⟩

theorem tts_records (pc : TtsPc) : (ttsStep sh e pc).Records sh fun o => o.isCall = true := by
  cases pc <;> simp only [ttsStep] <;> (repeat' split) <;>
    first
    | trivial
    | exact ⟨[], rfl, by simp⟩
    | exact ⟨[_], rfl, by simp [Obs.isCall]⟩

theorem stitch_records (pc : StitchPc) : (stitchStep sh e pc).Records sh
    fun o => o.isCall = true ∨ (pc = .notify ∧ o = .notify e.jobId) := by
  cases pc with
  | getParts keys parts =>
    cases keys <;> simp only [stitchStep] <;> (repeat' split) <;>
      first
      | trivial
      | exact ⟨[], rfl, by simp⟩
  | _ =>
    simp only [stitchStep]
    (repeat' split) <;>
      first
      | trivial
      | exact ⟨[], rfl, by simp⟩
      | exact ⟨[_], rfl, by simp [Obs.isCall]⟩

theorem dlq_records (pc : DlqPc) : (dlqStep sh e pc).Records sh fun o => o.isCall = true := by
  cases pc <;> simp only [dlqStep] <;> (repeat' split) <;>
    first
    | trivial
    | exact ⟨[], rfl, by simp⟩
    | exact ⟨[_], rfl, by simp [Obs.isCall]⟩

end Handlers

section Step

variable {cfg : Settings} {sh sh' : Shared} {a : Agent} {i : Choice} {outs : List Agent}

theorem Next.Records.map {P Q : Type} {n : Next P} {L M : Obs → Prop} (f : P → Q)
    (h : n.Records sh L) (hL : ∀ o, L o → M o) : (n.map f).Records sh M := by
  cases n with
  | goto sh' pc pub =>
    obtain ⟨os, ht, hos⟩ := h
    exact ⟨os, ht, fun o ho => hL o (hos o ho)⟩
  | done sh' pub =>
    obtain ⟨os, ht, hos⟩ := h
    exact ⟨os, ht, fun o ho => hL o (hos o ho)⟩
  | raise => trivial

theorem work_records (cfg : Settings) (sh : Shared) (outs : List Agent) {c : Copy} {w : Work}
    (hst : c.stage = .work w) :
    (w.step cfg sh c.msg.body).Records sh (Logs (.copy c) outs) := by
  cases w with
  | parse pc =>
    refine (parse_records cfg sh c.msg.body pc).map Work.parse ?_
    rintro o (hc | ⟨hl, rfl⟩)
    · exact .call hc
    · exact .parsed ⟨c, pc, rfl, rfl, hst, hl⟩
  | tts pc => exact (tts_records sh c.msg.body pc).map Work.tts fun o hc => .call hc
  | stitch pc =>
    refine (stitch_records sh c.msg.body pc).map Work.stitch ?_
    rintro o (hc | ⟨rfl, rfl⟩)
    · exact .call hc
    · exact .notify ⟨c, rfl, rfl, hst⟩

/-- Publishing on top of what a handler has recorded. -/
theorem emit_trace {sh₀ : Shared} {pub : Option (Live × Event)} {b : Agent}
    (h : ∃ os, sh'.trace = os ++ sh.trace ∧ ∀ o ∈ os, Logs a (b :: (emit sh₀ pub).2) o) :
    ∃ os, (emit sh' pub).1.trace = os ++ sh.trace ∧
      ∀ o ∈ os, Logs a (b :: (emit sh₀ pub).2) o := by
  obtain ⟨os, ht, hos⟩ := h
  cases pub with
  | none => exact ⟨os, ht, hos⟩
  | some p =>
    refine ⟨.published (.live p.1) p.2 :: os, congrArg (List.cons _) ht, ?_⟩
    rw [List.forall_mem_cons]
    exact ⟨.published (c := { queue := .live p.1, msg := publishMessage p.2 }) (by simp [emit]) rfl,
      hos⟩

theorem moves_trace {c : Copy} (h : Moves cfg sh c i sh' outs) :
    ∃ os, sh'.trace = os ++ sh.trace ∧ ∀ o ∈ os, Logs (.copy c) outs o := by
  cases h with
  | @work w w' sh₁ pub hst hstep =>
    have hr := work_records cfg sh (.copy { c with stage := .work w' } :: (emit sh₁ pub).2) hst
    rw [hstep] at hr
    exact emit_trace hr
  | @returned w sh₁ pub hst hstep =>
    have hr := work_records cfg sh (.copy { c with stage := .acking } :: (emit sh₁ pub).2) hst
    rw [hstep] at hr
    exact emit_trace hr
  | @routed p q m hst hr =>
    refine ⟨[.published q m.body], rfl, ?_⟩
    rw [List.forall_mem_singleton]
    exact .published (c := { queue := q, msg := m }) (by simp) rfl
  | @dlq pc pc' sh₁ pub hst hstep =>
    have hr := dlq_records sh c.msg.body pc
    rw [hstep] at hr
    obtain ⟨os, ht, hos⟩ := hr
    exact emit_trace ⟨os, ht, fun o ho => .call (hos o ho)⟩
  | @dlqReturned pc sh₁ pub hst hstep =>
    have hr := dlq_records sh c.msg.body pc
    rw [hstep] at hr
    obtain ⟨os, ht, hos⟩ := hr
    exact emit_trace ⟨os, ht, fun o ho => .call (hos o ho)⟩
  | _ => exact ⟨[], rfl, by simp⟩

theorem act_trace (h : act cfg sh a i = some (sh', outs)) :
    ∃ os, sh'.trace = os ++ sh.trace ∧ ∀ o ∈ os, Logs a outs o := by
  rcases act_cases h with ⟨c, rfl, hm⟩ | hr
  · exact moves_trace hm
  · cases hr with
    | inserted _ => exact ⟨[], rfl, by simp⟩
    | @created j =>
      refine ⟨[_], rfl, ?_⟩
      rw [List.forall_mem_singleton]
      exact .published (c := { queue := .live .parse, msg := publishMessage (.jobCreated j) })
        mem_emit rfl
    | @swept j rest =>
      refine ⟨[_], rfl, ?_⟩
      rw [List.forall_mem_singleton]
      exact .published (c := { queue := .live .parse, msg := publishMessage (.jobCreated j) })
        (List.mem_cons_of_mem _ mem_emit) rfl
    | ended => exact ⟨[], rfl, by simp⟩

theorem env_trace {x : Env} (h : env sh x = some (sh', outs)) :
    ∃ os, sh'.trace = os ++ sh.trace ∧ ∀ o ∈ os, ∃ j m, o = .posted j m := by
  cases env_moves h with
  | posted _ => exact ⟨[_], rfl, by simp⟩
  | sweeping _ => exact ⟨[], rfl, by simp⟩
  | redis _ => exact ⟨[], rfl, by simp⟩

/-- A new observation of a step is one it may record. -/
theorem act_logs (h : act cfg sh a i = some (sh', outs)) {o : Obs} (ho : o ∈ sh'.trace) :
    o ∈ sh.trace ∨ Logs a outs o := by
  obtain ⟨os, ht, hos⟩ := act_trace h
  rw [ht, List.mem_append] at ho
  rcases ho with ho | ho
  · exact .inr (hos o ho)
  · exact .inl ho

theorem env_logs {x : Env} (h : env sh x = some (sh', outs)) {o : Obs} (ho : o ∈ sh'.trace) :
    o ∈ sh.trace ∨ ∃ j m, o = .posted j m := by
  obtain ⟨os, ht, hos⟩ := env_trace h
  rw [ht, List.mem_append] at ho
  rcases ho with ho | ho
  · exact .inr (hos o ho)
  · exact .inl ho

end Step

end Pipeline
end AudioEngine
