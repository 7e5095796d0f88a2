import PurpleWolf.Relay.Conservation

/-! # Completion of finite sources

When every source ends of itself, the parser drains the channel, drops the senders of the
subscribers, and the sinks drain their queues.  A run that has returned has then returned
`Ok`, with every accepted envelope delivered or dead-lettered, provided that the supervisor
joins no sink before the parser task has finished (`finite_run_completes`).

The condition is needed: a sink can see its channel closed, return and be joined while the
parser is still on its way out, which the supervisor takes for a failure of the sink
(`sink_mistaken_for_failed`). -/

namespace PurpleWolf.Relay

/-- The parser, if it has left its loop, has done so because the sources were closed. -/
def ParserPhase.Exhausts : ParserPhase → Prop
  | .dropping exit _ => exit = .sourcesClosed
  | .returned exit => exit = .sourcesClosed
  | .cancelled => False
  | _ => True

namespace Subscriber

/-- A sink that is through has left nothing in its queue. -/
structure RunsDry (sub : Subscriber) : Prop where
  returned : sub.stage ≠ .running → sub.receiverDropped = true
  emptied : sub.receiverDropped = true → sub.queue = []

namespace RunsDry

variable {sub sub' : Subscriber}

theorem new (c : SubscriberConfig) (subscriberQueue : ℕ) : RunsDry (Subscriber.new c subscriberQueue) where
  returned h := absurd rfl h
  emptied _ := rfl

theorem offer (h : RunsDry sub) (env : SharedEnvelope) : RunsDry (sub.offer env) := by
  constructor
  · rw [offer_stage, offer_receiverDropped]
    exact h.returned
  · rw [offer_receiverDropped]
    intro hdropped
    rw [offer_queue_dropped hdropped]
    exact h.emptied hdropped

theorem step (h : RunsDry sub) {view : SinkView} {a : SinkAction} (hshutdown : view.shutdown = false)
    (haborted : view.aborted = false) (hstep : sub.step view a = some sub') : RunsDry sub' := by
  constructor
  · intro hstage
    obtain hsame | ⟨-, hdropped⟩ := step_stage hstep
    · rw [hsame] at hstage
      exact (step_dropped hstep (h.returned hstage)).1
    · exact hdropped
  · intro hdropped
    obtain ⟨hold | ⟨-, hempty⟩, hqueue⟩ := step_returns hshutdown haborted hstep hdropped
    · rw [hqueue]
      exact h.emptied hold
    · rw [hqueue]
      exact hempty

theorem join (h : RunsDry sub) (hstage : sub.stage = .finished) : RunsDry { sub with stage := .joined } where
  returned _ := h.returned (by rw [hstage]; decide)
  emptied := h.emptied

end RunsDry

end Subscriber

namespace Runtime

/-! ### The runs -/

/-- No shutdown is signalled, and the sources that have ended have ended with `Ok`. -/
def Uneventful (s : Runtime) : RuntimeAction → Prop
  | .signal => False
  | .supervisor (.joinSource i) => ∀ task, s.sources[i]? = some task → task.source.result = some true
  | _ => True

instance (s : Runtime) : DecidablePred (Uneventful s)
  | .signal => isFalse id
  | .source _ _ => isTrue trivial
  | .parser _ => isTrue trivial
  | .sink _ _ => isTrue trivial
  | .supervisor (.joinSource i) =>
      inferInstanceAs (Decidable (∀ task ∈ s.sources[i]?, task.source.result = some true))
  | .supervisor .shutdown => isTrue trivial
  | .supervisor (.joinSink _) => isTrue trivial
  | .supervisor .joinParser => isTrue trivial
  | .supervisor .drained => isTrue trivial
  | .supervisor .timeout => isTrue trivial

/-- The supervisor joins no sink before the parser task has finished, and the limit on
draining the sources does not run out. -/
def SinksLast (s : Runtime) : RuntimeAction → Prop
  | .supervisor (.joinSink _) => s.supervisor.phase = .supervising → s.parserStage ≠ .running
  | .supervisor .timeout => s.supervisor.phase ≠ .drainingSources
  | _ => True

instance (s : Runtime) : DecidablePred (SinksLast s)
  | .signal => isTrue trivial
  | .source _ _ => isTrue trivial
  | .parser _ => isTrue trivial
  | .sink _ _ => isTrue trivial
  | .supervisor (.joinSink _) =>
      inferInstanceAs (Decidable (s.supervisor.phase = .supervising → s.parserStage ≠ .running))
  | .supervisor .timeout => inferInstanceAs (Decidable (s.supervisor.phase ≠ .drainingSources))
  | .supervisor .shutdown => isTrue trivial
  | .supervisor (.joinSource _) => isTrue trivial
  | .supervisor .joinParser => isTrue trivial
  | .supervisor .drained => isTrue trivial

/-! ### The invariant -/

/-- Nothing has been shut down or aborted. -/
structure Calm (s : Runtime) : Prop where
  shutdown : s.shutdown = false
  abortSinks : s.abortSinks = false
  abortParser : s.abortParser = false

/-- **The supervisor is on course**: it supervises, or the parser has come to its end and it
drains. -/
structure OnCourse (s : Runtime) : Prop where
  calm : Calm s
  exhausts : s.parser.Exhausts
  finished : s.parserStage ≠ .running → s.parser = .returned .sourcesClosed
  outcome : s.supervisor.outcome = .ok ()
  noError : s.supervisor.sourceError = false
  phase : s.supervisor.phase = .supervising ∨
    (s.supervisor.phase = .drainingSources ∨ s.supervisor.phase = .drainingSinks ∨ s.supervisor.phase = .returned) ∧
      s.supervisor.parserFinished = true ∧ s.supervisor.sourcesExhausted = true
  drained : s.supervisor.phase = .returned → ∀ (j : ℕ) sub, s.subs[j]? = some sub → sub.stage ≠ .running

namespace OnCourse

variable {setup : ParserSetup} {s t : Runtime}

theorem start (sources : List Source) (subscribers : List SubscriberConfig) (subscriberQueue : ℕ) :
    OnCourse (Runtime.start sources subscribers subscriberQueue) where
  calm := ⟨rfl, rfl, rfl⟩
  exhausts := trivial
  finished h := absurd rfl h
  outcome := rfl
  noError := rfl
  phase := Or.inl rfl
  drained h := by cases h

theorem stage_step {a : RuntimeAction} (hstep : s.step setup a = some t)
    (h : ∀ (j : ℕ) sub, s.subs[j]? = some sub → sub.stage ≠ .running) :
    ∀ (j : ℕ) sub, t.subs[j]? = some sub → sub.stage ≠ .running := by
  intro j x hx
  obtain ⟨sub, hsub, rfl | ⟨env, rfl⟩ | ⟨b, hsink⟩ | ⟨hstage, rfl⟩⟩ := step_sub hstep hx
  · exact h j x hsub
  · rw [Subscriber.offer_stage]
    exact h j sub hsub
  · obtain hsame | ⟨hfinished, -⟩ := Subscriber.step_stage hsink
    · rw [hsame]
      exact h j sub hsub
    · rw [hfinished]
      decide
  · simp only
    decide

/-- A step that leaves the parser, the flags and the supervisor alone. -/
theorem frame (h : OnCourse s) {a : RuntimeAction} (hstep : s.step setup a = some t)
    (hshutdown : t.shutdown = s.shutdown)
    (hsinks : t.abortSinks = s.abortSinks) (habort : t.abortParser = s.abortParser) (hparser : t.parser = s.parser)
    (hstage : t.parserStage = s.parserStage) (hsupervisor : t.supervisor = s.supervisor) : OnCourse t := by
  refine ⟨⟨?_, ?_, ?_⟩, ?_, ?_, ?_, ?_, ?_, ?_⟩
  · rw [hshutdown]
    exact h.calm.shutdown
  · rw [hsinks]
    exact h.calm.abortSinks
  · rw [habort]
    exact h.calm.abortParser
  · rw [hparser]
    exact h.exhausts
  · rw [hstage, hparser]
    exact h.finished
  · rw [hsupervisor]
    exact h.outcome
  · rw [hsupervisor]
    exact h.noError
  · rw [hsupervisor]
    exact h.phase
  · rw [hsupervisor]
    intro hreturned
    exact stage_step hstep (h.drained hreturned)

theorem running (h : OnCourse s) {p : ParserPhase} (hphase : s.parser = p) (hp : p ≠ .returned .sourcesClosed) :
    s.parserStage = .running := by
  by_contra hstage
  exact hp (hphase.symm.trans (h.finished hstage))

theorem parser (h : OnCourse s) {a : ParserAction} (hstep : s.parserStep setup a = some t) : OnCourse t := by
  obtain ⟨-, hshutdown, hsinks, hparser, hsupervisor⟩ := parserStep_frame hstep
  have hcourse : t.parser.Exhausts ∧ (t.parserStage ≠ .running → t.parser = .returned .sourcesClosed) := by
    have hexhausts := h.exhausts
    cases parserStep_spec hstep with
    | receive hphase | skip hphase | build hphase | offer hphase | fanned hphase =>
        exact ⟨trivial, fun hstage => absurd (h.running hphase (by simp)) hstage⟩
    | inputClosed hphase => exact ⟨rfl, fun hstage => absurd (h.running hphase (by simp)) hstage⟩
    | dropSender hphase | exit hphase =>
        rw [hphase] at hexhausts
        exact ⟨hexhausts, fun hstage => absurd (h.running hphase (by simp)) hstage⟩
    | finish hphase =>
        rw [hphase] at hexhausts
        exact ⟨by rw [hphase]; exact hexhausts, fun _ => hphase.trans (congrArg _ hexhausts)⟩
    | shutdown _ hsignalled =>
        rw [h.calm.shutdown] at hsignalled
        cases hsignalled
    | cancel _ habort =>
        rw [h.calm.abortParser] at habort
        cases habort
  refine ⟨⟨?_, ?_, ?_⟩, hcourse.1, hcourse.2, ?_, ?_, ?_, ?_⟩
  · rw [hshutdown]
    exact h.calm.shutdown
  · rw [hsinks]
    exact h.calm.abortSinks
  · rw [hparser]
    exact h.calm.abortParser
  · rw [hsupervisor]
    exact h.outcome
  · rw [hsupervisor]
    exact h.noError
  · rw [hsupervisor]
    exact h.phase
  · rw [hsupervisor]
    intro hreturned
    exact stage_step (a := .parser a) hstep (h.drained hreturned)

/-- While it drains, the parser has come to its end. -/
theorem draining (h : OnCourse s) (hphase : s.supervisor.phase ≠ .supervising) :
    (s.supervisor.phase = .drainingSources ∨ s.supervisor.phase = .drainingSinks ∨ s.supervisor.phase = .returned) ∧
      s.supervisor.parserFinished = true ∧ s.supervisor.sourcesExhausted = true :=
  h.phase.resolve_left hphase

theorem setPhase (h : OnCourse s) {phase : SupervisorPhase} (hphase : s.supervisor.phase ≠ .supervising)
    (hnext : phase = .drainingSinks ∨ phase = .returned)
    (hdrained : phase = .returned → ∀ (j : ℕ) sub, s.subs[j]? = some sub → sub.stage ≠ .running) :
    OnCourse (s.setPhase phase) := by
  obtain ⟨-, hfinished, hexhausted⟩ := h.draining hphase
  exact ⟨⟨h.calm.shutdown, h.calm.abortSinks, h.calm.abortParser⟩, h.exhausts, h.finished, h.outcome, h.noError,
    Or.inr ⟨Or.inr hnext, hfinished, hexhausted⟩, hdrained⟩

/-- **A step of the supervisor.** -/
theorem supervise (h : OnCourse s) (setup : ParserSetup) {a : SupervisorAction} (hquiet : Uneventful s (.supervisor a))
    (hlast : SinksLast s (.supervisor a)) (hstep : s.superviseStep a = some t) : OnCourse t := by
  have hstep' : s.step setup (.supervisor a) = some t := hstep
  unfold superviseStep at hstep
  split at hstep
  case h_1 =>
      rw [h.calm.shutdown] at hstep
      cases hstep
  case h_2 i hphase =>
      obtain ⟨⟨u, result⟩, hjoin, rfl⟩ := Option.map_eq_some_iff.mp hstep
      obtain ⟨task, htask, -, rfl, rfl⟩ := joinSource_spec hjoin
      simp only at hstep' ⊢
      rw [if_pos (hquiet task htask)] at hstep' ⊢
      exact h.frame hstep' rfl rfl rfl rfl rfl rfl
  case h_3 j hphase =>
      obtain ⟨u, hjoin, rfl⟩ := Option.map_eq_some_iff.mp hstep
      obtain ⟨sub, hsub, -, rfl⟩ := joinSink_spec hjoin
      rw [if_neg (hlast hphase)] at hstep' ⊢
      exact h.frame hstep' rfl rfl rfl rfl rfl rfl
  case h_4 hphase =>
      obtain ⟨u, hjoin, rfl⟩ := Option.map_eq_some_iff.mp hstep
      obtain ⟨hstage, rfl⟩ := joinParser_spec hjoin
      have hparser : s.parser = .returned .sourcesClosed := h.finished (by rw [hstage]; decide)
      refine ⟨⟨h.calm.shutdown, h.calm.abortSinks, h.calm.abortParser⟩, h.exhausts, fun _ => hparser, rfl, h.noError,
        Or.inr ⟨Or.inl rfl, rfl, ?_⟩, fun hreturned => by cases hreturned⟩
      show s.parser.sourcesClosed = true
      rw [hparser]
      rfl
  case h_5 i hphase =>
      obtain ⟨⟨u, result⟩, hjoin, rfl⟩ := Option.map_eq_some_iff.mp hstep
      obtain ⟨task, htask, -, rfl, rfl⟩ := joinSource_spec hjoin
      simp only at hstep' ⊢
      rw [if_neg (by rw [hquiet task htask]; simp)] at hstep' ⊢
      exact h.frame hstep' rfl rfl rfl rfl rfl rfl
  case h_6 hphase =>
      rw [h.noError, if_neg Bool.false_ne_true] at hstep
      split_ifs at hstep
      cases hstep
      have hne : s.supervisor.phase ≠ .supervising := by
        rw [hphase]
        decide
      unfold afterSources
      rw [if_pos (h.draining hne).2.1]
      exact h.setPhase hne (Or.inl rfl) (fun hreturned => by cases hreturned)
  case h_7 hphase => exact absurd hphase hlast
  case h_13 hphase =>
      obtain ⟨sub, hsub, -, rfl⟩ := joinSink_spec hstep
      exact h.frame hstep' rfl rfl rfl rfl rfl rfl
  case h_14 hphase =>
      split_ifs at hstep with hjoined
      cases hstep
      apply h.setPhase (by rw [hphase]; decide) (Or.inr rfl)
      intro _ j sub hsub
      have hstage := List.all_eq_true.mp hjoined sub (List.mem_of_getElem? hsub)
      rw [of_decide_eq_true hstage]
      decide
  case h_15 hphase =>
      exfalso
      have hunlimited : s.sinksUnlimited = true := by
        unfold sinksUnlimited
        rw [h.outcome]
        exact (h.draining (by rw [hphase]; decide)).2.2
      rw [if_pos (Or.inl hunlimited)] at hstep
      cases hstep
  case h_18 => cases hstep
  all_goals
    rename_i hphase
    have hdraining := h.draining (by rw [hphase]; decide)
    rw [hphase] at hdraining
    simp at hdraining

/-- **One step of a run on course.** -/
theorem step (h : OnCourse s) {a : RuntimeAction} (hquiet : Uneventful s a) (hlast : SinksLast s a)
    (hstep : s.step setup a = some t) : OnCourse t := by
  cases a with
  | signal => exact absurd hquiet id
  | source i a =>
      obtain ⟨task, task', lines, -, rfl, -⟩ := sourceStep_spec hstep
      exact h.frame hstep rfl rfl rfl rfl rfl rfl
  | parser a => exact h.parser hstep
  | sink j a =>
      obtain ⟨sub, sub', -, -, rfl⟩ := sinkStep_spec hstep
      exact h.frame hstep rfl rfl rfl rfl rfl rfl
  | supervisor a => exact h.supervise setup hquiet hlast hstep

end OnCourse

/-- The sinks run dry, whatever step is taken. -/
theorem dry_step {setup : ParserSetup} {s t : Runtime} (h : ∀ (j : ℕ) sub, s.subs[j]? = some sub → sub.RunsDry)
    (hcourse : OnCourse s) {a : RuntimeAction} (hstep : s.step setup a = some t) :
    ∀ (j : ℕ) sub, t.subs[j]? = some sub → sub.RunsDry := by
  intro j x hx
  obtain ⟨sub, hsub, rfl | ⟨env, rfl⟩ | ⟨b, hsink⟩ | ⟨hstage, rfl⟩⟩ := step_sub hstep hx
  · exact h j x hsub
  · exact (h j sub hsub).offer env
  · exact (h j sub hsub).step hcourse.calm.shutdown hcourse.calm.abortSinks hsink
  · exact (h j sub hsub).join hstage

/-! ### Every run -/

/-- The run has returned `Ok`, and every envelope accepted into a queue has been delivered
or pushed to the DLQ. -/
def Completed (s : Runtime) : Prop :=
  s.supervisor.outcome = .ok () ∧
    ∀ (j : ℕ) sub, s.subs[j]? = some sub → sub.accepted.Perm (sub.delivered ++ sub.deadLettered)

/-- **Finite sources.**  In every run without a shutdown or a failed source, whatever the
interleaving, in which the supervisor joins no sink before the parser task has finished and
the sources are joined in time: if it returns, it has completed. -/
theorem finite_run_completes {setup : ParserSetup} {sources : List Source} {subscribers : List SubscriberConfig}
    {subscriberQueue : ℕ} {actions : List RuntimeAction} {s : Runtime}
    (hrun : Run (step setup) (fun s a => Uneventful s a ∧ SinksLast s a)
      (start sources subscribers subscriberQueue) actions s)
    (hreturned : s.supervisor.phase = .returned) : Completed s := by
  have hinv : Kept s ∧ OnCourse s ∧ ∀ (j : ℕ) sub, s.subs[j]? = some sub → sub.RunsDry := by
    refine hrun.invariant (I := fun s => Kept s ∧ OnCourse s ∧ ∀ (j : ℕ) sub, s.subs[j]? = some sub → sub.RunsDry)
      ?_ ⟨Kept.start _ _ _, OnCourse.start _ _ _, ?_⟩
    · rintro s a t ⟨hkept, hcourse, hdry⟩ ⟨hquiet, hlast⟩ hstep
      exact ⟨hkept.step hstep, hcourse.step hquiet hlast hstep, dry_step hdry hcourse hstep⟩
    · intro j sub hsub
      obtain ⟨c, -, rfl⟩ := List.mem_map.mp (List.mem_of_getElem? hsub)
      exact Subscriber.RunsDry.new c subscriberQueue
  obtain ⟨hkept, hcourse, hdry⟩ := hinv
  refine ⟨hcourse.outcome, ?_⟩
  intro j sub hsub
  have hdropped := (hdry j sub hsub).returned (hcourse.drained hreturned j sub hsub)
  have hqueue := (hdry j sub hsub).emptied hdropped
  have hidle : sub.sink.inDelivery = [] := by
    unfold Subscriber.receiverDropped at hdropped
    cases hsink : sub.sink with
    | returned => rfl
    | receiving => rfl
    | delivering d sleeping =>
        rw [hsink] at hdropped
        cases hdropped
  obtain ⟨done, haccepted, hdone, -⟩ := (hkept.balanced hcourse.calm.shutdown hcourse.calm.abortSinks j sub hsub).worked
  rw [haccepted, hidle, hqueue, List.append_nil, List.append_nil]
  exact hdone

/-- An audit line goes to one of two subscribers. -/
theorem finite_run_completes_delivered : ∃ s : Runtime, Completed s ∧ ∃ sub, s.subs[1]? = some sub ∧
    sub.accepted.length = 1 ∧ sub.delivered.length = 1 := by
  let line : Bytes := Utf8.encode "\x7b\"action\":\"block\",\"would_block_rules\":[]\x7d\n".toList
  let setup : ParserSetup := ⟨Json.standard, [], "relay".toList⟩
  let init : Runtime :=
    start [.stdin .start] [⟨"quiet".toList, true, fun _ => false, 1⟩, ⟨"siem".toList, true, fun _ => true, 1⟩] 1
  let actions : List RuntimeAction :=
    [.source 0 (.act (.stdin (.arrive line))), .source 0 (.act (.stdin .hangUp)), .source 0 (.act (.stdin .readLine)),
      .source 0 (.act (.stdin .accept)), .source 0 (.act (.stdin .readLine)), .source 0 .finish,
      .supervisor (.joinSource 0), .parser .receive, .parser (.parse [] "id".toList 0), .parser .fanOut,
      .parser .fanOut, .parser .fanOut, .parser .inputClosed, .parser .dropSender, .sink 0 .inputClosed,
      .sink 0 .finish, .parser .dropSender, .parser .exit, .parser .finish, .supervisor (.joinSink 0),
      .supervisor .joinParser, .supervisor .drained, .sink 1 .receive, .sink 1 (.reply (.status 200)),
      .sink 1 .inputClosed, .sink 1 .finish, .supervisor (.joinSink 1), .supervisor .drained]
  have hcheck : (Run.exec (step setup) (fun s a => Uneventful s a ∧ SinksLast s a) init actions).any (fun s =>
      s.supervisor.phase == .returned && s.subs[1]?.any fun sub =>
        sub.accepted.length == 1 && sub.delivered.length == 1) = true := by decide +kernel
  obtain ⟨s, hexec, hs⟩ := (Option.any_eq_true _ _).mp hcheck
  rw [Bool.and_eq_true] at hs
  obtain ⟨sub, hsub, hdelivered⟩ := (Option.any_eq_true _ _).mp hs.2
  simp only [Bool.and_eq_true, beq_iff_eq] at hdelivered
  exact ⟨s, finite_run_completes (Run.of_exec hexec) (beq_iff_eq.mp hs.1), sub, hsub, hdelivered⟩

/-- **A sink taken for failed.**  The first sink returns as soon as its sender is dropped, and
is joined while the parser drops the others: the run fails, and aborts the second sink with
an envelope in its queue. -/
theorem sink_mistaken_for_failed : ∃ setup sources subscribers subscriberQueue actions s,
    Run (step setup) Uneventful (start sources subscribers subscriberQueue) actions s ∧
      s.supervisor.phase = .returned ∧ s.supervisor.outcome = .error .sinkStopped ∧
      ¬ Completed s ∧ ∃ sub, s.subs[1]? = some sub ∧ sub.accepted.length = 1 ∧ sub.delivered.length = 0 ∧
      sub.deadLettered.length = 0 := by
  let line : Bytes := Utf8.encode "\x7b\"action\":\"block\",\"would_block_rules\":[]\x7d\n".toList
  let setup : ParserSetup := ⟨Json.standard, [], "relay".toList⟩
  let subscribers : List SubscriberConfig :=
    [⟨"quiet".toList, true, fun _ => false, 1⟩, ⟨"siem".toList, true, fun _ => true, 1⟩]
  let actions : List RuntimeAction :=
    [.source 0 (.act (.stdin (.arrive line))), .source 0 (.act (.stdin .hangUp)), .source 0 (.act (.stdin .readLine)),
      .source 0 (.act (.stdin .accept)), .source 0 (.act (.stdin .readLine)), .source 0 .finish,
      .supervisor (.joinSource 0), .parser .receive, .parser (.parse [] "id".toList 0), .parser .fanOut,
      .parser .fanOut, .parser .fanOut, .parser .inputClosed, .parser .dropSender, .sink 0 .inputClosed,
      .sink 0 .finish, .supervisor (.joinSink 0), .parser .dropSender, .parser .exit, .parser .finish,
      .supervisor .drained, .supervisor .joinParser, .sink 1 .cancel, .supervisor (.joinSink 1),
      .supervisor .drained]
  have hcheck : (Run.exec (step setup) Uneventful (start [.stdin .start] subscribers 1) actions).any (fun s =>
      s.supervisor.phase == .returned && decide (s.supervisor.outcome = .error .sinkStopped) &&
        s.subs[1]?.any fun sub =>
          sub.accepted.length == 1 && sub.delivered.length == 0 && sub.deadLettered.length == 0) = true := by
    decide +kernel
  obtain ⟨s, hexec, hs⟩ := (Option.any_eq_true _ _).mp hcheck
  simp only [Bool.and_eq_true, beq_iff_eq, decide_eq_true_eq] at hs
  obtain ⟨⟨hreturned, houtcome⟩, hsub⟩ := hs
  obtain ⟨sub, hsub, hlost⟩ := (Option.any_eq_true _ _).mp hsub
  simp only [Bool.and_eq_true, beq_iff_eq] at hlost
  refine ⟨setup, _, subscribers, 1, actions, s, Run.of_exec hexec, hreturned, houtcome, ?_, sub, hsub, hlost.1.1,
    hlost.1.2, hlost.2⟩
  rintro ⟨hok, -⟩
  rw [houtcome] at hok
  cases hok

end Runtime

end PurpleWolf.Relay
