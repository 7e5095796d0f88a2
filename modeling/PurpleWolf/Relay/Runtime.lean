import PurpleWolf.Lib.Transition
import PurpleWolf.Relay.Source

/-! # The pipeline at run time (`pipeline.rs`)

`pipeline::run` spawns a task for every source, one for the parser and one for the sink of
every enabled subscriber, and supervises them.  The model is a transition system in which
any task may take the next step.

* **Channels.**  All sources send into one bounded channel (`raw`); each subscriber has a
  queue of its own.  A channel is closed for its senders when the receiver has been
  dropped, and at its end for the receiver when it is empty and all senders have been
  dropped.
* **Dropping.**  The parser drops the senders of the subscribers one by one, then its
  receiver, and only then counts as finished.
* **`select!`.**  A branch is taken in a state in which it is ready.  The branches before it
  were not ready when they were polled, which is earlier, so nothing is asked of them.
* **Time.**  A limit of the drain phase may run out as long as something is left to drain.
* **Left out** are panics, metrics without an outcome, and logs. -/

namespace PurpleWolf.Relay

def SOURCE_CHANNEL_CAP : ℕ := 1024

/-! ### The state -/

/-- A line in the channel; a source is named by its place. -/
structure RawEvent where
  sourceId : ℕ
  line : Bytes
  deriving DecidableEq

inductive ParserExit where
  | shutdown
  | sourcesClosed
  deriving DecidableEq

/-- Where the parser task stands: in its `select!`, in `process_one` before the fan-out, in
`fan_out` with the first subscribers done, dropping the senders, or gone, its receiver
dropped. -/
inductive ParserPhase where
  | selecting
  | processing (raw : RawEvent)
  | fanningOut (raw : RawEvent) (env : SharedEnvelope) (next : ℕ)
  | dropping (exit : ParserExit) (next : ℕ)
  | returned (exit : ParserExit)
  | cancelled

/-- `matches!(exit, ParserExit::SourcesClosed)`. -/
def ParserPhase.sourcesClosed : ParserPhase → Bool
  | .returned .sourcesClosed => true
  | _ => false

inductive RunError where
  | sourceFailed
  | sinkStopped
  | sourcesTimeout
  | parserTimeout
  | sinksTimeout
  deriving DecidableEq

/-- Where `run` stands: in its supervising loop, in one of the drains, or waiting for the
tasks that it has aborted because a drain took too long. -/
inductive SupervisorPhase where
  | supervising
  | drainingSources
  | stoppingSources
  | awaitingParser
  | stoppingParser
  | drainingSinks
  | stoppingSinks
  | returned
  deriving DecidableEq

/-- The variables of `run`; `sourceError` is whether `drain_source_tasks` has met an error. -/
structure Supervisor where
  phase : SupervisorPhase
  outcome : Except RunError Unit
  parserFinished : Bool
  sourcesExhausted : Bool
  sourceError : Bool

/-- The tasks, the channels and the supervisor.  `processed` are the events that
`process_one` has been run for, `fannedOut` the envelopes that `fan_out` is through with. -/
structure Runtime where
  sources : List SourceTask
  raw : List RawEvent
  parser : ParserPhase
  parserStage : Stage
  processed : List RawEvent
  fannedOut : List SharedEnvelope
  subs : List Subscriber
  shutdown : Bool
  abortSources : Bool
  abortSinks : Bool
  abortParser : Bool
  supervisor : Supervisor

/-- What the parser task works with. -/
structure ParserSetup where
  codec : Json.Codec
  enrichers : List Enricher
  instanceId : Str

/-! ### Actions -/

inductive SourceTaskAction where
  | act (a : SourceAction)
  | finish
  | cancel

/-- `parse` is what `process_one` does before the fan-out, with the outcomes of the
enrichers' calls, the ULID and the clock reading. -/
inductive ParserAction where
  | receive
  | inputClosed
  | shutdown
  | parse (calls : List HttpOutcome) (id : Str) (now : ℕ)
  | fanOut
  | dropSender
  | exit
  | finish
  | cancel

inductive SupervisorAction where
  | shutdown
  | joinSource (i : ℕ)
  | joinSink (j : ℕ)
  | joinParser
  | drained
  | timeout

inductive RuntimeAction where
  /-- The shutdown is broadcast. -/
  | signal
  | source (i : ℕ) (a : SourceTaskAction)
  | parser (a : ParserAction)
  | sink (j : ℕ) (a : SinkAction)
  | supervisor (a : SupervisorAction)

namespace Runtime

/-- The tasks have been spawned. -/
def start (sources : List Source) (subscribers : List SubscriberConfig) (subscriberQueue : ℕ) : Runtime where
  sources := sources.map fun source => ⟨source, .running⟩
  raw := []
  parser := .selecting
  parserStage := .running
  processed := []
  fannedOut := []
  subs := (subscribers.filter (·.enabled)).map fun c => .new c subscriberQueue
  shutdown := false
  abortSources := false
  abortSinks := false
  abortParser := false
  supervisor := ⟨.supervising, .ok (), false, false, false⟩

/-! ### Sources -/

/-- The receiver of the raw channel has been dropped. -/
def rawClosed (s : Runtime) : Bool :=
  match s.parser with
  | .returned _ => true
  | .cancelled => true
  | _ => false

def allows (s : Runtime) (task : SourceTask) : Need → Bool
  | .environment => true
  | .nothing => task.stage = .running
  | .shutdown => task.stage = .running && s.shutdown
  | .room => task.stage = .running && !s.rawClosed && s.raw.length < SOURCE_CHANNEL_CAP
  | .closed => task.stage = .running && s.rawClosed

def sourceStep (s : Runtime) (i : ℕ) (a : SourceTaskAction) : Option Runtime :=
  match s.sources[i]?, a with
  | some task, .act a =>
      if s.allows task a.need then
        (task.source.step a).map fun source =>
          { s with
            sources := s.sources.set i { task with source }
            raw := s.raw ++ (task.source.output a).map (RawEvent.mk i) }
      else none
  | some task, .finish =>
      if task.stage = .running ∧ task.source.result.isSome then
        some { s with sources := s.sources.set i { task with stage := .finished } }
      else none
  | some task, .cancel =>
      if s.abortSources ∧ task.stage = .running ∧ task.source.result.isNone then
        some { s with sources := s.sources.set i { task with stage := .finished } }
      else none
  | none, _ => none

/-! ### The parser -/

def parserStep (setup : ParserSetup) (s : Runtime) (a : ParserAction) : Option Runtime :=
  match a, s.parser with
  | .receive, .selecting =>
      match s.raw with
      | [] => none
      | event :: raw => some { s with raw, parser := .processing event }
  | .inputClosed, .selecting =>
      if s.raw.isEmpty ∧ s.sources.all (·.senderDropped) then
        some { s with parser := .dropping .sourcesClosed 0 }
      else none
  | .shutdown, .selecting =>
      if s.shutdown then some { s with parser := .dropping .shutdown 0 } else none
  | .parse calls id now, .processing event =>
      if calls.length = setup.enrichers.length then
        match processOne setup.codec (setup.enrichers.zip calls) setup.instanceId id now event.line with
        | none => some { s with parser := .selecting, processed := s.processed ++ [event] }
        | some env => some { s with parser := .fanningOut event ⟨s.fannedOut.length, env⟩ 0 }
      else none
  | .fanOut, .fanningOut event env next =>
      if next < s.subs.length then
        some { s with subs := s.subs.modify next (·.offer env), parser := .fanningOut event env (next + 1) }
      else
        some { s with
          parser := .selecting
          processed := s.processed ++ [event]
          fannedOut := s.fannedOut ++ [env] }
  | .dropSender, .dropping exit next =>
      if next < s.subs.length then some { s with parser := .dropping exit (next + 1) } else none
  | .exit, .dropping exit next =>
      if next < s.subs.length then none else some { s with parser := .returned exit, raw := [] }
  | .finish, .returned _ =>
      if s.parserStage = .running then some { s with parserStage := .finished } else none
  | .cancel, .selecting =>
      if s.abortParser then some { s with parser := .cancelled, parserStage := .finished, raw := [] } else none
  | .cancel, .processing _ =>
      if s.abortParser then some { s with parser := .cancelled, parserStage := .finished, raw := [] } else none
  | _, _ => none

/-! ### Sinks -/

/-- The parser has dropped the sender of this subscriber. -/
def senderDropped (s : Runtime) (j : ℕ) : Bool :=
  match s.parser with
  | .dropping _ next => j < next
  | .returned _ => true
  | .cancelled => true
  | _ => false

def sinkView (s : Runtime) (j : ℕ) : SinkView := ⟨s.shutdown, s.senderDropped j, s.abortSinks⟩

def sinkStep (s : Runtime) (j : ℕ) (a : SinkAction) : Option Runtime :=
  match s.subs[j]? with
  | some sub => (sub.step (s.sinkView j) a).map fun sub => { s with subs := s.subs.set j sub }
  | none => none

/-! ### The supervisor -/

/-- `source_tasks.join_next()`, with the result of the source. -/
def joinSource (s : Runtime) (i : ℕ) : Option (Runtime × Option Bool) :=
  match s.sources[i]? with
  | some task =>
      if task.stage = .finished then
        some ({ s with sources := s.sources.set i { task with stage := .joined } }, task.source.result)
      else none
  | none => none

/-- `sink_tasks.join_next()`. -/
def joinSink (s : Runtime) (j : ℕ) : Option Runtime :=
  match s.subs[j]? with
  | some sub =>
      if sub.stage = .finished then some { s with subs := s.subs.set j { sub with stage := .joined } } else none
  | none => none

def joinParser (s : Runtime) : Option Runtime :=
  if s.parserStage = .finished then some { s with parserStage := .joined } else none

def sourcesJoined (s : Runtime) : Bool := s.sources.all (·.stage = .joined)

def sinksJoined (s : Runtime) : Bool := s.subs.all (·.stage = .joined)

def setPhase (s : Runtime) (phase : SupervisorPhase) : Runtime :=
  { s with supervisor := { s.supervisor with phase } }

/-- `abort_all()` and `abort()`: the tasks are cancelled where they next wait. -/
def abort (s : Runtime) (sources sinks parser : Bool) : Runtime :=
  { s with
    abortSources := s.abortSources || sources
    abortSinks := s.abortSinks || sinks
    abortParser := s.abortParser || parser }

/-- `outcome = Err(error)`, if it is `Ok`. -/
def orFail (s : Runtime) (error : RunError) : Runtime :=
  match s.supervisor.outcome with
  | .ok _ => { s with supervisor := { s.supervisor with outcome := .error error } }
  | .error _ => s

/-- The loop breaks with an outcome; an error aborts all that is left. -/
def conclude (s : Runtime) (outcome : Except RunError Unit) : Runtime :=
  let s := { s with supervisor := { s.supervisor with phase := .drainingSources, outcome } }
  match outcome with
  | .ok _ => s
  | .error _ => s.abort true true (!s.supervisor.parserFinished)

/-- The sources are done. -/
def afterSources (s : Runtime) : Runtime :=
  s.setPhase (if s.supervisor.parserFinished then .drainingSinks else .awaitingParser)

/-- Whether the sinks may drain for as long as it takes. -/
def sinksUnlimited (s : Runtime) : Bool :=
  match s.supervisor.outcome with
  | .ok _ => s.supervisor.sourcesExhausted
  | .error _ => false

def superviseStep (s : Runtime) (a : SupervisorAction) : Option Runtime :=
  match s.supervisor.phase, a with
  | .supervising, .shutdown => if s.shutdown then some (s.conclude (.ok ())) else none
  | .supervising, .joinSource i =>
      (s.joinSource i).map fun (s, result) => if result = some true then s else s.conclude (.error .sourceFailed)
  | .supervising, .joinSink j =>
      (s.joinSink j).map fun s => if s.parserStage = .running then s.conclude (.error .sinkStopped) else s
  | .supervising, .joinParser =>
      s.joinParser.map fun s =>
        { s with supervisor := { s.supervisor with
            parserFinished := true, sourcesExhausted := s.parser.sourcesClosed } }.conclude (.ok ())
  | .drainingSources, .joinSource i =>
      (s.joinSource i).map fun (s, result) =>
        if result = some false then { s with supervisor := { s.supervisor with sourceError := true } } else s
  | .drainingSources, .drained =>
      if s.sourcesJoined then
        some (if s.supervisor.sourceError then (s.orFail .sourceFailed).afterSources else s.afterSources)
      else none
  | .drainingSources, .timeout =>
      if s.sourcesJoined then none else some ((s.abort true false false).setPhase .stoppingSources)
  | .stoppingSources, .joinSource i => (s.joinSource i).map Prod.fst
  | .stoppingSources, .drained =>
      if s.sourcesJoined then some (s.orFail .sourcesTimeout).afterSources else none
  | .awaitingParser, .joinParser => s.joinParser.map (·.setPhase .drainingSinks)
  | .awaitingParser, .timeout => some ((s.abort false false true).setPhase .stoppingParser)
  | .stoppingParser, .joinParser => s.joinParser.map fun s => (s.orFail .parserTimeout).setPhase .drainingSinks
  | .drainingSinks, .joinSink j => s.joinSink j
  | .drainingSinks, .drained => if s.sinksJoined then some (s.setPhase .returned) else none
  | .drainingSinks, .timeout =>
      if s.sinksUnlimited ∨ s.sinksJoined then none
      else some ((s.abort false true false).setPhase .stoppingSinks)
  | .stoppingSinks, .joinSink j => s.joinSink j
  | .stoppingSinks, .drained =>
      if s.sinksJoined then some ((s.orFail .sinksTimeout).setPhase .returned) else none
  | _, _ => none

/-! ### A step of the whole -/

def step (setup : ParserSetup) (s : Runtime) : RuntimeAction → Option Runtime
  | .signal => some { s with shutdown := true }
  | .source i a => s.sourceStep i a
  | .parser a => s.parserStep setup a
  | .sink j a => s.sinkStep j a
  | .supervisor a => s.superviseStep a

/-! ### What a step changes -/

variable {setup : ParserSetup} {s t : Runtime}

/-- A step of a source task: its source moves and its lines go to the channel, or only its
stage changes. -/
theorem sourceStep_spec {i : ℕ} {a : SourceTaskAction} (h : s.sourceStep i a = some t) :
    ∃ task task' lines, s.sources[i]? = some task ∧
      t = { s with sources := s.sources.set i task', raw := s.raw ++ lines.map (RawEvent.mk i) } ∧
      ((∃ b, a = .act b ∧ s.allows task b.need = true ∧ task.source.step b = some task'.source ∧
          lines = task.source.output b) ∨
        (∀ b, a ≠ .act b) ∧ task'.source = task.source ∧ lines = []) := by
  unfold sourceStep at h
  split at h
  case h_1 task a htask =>
      split_ifs at h with hallows
      obtain ⟨source, hstep, rfl⟩ := Option.map_eq_some_iff.mp h
      exact ⟨task, { task with source }, _, htask, rfl, Or.inl ⟨a, rfl, hallows, hstep, rfl⟩⟩
  case h_2 task htask =>
      split_ifs at h
      cases h
      refine ⟨task, { task with stage := .finished }, [], htask, ?_, Or.inr ⟨by simp, rfl, rfl⟩⟩
      rw [List.map_nil, List.append_nil]
  case h_3 task htask =>
      split_ifs at h
      cases h
      refine ⟨task, { task with stage := .finished }, [], htask, ?_, Or.inr ⟨by simp, rfl, rfl⟩⟩
      rw [List.map_nil, List.append_nil]
  case h_4 => cases h

/-- What a step of the parser does, and when. -/
inductive ParserMove (setup : ParserSetup) (s : Runtime) : ParserAction → Runtime → Prop
  | receive {event : RawEvent} {raw : List RawEvent} (hparser : s.parser = .selecting) (hraw : s.raw = event :: raw) :
      ParserMove setup s .receive { s with raw, parser := .processing event }
  | inputClosed (hparser : s.parser = .selecting) (hraw : s.raw = [])
      (hclosed : s.sources.all (·.senderDropped) = true) :
      ParserMove setup s .inputClosed { s with parser := .dropping .sourcesClosed 0 }
  | shutdown (hparser : s.parser = .selecting) (hshutdown : s.shutdown = true) :
      ParserMove setup s .shutdown { s with parser := .dropping .shutdown 0 }
  | skip {event : RawEvent} {calls : List HttpOutcome} {id : Str} {now : ℕ} (hparser : s.parser = .processing event)
      (hcalls : calls.length = setup.enrichers.length)
      (hnone : processOne setup.codec (setup.enrichers.zip calls) setup.instanceId id now event.line = none) :
      ParserMove setup s (.parse calls id now) { s with parser := .selecting, processed := s.processed ++ [event] }
  | build {event : RawEvent} {calls : List HttpOutcome} {id : Str} {now : ℕ} {env : Envelope}
      (hparser : s.parser = .processing event) (hcalls : calls.length = setup.enrichers.length)
      (hsome : processOne setup.codec (setup.enrichers.zip calls) setup.instanceId id now event.line = some env) :
      ParserMove setup s (.parse calls id now) { s with parser := .fanningOut event ⟨s.fannedOut.length, env⟩ 0 }
  | offer {event : RawEvent} {env : SharedEnvelope} {next : ℕ} (hparser : s.parser = .fanningOut event env next)
      (hnext : next < s.subs.length) :
      ParserMove setup s .fanOut
        { s with subs := s.subs.modify next (·.offer env), parser := .fanningOut event env (next + 1) }
  | fanned {event : RawEvent} {env : SharedEnvelope} {next : ℕ} (hparser : s.parser = .fanningOut event env next)
      (hend : s.subs.length ≤ next) :
      ParserMove setup s .fanOut
        { s with parser := .selecting, processed := s.processed ++ [event], fannedOut := s.fannedOut ++ [env] }
  | dropSender {exit : ParserExit} {next : ℕ} (hparser : s.parser = .dropping exit next)
      (hnext : next < s.subs.length) :
      ParserMove setup s .dropSender { s with parser := .dropping exit (next + 1) }
  | exit {exit : ParserExit} {next : ℕ} (hparser : s.parser = .dropping exit next) (hend : s.subs.length ≤ next) :
      ParserMove setup s .exit { s with parser := .returned exit, raw := [] }
  | finish {exit : ParserExit} (hparser : s.parser = .returned exit) (hrunning : s.parserStage = .running) :
      ParserMove setup s .finish { s with parserStage := .finished }
  | cancel (hparser : s.parser = .selecting ∨ ∃ event, s.parser = .processing event) (habort : s.abortParser = true) :
      ParserMove setup s .cancel { s with parser := .cancelled, parserStage := .finished, raw := [] }

theorem parserStep_spec {a : ParserAction} (h : s.parserStep setup a = some t) : ParserMove setup s a t := by
  unfold parserStep at h
  split at h
  case h_1 hparser =>
      split at h
      · cases h
      · rename_i hraw
        cases h
        exact .receive hparser hraw
  case h_2 hparser =>
      split_ifs at h with hclosed
      cases h
      exact .inputClosed hparser (List.isEmpty_iff.mp hclosed.1) hclosed.2
  case h_3 hparser =>
      split_ifs at h with hshutdown
      cases h
      exact .shutdown hparser hshutdown
  case h_4 hparser =>
      split_ifs at h with hcalls
      split at h
      · rename_i hnone
        cases h
        exact .skip hparser hcalls hnone
      · rename_i hsome
        cases h
        exact .build hparser hcalls hsome
  case h_5 hparser =>
      split_ifs at h with hnext <;> cases h
      · exact .offer hparser hnext
      · exact .fanned hparser (not_lt.mp hnext)
  case h_6 hparser =>
      split_ifs at h with hnext
      cases h
      exact .dropSender hparser hnext
  case h_7 hparser =>
      split_ifs at h with hnext
      cases h
      exact .exit hparser (not_lt.mp hnext)
  case h_8 hparser =>
      split_ifs at h with hrunning
      cases h
      exact .finish hparser hrunning
  case h_9 hparser =>
      split_ifs at h with habort
      cases h
      exact .cancel (Or.inl hparser) habort
  case h_10 hparser =>
      split_ifs at h with habort
      cases h
      exact .cancel (Or.inr ⟨_, hparser⟩) habort
  case h_11 => cases h

theorem parserStep_senderDropped {a : ParserAction} (h : s.parserStep setup a = some t) (j : ℕ)
    (hdropped : s.senderDropped j = true) : t.senderDropped j = true := by
  unfold senderDropped at hdropped
  cases parserStep_spec h with
  | dropSender hparser =>
      rw [hparser] at hdropped
      simp only [decide_eq_true_eq] at hdropped
      unfold senderDropped
      simp only [decide_eq_true_eq]
      omega
  | exit => rfl
  | finish hparser =>
      unfold senderDropped
      rw [hparser]
  | cancel => rfl
  | receive hparser | inputClosed hparser | shutdown hparser | skip hparser | build hparser | offer hparser
  | fanned hparser =>
      rw [hparser] at hdropped
      cases hdropped

theorem sinkStep_spec {j : ℕ} {a : SinkAction} (h : s.sinkStep j a = some t) :
    ∃ sub sub', s.subs[j]? = some sub ∧ sub.step (s.sinkView j) a = some sub' ∧
      t = { s with subs := s.subs.set j sub' } := by
  unfold sinkStep at h
  cases hsub : s.subs[j]? with
  | none =>
      rw [hsub] at h
      cases h
  | some sub =>
      rw [hsub] at h
      obtain ⟨sub', hstep, rfl⟩ := Option.map_eq_some_iff.mp h
      exact ⟨sub, sub', rfl, hstep, rfl⟩

theorem joinSource_spec {i : ℕ} {result : Option Bool} (h : s.joinSource i = some (t, result)) :
    ∃ task, s.sources[i]? = some task ∧ task.stage = .finished ∧ result = task.source.result ∧
      t = { s with sources := s.sources.set i { task with stage := .joined } } := by
  unfold joinSource at h
  cases htask : s.sources[i]? with
  | none =>
      rw [htask] at h
      cases h
  | some task =>
      rw [htask] at h
      simp only at h
      split_ifs at h with hstage
      cases h
      exact ⟨task, rfl, hstage, rfl, rfl⟩

theorem joinSink_spec {j : ℕ} (h : s.joinSink j = some t) :
    ∃ sub, s.subs[j]? = some sub ∧ sub.stage = .finished ∧
      t = { s with subs := s.subs.set j { sub with stage := .joined } } := by
  unfold joinSink at h
  cases hsub : s.subs[j]? with
  | none =>
      rw [hsub] at h
      cases h
  | some sub =>
      rw [hsub] at h
      simp only at h
      split_ifs at h with hstage
      cases h
      exact ⟨sub, rfl, hstage, rfl⟩

theorem joinParser_spec (h : s.joinParser = some t) :
    s.parserStage = .finished ∧ t = { s with parserStage := .joined } := by
  unfold joinParser at h
  split_ifs at h with hstage
  cases h
  exact ⟨hstage, rfl⟩

/-- **What supervision can do**: join tasks that have finished, and abort the others. -/
structure Supervised (s t : Runtime) : Prop where
  raw : t.raw = s.raw
  parser : t.parser = s.parser
  processed : t.processed = s.processed
  fannedOut : t.fannedOut = s.fannedOut
  shutdown : t.shutdown = s.shutdown
  abortSinks : s.abortSinks = true → t.abortSinks = true
  source : ∀ i : ℕ, t.sources[i]? = s.sources[i]? ∨
    ∃ task : SourceTask, s.sources[i]? = some task ∧ task.stage = .finished ∧
      t.sources[i]? = some { task with stage := .joined }
  sub : ∀ j : ℕ, t.subs[j]? = s.subs[j]? ∨
    ∃ sub : Subscriber, s.subs[j]? = some sub ∧ sub.stage = .finished ∧
      t.subs[j]? = some { sub with stage := .joined }

namespace Supervised

theorem refl (s : Runtime) : Supervised s s :=
  ⟨rfl, rfl, rfl, rfl, rfl, id, fun _ => Or.inl rfl, fun _ => Or.inl rfl⟩

theorem joinSource {i : ℕ} {result : Option Bool} (h : s.joinSource i = some (t, result)) : Supervised s t := by
  obtain ⟨task, htask, hstage, -, rfl⟩ := joinSource_spec h
  refine ⟨rfl, rfl, rfl, rfl, rfl, id, ?_, fun _ => Or.inl rfl⟩
  intro k
  by_cases hk : i = k
  · subst hk
    right
    refine ⟨task, htask, hstage, ?_⟩
    exact List.getElem?_set_self (List.getElem?_eq_some_iff.mp htask).1
  · exact Or.inl (List.getElem?_set_ne hk)

theorem joinSink {j : ℕ} (h : s.joinSink j = some t) : Supervised s t := by
  obtain ⟨sub, hsub, hstage, rfl⟩ := joinSink_spec h
  refine ⟨rfl, rfl, rfl, rfl, rfl, id, fun _ => Or.inl rfl, ?_⟩
  intro k
  by_cases hk : j = k
  · subst hk
    right
    refine ⟨sub, hsub, hstage, ?_⟩
    exact List.getElem?_set_self (List.getElem?_eq_some_iff.mp hsub).1
  · exact Or.inl (List.getElem?_set_ne hk)

theorem joinParser (h : s.joinParser = some t) : Supervised s t := by
  obtain ⟨-, rfl⟩ := joinParser_spec h
  exact ⟨rfl, rfl, rfl, rfl, rfl, id, fun _ => Or.inl rfl, fun _ => Or.inl rfl⟩

theorem setSupervisor (h : Supervised s t) (supervisor : Supervisor) : Supervised s { t with supervisor } :=
  ⟨h.raw, h.parser, h.processed, h.fannedOut, h.shutdown, h.abortSinks, h.source, h.sub⟩

theorem setPhase (h : Supervised s t) (phase : SupervisorPhase) : Supervised s (t.setPhase phase) :=
  h.setSupervisor _

theorem abort (h : Supervised s t) (sources sinks parser : Bool) : Supervised s (t.abort sources sinks parser) := by
  refine ⟨h.raw, h.parser, h.processed, h.fannedOut, h.shutdown, ?_, h.source, h.sub⟩
  intro habort
  unfold Runtime.abort
  rw [h.abortSinks habort, Bool.true_or]

theorem orFail (h : Supervised s t) (error : RunError) : Supervised s (t.orFail error) := by
  unfold Runtime.orFail
  split
  · exact h.setSupervisor _
  · exact h

theorem conclude (h : Supervised s t) (outcome : Except RunError Unit) : Supervised s (t.conclude outcome) := by
  cases outcome with
  | ok _ => exact h.setSupervisor _
  | error _ => exact (h.setSupervisor _).abort _ _ _

theorem afterSources (h : Supervised s t) : Supervised s t.afterSources := h.setPhase _

end Supervised

/-- **A step of the supervisor.** -/
theorem superviseStep_spec {a : SupervisorAction} (h : s.superviseStep a = some t) : Supervised s t := by
  unfold superviseStep at h
  split at h
  case h_1 =>
      split_ifs at h
      cases h
      exact (Supervised.refl s).conclude _
  case h_2 =>
      obtain ⟨⟨u, result⟩, hjoin, rfl⟩ := Option.map_eq_some_iff.mp h
      simp only
      split_ifs
      · exact Supervised.joinSource hjoin
      · exact (Supervised.joinSource hjoin).conclude _
  case h_3 =>
      obtain ⟨u, hjoin, rfl⟩ := Option.map_eq_some_iff.mp h
      split_ifs
      · exact (Supervised.joinSink hjoin).conclude _
      · exact Supervised.joinSink hjoin
  case h_4 =>
      obtain ⟨u, hjoin, rfl⟩ := Option.map_eq_some_iff.mp h
      exact ((Supervised.joinParser hjoin).setSupervisor _).conclude _
  case h_5 =>
      obtain ⟨⟨u, result⟩, hjoin, rfl⟩ := Option.map_eq_some_iff.mp h
      simp only
      split_ifs
      · exact (Supervised.joinSource hjoin).setSupervisor _
      · exact Supervised.joinSource hjoin
  case h_6 =>
      split_ifs at h <;> cases h
      · exact ((Supervised.refl s).orFail _).afterSources
      · exact (Supervised.refl s).afterSources
  case h_7 =>
      split_ifs at h
      cases h
      exact ((Supervised.refl s).abort _ _ _).setPhase _
  case h_8 =>
      obtain ⟨⟨u, result⟩, hjoin, rfl⟩ := Option.map_eq_some_iff.mp h
      exact Supervised.joinSource hjoin
  case h_9 =>
      split_ifs at h
      cases h
      exact ((Supervised.refl s).orFail _).afterSources
  case h_10 =>
      obtain ⟨u, hjoin, rfl⟩ := Option.map_eq_some_iff.mp h
      exact (Supervised.joinParser hjoin).setPhase _
  case h_11 =>
      cases h
      exact ((Supervised.refl s).abort _ _ _).setPhase _
  case h_12 =>
      obtain ⟨u, hjoin, rfl⟩ := Option.map_eq_some_iff.mp h
      exact ((Supervised.joinParser hjoin).orFail _).setPhase _
  case h_13 => exact Supervised.joinSink h
  case h_14 =>
      split_ifs at h
      cases h
      exact (Supervised.refl s).setPhase _
  case h_15 =>
      split_ifs at h
      cases h
      exact ((Supervised.refl s).abort _ _ _).setPhase _
  case h_16 => exact Supervised.joinSink h
  case h_17 =>
      split_ifs at h
      cases h
      exact ((Supervised.refl s).orFail _).setPhase _
  case h_18 => cases h

/-- The flags and the supervisor are no business of the parser. -/
theorem parserStep_frame {a : ParserAction} (h : s.parserStep setup a = some t) :
    t.sources = s.sources ∧ t.shutdown = s.shutdown ∧ t.abortSinks = s.abortSinks ∧
      t.abortParser = s.abortParser ∧ t.supervisor = s.supervisor := by
  cases parserStep_spec h <;> exact ⟨rfl, rfl, rfl, rfl, rfl⟩

theorem parserStep_subs {a : ParserAction} (h : s.parserStep setup a = some t) :
    t.subs = s.subs ∨ ∃ next env, t.subs = s.subs.modify next (·.offer env) := by
  cases parserStep_spec h with
  | offer => exact Or.inr ⟨_, _, rfl⟩
  | _ => exact Or.inl rfl

/-- **What a step does to a source**: it is an action of that source, or nothing to it. -/
theorem step_source {a : RuntimeAction} {i : ℕ} {x : SourceTask} (h : s.step setup a = some t)
    (hx : t.sources[i]? = some x) : ∃ task, s.sources[i]? = some task ∧
      ((∃ b, a = .source i (.act b) ∧ s.allows task b.need = true ∧ task.source.step b = some x.source) ∨
        (∀ b, a ≠ .source i (.act b)) ∧ x.source = task.source) := by
  cases a with
  | signal =>
      cases h
      exact ⟨x, hx, Or.inr ⟨by simp, rfl⟩⟩
  | source k a =>
      obtain ⟨task, task', lines, htask, rfl, hmove⟩ := sourceStep_spec h
      by_cases hk : k = i
      · subst hk
        rw [List.getElem?_set_self (List.getElem?_eq_some_iff.mp htask).1] at hx
        cases hx
        refine ⟨task, htask, ?_⟩
        obtain ⟨b, rfl, hallows, hstep, -⟩ | ⟨hidle, hsame, -⟩ := hmove
        · exact Or.inl ⟨b, rfl, hallows, hstep⟩
        · refine Or.inr ⟨?_, hsame⟩
          rintro b ⟨⟩
          exact hidle b rfl
      · rw [List.getElem?_set_ne hk] at hx
        refine ⟨x, hx, Or.inr ⟨?_, rfl⟩⟩
        rintro b ⟨⟩
        exact hk rfl
  | parser a =>
      rw [(parserStep_frame h).1] at hx
      exact ⟨x, hx, Or.inr ⟨by simp, rfl⟩⟩
  | sink j a =>
      obtain ⟨sub, sub', -, -, rfl⟩ := sinkStep_spec h
      exact ⟨x, hx, Or.inr ⟨by simp, rfl⟩⟩
  | supervisor a =>
      obtain heq | ⟨task, htask, -, hjoined⟩ := (superviseStep_spec h).source i
      · exact ⟨x, heq ▸ hx, Or.inr ⟨by simp, rfl⟩⟩
      · rw [hjoined] at hx
        cases hx
        exact ⟨task, htask, Or.inr ⟨by simp, rfl⟩⟩

/-- **What a step does to a subscriber**: nothing, an offer, a step of its sink, or the
joining of its task. -/
theorem step_sub {a : RuntimeAction} {j : ℕ} {x : Subscriber} (h : s.step setup a = some t)
    (hx : t.subs[j]? = some x) : ∃ sub, s.subs[j]? = some sub ∧
      (x = sub ∨ (∃ env, x = sub.offer env) ∨ (∃ b, sub.step (s.sinkView j) b = some x) ∨
        sub.stage = .finished ∧ x = { sub with stage := .joined }) := by
  cases a with
  | signal =>
      cases h
      exact ⟨x, hx, Or.inl rfl⟩
  | source i a =>
      obtain ⟨task, task', lines, -, rfl, -⟩ := sourceStep_spec h
      exact ⟨x, hx, Or.inl rfl⟩
  | parser a =>
      obtain hsubs | ⟨next, env, hsubs⟩ := parserStep_subs h
      · exact ⟨x, hsubs ▸ hx, Or.inl rfl⟩
      · rw [hsubs, List.getElem?_modify] at hx
        obtain ⟨sub, hsub, rfl⟩ := Option.map_eq_some_iff.mp hx
        refine ⟨sub, hsub, ?_⟩
        split_ifs
        · exact Or.inr (Or.inl ⟨env, rfl⟩)
        · exact Or.inl rfl
  | sink k a =>
      obtain ⟨sub, sub', hsub, hsink, rfl⟩ := sinkStep_spec h
      by_cases hk : k = j
      · subst hk
        rw [List.getElem?_set_self (List.getElem?_eq_some_iff.mp hsub).1] at hx
        cases hx
        exact ⟨sub, hsub, Or.inr (Or.inr (Or.inl ⟨a, hsink⟩))⟩
      · rw [List.getElem?_set_ne hk] at hx
        exact ⟨x, hx, Or.inl rfl⟩
  | supervisor a =>
      obtain heq | ⟨sub, hsub, hstage, hjoined⟩ := (superviseStep_spec h).sub j
      · exact ⟨x, heq ▸ hx, Or.inl rfl⟩
      · rw [hjoined] at hx
        cases hx
        exact ⟨sub, hsub, Or.inr (Or.inr (Or.inr ⟨hstage, rfl⟩))⟩

/-- **A step takes nothing back**: neither a signal or an abort nor the drop of a sender. -/
theorem step_flags {a : RuntimeAction} (h : s.step setup a = some t) :
    (t.shutdown = false → s.shutdown = false) ∧ (t.abortSinks = false → s.abortSinks = false) ∧
      ∀ j, s.senderDropped j = true → t.senderDropped j = true := by
  cases a with
  | signal =>
      cases h
      exact ⟨nofun, id, fun _ => id⟩
  | source i a =>
      obtain ⟨task, task', lines, -, rfl, -⟩ := sourceStep_spec h
      exact ⟨id, id, fun _ => id⟩
  | parser a =>
      obtain ⟨-, hshutdown, hsinks, -⟩ := parserStep_frame h
      refine ⟨?_, ?_, parserStep_senderDropped h⟩
      · rw [hshutdown]
        exact id
      · rw [hsinks]
        exact id
  | sink j a =>
      obtain ⟨sub, sub', -, -, rfl⟩ := sinkStep_spec h
      exact ⟨id, id, fun _ => id⟩
  | supervisor a =>
      have hjoins := superviseStep_spec h
      refine ⟨?_, ?_, ?_⟩
      · rw [hjoins.shutdown]
        exact id
      · intro hopen
        by_contra hs
        rw [hjoins.abortSinks (Bool.eq_true_of_not_eq_false hs)] at hopen
        cases hopen
      · intro j hdropped
        unfold senderDropped at hdropped ⊢
        rw [hjoins.parser]
        exact hdropped

end Runtime

end PurpleWolf.Relay
