import PurpleWolf.Relay.LogTail
import PurpleWolf.Relay.Sink
import PurpleWolf.Relay.Stdin

/-! # Sources as tasks (`sources/mod.rs`)

A source of either kind sends its lines into one channel.  An action of a source is its
own, or one of its environment (the writer of the log, the other end of the stream); an
action of its own may call for something of the pipeline (`Need`). -/

namespace PurpleWolf.Relay

/-- A source that runs, or a `log_tail` source whose file could not be opened, and which has
returned with that error. -/
inductive Source where
  | logTail (w : LogTail.World)
  | stdin (r : Stdin.Reader)
  | unopened
  deriving DecidableEq

inductive SourceAction where
  | logTail (a : LogTail.Action)
  | stdin (a : Stdin.Action)
  deriving DecidableEq

/-- What an action takes from the rest: nothing at all, as it is none of the task, nothing
but the task, the shutdown signal, room in the channel, or that the channel is closed. -/
inductive Need where
  | environment
  | nothing
  | shutdown
  | room
  | closed
  deriving DecidableEq

def SourceAction.need : SourceAction → Need
  | .logTail (.writer _) => .environment
  | .logTail (.tail (.shutdown _)) => .shutdown
  | .logTail (.tail (.accept _)) => .room
  | .logTail (.tail (.closed _)) => .closed
  | .logTail (.tail _) => .nothing
  | .stdin (.arrive _) => .environment
  | .stdin .hangUp => .environment
  | .stdin .shutdown => .shutdown
  | .stdin .accept => .room
  | .stdin .closed => .closed
  | .stdin _ => .nothing

namespace Source

def step : Source → SourceAction → Option Source
  | .logTail w, .logTail a => (w.step a).map .logTail
  | .stdin r, .stdin a => (r.step a).map .stdin
  | _, _ => none

/-- The result of `Source::run`, once it has returned: whether it is `Ok`. -/
def result : Source → Option Bool
  | .logTail w =>
      match w.tail.phase with
      | .stopped ok => some ok
      | _ => none
  | .stdin r =>
      match r.phase with
      | .stopped ok => some ok
      | _ => none
  | .unopened => some false

/-- The line that the source has in hand. -/
def pending : Source → List Bytes
  | .logTail w => w.tail.phase.pending
  | .stdin r => r.phase.pending
  | .unopened => []

/-- The lines that the channel has accepted. -/
def sent : Source → List Bytes
  | .logTail w => w.sent
  | .stdin r => r.sent
  | .unopened => []

/-- The lines that an action hands to the channel. -/
def output (source : Source) (a : SourceAction) : List Bytes :=
  match a.need with
  | .room => source.pending
  | _ => []

end Source

/-- A source and the task that runs it. -/
structure SourceTask where
  source : Source
  stage : Stage
  deriving DecidableEq

/-- The task holds a sender of the channel until `Source::run` returns or is dropped. -/
def SourceTask.senderDropped (task : SourceTask) : Bool :=
  task.stage ≠ .running || task.source.result.isSome

/-! ### What a source counts as sent -/

theorem LogTail.World.tailStep_sent {w w' : LogTail.World} {a : LogTail.TailAction} (h : w.tailStep a = some w') :
    w'.sent = w.sent ++ (Source.logTail w).output (.logTail (.tail a)) := by
  cases LogTail.World.tailStep_spec h with
  | shutdown | closed => simp [Source.output, SourceAction.need]
  | readLine =>
      rw [show (Source.logTail w).output (.logTail (.tail .readLine)) = [] from rfl, List.append_nil]
      unfold LogTail.World.readLine
      simp only
      split_ifs <;> rfl
  | readError | wake => exact (List.append_nil _).symm
  | check =>
      rw [show (Source.logTail w).output (.logTail (.tail (.check _))) = [] from rfl, List.append_nil]
      unfold LogTail.World.check
      split <;> simp
  | @accept b line hphase =>
      have houtput : (Source.logTail w).output (.logTail (.tail (.accept b))) = [line] := by
        show w.tail.phase.pending = [line]
        rw [hphase]
        rfl
      rw [houtput]
      unfold LogTail.World.accept
      simp only
      split_ifs <;> simp

theorem Stdin.Reader.step_sent {r r' : Stdin.Reader} {a : Stdin.Action} (h : r.step a = some r') :
    r'.sent = r.sent ++ (Source.stdin r).output (.stdin a) := by
  unfold Stdin.Reader.step at h
  split at h
  case h_1 =>
      split_ifs at h
      cases h
      exact (List.append_nil _).symm
  case h_2 =>
      split_ifs at h
      cases h
      exact (List.append_nil _).symm
  case h_3 =>
      cases h
      exact (List.append_nil _).symm
  case h_4 =>
      split_ifs at h
      cases h
      rw [show (Source.stdin r).output (.stdin .readLine) = [] from rfl, List.append_nil]
      unfold Stdin.Reader.readLine
      simp only
      split_ifs <;> rfl
  case h_5 =>
      cases h
      exact (List.append_nil _).symm
  case h_6 line hphase =>
      cases h
      have houtput : (Source.stdin r).output (.stdin .accept) = [line] := by
        show r.phase.pending = [line]
        rw [hphase]
        rfl
      rw [houtput]
  case h_7 =>
      cases h
      exact (List.append_nil _).symm
  case h_8 => cases h

/-- **The channel gets what a source counts as sent.** -/
theorem Source.step_sent {source source' : Source} {a : SourceAction} (h : source.step a = some source') :
    source'.sent = source.sent ++ source.output a := by
  unfold Source.step at h
  split at h
  · rename_i w a
    obtain ⟨w', hw, rfl⟩ := Option.map_eq_some_iff.mp h
    cases a with
    | writer a =>
        obtain ⟨files, -, rfl⟩ := Option.map_eq_some_iff.mp hw
        exact (List.append_nil _).symm
    | tail a => exact LogTail.World.tailStep_sent hw
  · rename_i r a
    obtain ⟨r', hr, rfl⟩ := Option.map_eq_some_iff.mp h
    exact Stdin.Reader.step_sent hr
  · cases h

end PurpleWolf.Relay
