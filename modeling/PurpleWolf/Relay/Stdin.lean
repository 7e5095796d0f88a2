import PurpleWolf.Basic
import PurpleWolf.Lib.Lines
import PurpleWolf.Lib.Transition
import PurpleWolf.Lib.Utf8

/-! # The `stdin` source (`sources/stdin.rs`)

`run_reader` reads lines from a stream until its end.  Bytes arrive when they like; a call
of `read_line` is answered once a newline has arrived or the stream has ended. -/

namespace PurpleWolf.Relay.Stdin

/-- Where `run_reader` stands: in its `select!`, sending a line, or returned. -/
inductive Phase where
  | reading
  | sending (line : Bytes)
  | stopped (ok : Bool)
  deriving DecidableEq

inductive Action where
  | arrive (bytes : Bytes)
  | hangUp
  | shutdown
  | readLine
  | readError
  | accept
  | closed
  deriving DecidableEq

/-- The bytes that have arrived and have not been handed out, whether the stream has ended,
and the lines that the channel has accepted. -/
structure Reader where
  rest : Bytes
  ended : Bool
  phase : Phase
  sent : List Bytes
  deriving DecidableEq

namespace Reader

def start : Reader := ⟨[], false, .reading, []⟩

/-- `read_line`, and what the loop does with its result. -/
def readLine (r : Reader) : Reader :=
  let line := nextLine r.rest
  if line = [] then { r with phase := .stopped true }
  else if Utf8.decode? line = none then { r with phase := .stopped false }
  else { r with rest := r.rest.drop line.length, phase := .sending line }

def step (r : Reader) (a : Action) : Option Reader :=
  match a, r.phase with
  | .arrive bytes, _ => if r.ended then none else some { r with rest := r.rest ++ bytes }
  | .hangUp, _ => if r.ended then none else some { r with ended := true }
  | .shutdown, .reading => some { r with phase := .stopped true }
  | .readLine, .reading => if newline ∈ r.rest ∨ r.ended then some r.readLine else none
  | .readError, .reading => some { r with phase := .stopped false }
  | .accept, .sending line => some { r with phase := .reading, sent := r.sent ++ [line] }
  | .closed, .sending _ => some { r with phase := .stopped true }
  | _, _ => none

end Reader

/-- The line in the hands of the source. -/
def Phase.pending : Phase → List Bytes
  | .sending line => [line]
  | _ => []

def Phase.isStopped : Phase → Bool
  | .stopped _ => true
  | _ => false

end PurpleWolf.Relay.Stdin
