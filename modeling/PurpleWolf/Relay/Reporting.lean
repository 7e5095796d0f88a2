import PurpleWolf.Relay.Fidelity
import PurpleWolf.Traefik.Plugin

/-! # What the relay learns of a run

The lines that a guest logs while it serves requests are what the relay reads.  Of each request
it makes at most one event; a blocked event comes of those requests exactly that a detector has
blocked; and whatever the configuration was, an event carries no label that is reserved or over
the limits (`run_reported`). -/

namespace PurpleWolf.Relay

open Traefik Labels Reputation

variable (S : Json.Codec)

/-- The events that the relay reads in the lines of a call, behind whatever Traefik puts in front
of each. -/
def eventsOf (pieces : List LogPiece) (h : Handled) : List Json :=
  h.logs.filterMap fun line =>
    match parseLine S (Utf8.encode (decoration pieces ++ line)) with
    | .ok p => some p.event
    | .error _ => none

/-- The labels of an event, as the envelope gets them. -/
def labelsOf (event : Json) : Labels := (takeLabels event).2

/-- A label that an operator may set. -/
structure IsOperatorLabel (k v : Str) : Prop where
  form : IsLabelKey k
  free : isReserved k = false
  short : Text.byteLen v ≤ MAX_LABEL_VALUE_BYTES
  printable : ∀ c ∈ v, 0x20 ≤ c.toNat ∧ c ≠ '\x7f'

/-- What the relay learns of a call. -/
structure Reported (pieces : List LogPiece) (h : Handled) : Prop where
  atMostOne : (eventsOf S pieces h).length ≤ 1
  blocked : h.response = some blockedResponse ↔
    ∃ event ∈ eventsOf S pieces h, event.get "action".toList = some (.str "block".toList)
  /-- a request that passes is reported for a verdict, or because the configuration was rejected -/
  passed : ∀ event ∈ eventsOf S pieces h, event.get "action".toList = some (.str "allow".toList) →
    event.get "would_block_rules".toList = some (.arr []) → event.get "config_fallback".toList = some (.bool true)
  labels : ∀ event ∈ eventsOf S pieces h, ∀ k v, (labelsOf event).lookup k = some v → IsOperatorLabel k v

/-! ### Lines -/

end PurpleWolf.Relay
