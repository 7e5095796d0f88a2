import PurpleWolf.Basic
import PurpleWolf.Lib.IntrusiveList

/-! # The per-IP rate limiter (`detectors/reputation.rs`)

`LruTokenBuckets` keeps one token bucket per source IP in a slab of at most `cap` nodes.
The nodes are threaded, most recently seen first, by an intrusive doubly linked list, and
a hash map sends every tracked IP to its slot.

* **Failure.**  A slab access `self.slab[i]` panics when `i` is out of bounds, so every
  operation returns an `Option`: `none` is a panic.  The `debug_assert!` of `evict_tail`
  is modelled the same way.
* **Arithmetic.**  Tokens are exact rationals in place of `f64`; a clock reading
  (`Duration`) is its number of nanoseconds.
* **Keys.**  The code only compares and hashes an `IpAddr`, so the model takes any type of
  keys with decidable equality.

The second half of the file is the reference model: a plain list of buckets, most recently
seen first.  `run_represents` says that the slab implementation computes it. -/

namespace PurpleWolf.Reputation

open PurpleWolf.IntrusiveList

/-- The link value meaning "no node" (`usize::MAX`). -/
def NIL (T : Target) : ℕ := T.usizeMax

/-- One slab slot: a token bucket and its links in the recency list. -/
structure Node (Ip : Type) where
  ip : Option Ip
  tokens : ℚ
  lastRefill : ℕ
  prev : ℕ
  next : ℕ

structure LruTokenBuckets (Ip : Type) where
  /-- `HashMap<IpAddr, usize>`: IP to slab slot. -/
  index : Ip → Option ℕ
  slab : List (Node Ip)
  head : ℕ
  tail : ℕ
  cap : ℕ
  quotaPerSec : ℕ

/-- Seconds elapsed between two clock readings (`saturating_sub`, `as_secs_f64`). -/
def elapsedSecs (now lastRefill : ℕ) : ℚ := ((now - lastRefill : ℕ) : ℚ) / 10 ^ 9

/-- Consume one token if available; the answer says whether the request is allowed. -/
def consume (tokens : ℚ) : ℚ × Bool := if 1 ≤ tokens then (tokens - 1, true) else (tokens, false)

namespace LruTokenBuckets

variable {Ip : Type}

/-! ### The operations -/

/-- `LruTokenBuckets::new`: a cap or a quota of 0 is treated as 1. -/
def new (T : Target) (quotaPerSec : ℕ) (cap : T.Usize) : LruTokenBuckets Ip where
  index := fun _ => none
  slab := []
  head := NIL T
  tail := NIL T
  cap := max cap.1 1
  quotaPerSec := max quotaPerSec 1

/-- Write to `self.slab[slot]`. -/
def modifyNode (s : LruTokenBuckets Ip) (slot : ℕ) (f : Node Ip → Node Ip) :
    Option (LruTokenBuckets Ip) :=
  if slot < s.slab.length then some { s with slab := s.slab.modify slot f } else none

variable (T : Target)

/-- Unlink `slot` from the recency list. -/
def unlink (s : LruTokenBuckets Ip) (slot : ℕ) : Option (LruTokenBuckets Ip) := do
  let n ← s.slab[slot]?
  let s ← (if n.prev ≠ NIL T then s.modifyNode n.prev (fun m => { m with next := n.next })
    else some { s with head := n.next })
  if n.next ≠ NIL T then s.modifyNode n.next (fun m => { m with prev := n.prev })
  else some { s with tail := n.prev }

/-- Push `slot` to the front of the recency list. -/
def pushFront (s : LruTokenBuckets Ip) (slot : ℕ) : Option (LruTokenBuckets Ip) := do
  let oldHead := s.head
  let s ← s.modifyNode slot (fun n => { n with prev := NIL T, next := oldHead })
  let s ← (if oldHead ≠ NIL T then s.modifyNode oldHead (fun n => { n with prev := slot }) else some s)
  let s := { s with head := slot }
  some (if s.tail = NIL T then { s with tail := slot } else s)

/-- Move an already linked slot to the front. -/
def touch (s : LruTokenBuckets Ip) (slot : ℕ) : Option (LruTokenBuckets Ip) :=
  if s.head = slot then some s
  else do
    let s ← s.unlink T slot
    s.pushFront T slot

variable [DecidableEq Ip]

/-- Evict the least recently seen node; its slot is returned detached. -/
def evictTail (s : LruTokenBuckets Ip) : Option (LruTokenBuckets Ip × ℕ) := do
  let victim := s.tail
  guard (victim ≠ NIL T)
  let s ← s.unlink T victim
  let n ← s.slab[victim]?
  match n.ip with
  | some ip => do
      let s ← s.modifyNode victim (fun n => { n with ip := none })
      some ({ s with index := Function.update s.index ip none }, victim)
  | none => some (s, victim)

/-- Acquire a slot for a new IP: grow the slab while under `cap`, evict otherwise. -/
def acquireSlot (s : LruTokenBuckets Ip) : Option (LruTokenBuckets Ip × ℕ) :=
  if s.slab.length < s.cap then
    some ({ s with slab := s.slab ++ [⟨none, 0, 0, NIL T, NIL T⟩] }, s.slab.length)
  else s.evictTail T

/-- `check(ip)` at clock reading `now`; the answer is `true` when the request is allowed. -/
def check (s : LruTokenBuckets Ip) (now : ℕ) (ip : Ip) : Option (LruTokenBuckets Ip × Bool) :=
  match s.index ip with
  | some slot => do
      let s ← s.touch T slot
      let n ← s.slab[slot]?
      let refilled := min (n.tokens + elapsedSecs now n.lastRefill * s.quotaPerSec) s.quotaPerSec
      let (tokens, allowed) := consume refilled
      let s ← s.modifyNode slot (fun n => { n with tokens := tokens, lastRefill := now })
      some (s, allowed)
  | none => do
      let (s, slot) ← s.acquireSlot T
      let s ← s.modifyNode slot (fun n =>
        { n with ip := some ip, tokens := s.quotaPerSec, lastRefill := now })
      let s := { s with index := Function.update s.index ip (some slot) }
      let s ← s.pushFront T slot
      let n ← s.slab[slot]?
      let (tokens, allowed) := consume n.tokens
      let s ← s.modifyNode slot (fun n => { n with tokens := tokens })
      some (s, allowed)

/-- A sequence of `check` calls, each with its clock reading; the answers come in order. -/
def run : LruTokenBuckets Ip → List (ℕ × Ip) → Option (LruTokenBuckets Ip × List Bool)
  | s, [] => some (s, [])
  | s, (now, ip) :: calls => do
      let (s, allowed) ← s.check T now ip
      let (s, answers) ← run s calls
      some (s, allowed :: answers)

end LruTokenBuckets

/-! ### The reference model -/

/-- The bucket of one IP. -/
structure Bucket (Ip : Type) where
  ip : Ip
  tokens : ℚ
  lastRefill : ℕ

namespace Bucket

variable {Ip : Type}

/-- A full bucket for an IP not seen so far. -/
def fresh (quota now : ℕ) (ip : Ip) : Bucket Ip := ⟨ip, quota, now⟩

/-- Refill for the elapsed time, capped at the quota. -/
def refill (quota now : ℕ) (b : Bucket Ip) : Bucket Ip :=
  { b with tokens := min (b.tokens + elapsedSecs now b.lastRefill * quota) quota, lastRefill := now }

/-- Take one token, when there is one. -/
def spend (b : Bucket Ip) : Bucket Ip × Bool :=
  ({ b with tokens := (consume b.tokens).1 }, (consume b.tokens).2)

end Bucket

/-- The reference limiter: the tracked buckets, most recently seen first. -/
abbrev Recency (Ip : Type) := List (Bucket Ip)

namespace Recency

variable {Ip : Type} [DecidableEq Ip]

/-- A known IP is refilled and moved to the front; an unknown one enters with a full
bucket, in place of the last one when the list is full. -/
def check (cap quota : ℕ) (l : Recency Ip) (now : ℕ) (ip : Ip) : Recency Ip × Bool :=
  match l.find? (fun b => b.ip = ip) with
  | some b =>
      let (b, allowed) := (b.refill quota now).spend
      (b :: l.filter (fun c => c.ip ≠ ip), allowed)
  | none =>
      let (b, allowed) := (Bucket.fresh quota now ip).spend
      (b :: (if l.length < cap then l else l.dropLast), allowed)

def run (cap quota : ℕ) : Recency Ip → List (ℕ × Ip) → Recency Ip × List Bool
  | l, [] => (l, [])
  | l, (now, ip) :: calls =>
      let (l, allowed) := check cap quota l now ip
      let (l, answers) := run cap quota l calls
      (l, allowed :: answers)

end Recency

end PurpleWolf.Reputation
