import PurpleWolf.Relay.Sink

/-! # The dead-letter queue over its life (`subscribers/dlq.rs`)

Failed envelopes are pushed to the queue, which drops the oldest one when it is full, and all
of them are taken out at once for a replay.  A `Ledger` follows a queue and notes what has been
pushed and handed out; `Accounts` is what holds between the notes and the queue, and
`ledger_accounts` that it holds after any operations. -/

namespace PurpleWolf.Relay

namespace Dlq

/-- Drain all entries. -/
def drainAll (dlq : Dlq) : List Envelope × Dlq := (dlq.queue, { dlq with queue := [] })

/-- Read-only snapshot of the current contents. -/
def snapshot (dlq : Dlq) : List Envelope := dlq.queue

inductive Op where
  | push (env : Envelope)
  | drainAll

/-- A queue, everything that has been pushed to it, what of that came after the last drain, and
what the drains have handed out. -/
structure Ledger where
  dlq : Dlq
  pushed : List Envelope
  sinceDrain : List Envelope
  handedOut : List Envelope

namespace Ledger

def new (capacity : ℕ) : Ledger := ⟨.new capacity, [], [], []⟩

def step (s : Ledger) : Op → Ledger
  | .push env =>
      { s with dlq := s.dlq.push env, pushed := s.pushed ++ [env], sinceDrain := s.sinceDrain ++ [env] }
  | .drainAll =>
      let (drained, dlq) := s.dlq.drainAll
      { s with dlq := dlq, sinceDrain := [], handedOut := s.handedOut ++ drained }

theorem step_push (s : Ledger) (env : Envelope) : s.step (.push env) =
    ⟨s.dlq.push env, s.pushed ++ [env], s.sinceDrain ++ [env], s.handedOut⟩ := rfl

/-- The ledger after some operations on a new queue. -/
def run (capacity : ℕ) (ops : List Op) : Ledger := ops.foldl step (.new capacity)

end Ledger

/-- **The books of a queue.**  It holds the last envelopes since the drain, and with those that
were handed out and those that were dropped they are the ones that were pushed. -/
structure Accounts (capacity : ℕ) (s : Ledger) (dropped : List Envelope) : Prop where
  capacity_eq : s.dlq.capacity = capacity
  queue_eq : s.dlq.queue = s.sinceDrain.rtake capacity
  perm : s.pushed.Perm (s.handedOut ++ s.dlq.queue ++ dropped)
  overflow_eq : s.dlq.overflowCount = min dropped.length U64_MAX

variable {capacity : ℕ} {s : Ledger} {dropped : List Envelope}

theorem Accounts.new (capacity : ℕ) : Accounts capacity (.new capacity) [] :=
  ⟨rfl, (List.rtake_nil capacity).symm, List.Perm.refl _, rfl⟩

/-- The last elements after one more: the oldest of them goes if they are too many. -/
theorem rtake_concat {α : Type} (l : List α) (x : α) {n : ℕ} (hn : 0 < n) :
    (l ++ [x]).rtake n = (if (l.rtake n).length ≥ n then (l.rtake n).tail else l.rtake n) ++ [x] := by
  unfold List.rtake
  rw [List.length_drop, List.length_append, List.length_singleton]
  split_ifs with hfull
  · have hlen : l.length + 1 - n = l.length - n + 1 := by omega
    rw [List.tail_drop, hlen, List.drop_append_of_le_length (by omega)]
  · have hlen : l.length + 1 - n = l.length - n := by omega
    rw [hlen, List.drop_append_of_le_length (by omega)]

theorem perm_replace {α : Type} (handed rest dropped : List α) (oldest x : α) :
    (handed ++ oldest :: rest ++ dropped ++ [x]).Perm (handed ++ (rest ++ [x]) ++ (dropped ++ [oldest])) := by
  have holdest : ((oldest :: rest : List α) : Multiset α) = {oldest} + rest := by
    rw [← Multiset.cons_coe, Multiset.singleton_add]
  rw [← Multiset.coe_eq_coe]
  simp only [← Multiset.coe_add, Multiset.coe_singleton, holdest]
  abel

theorem perm_add {α : Type} (handed queue dropped : List α) (x : α) :
    (handed ++ queue ++ dropped ++ [x]).Perm (handed ++ (queue ++ [x]) ++ dropped) := by
  rw [← Multiset.coe_eq_coe]
  simp only [← Multiset.coe_add, Multiset.coe_singleton]
  abel

/-- A push keeps the books: it drops the oldest envelope of a full queue. -/
theorem Accounts.push (hcap : 1 ≤ capacity) (h : Accounts capacity s dropped) (env : Envelope) :
    ∃ dropped', Accounts capacity (s.step (.push env)) dropped' := by
  have hqueue := rtake_concat s.sinceDrain env hcap
  have hperm := h.perm.append_right [env]
  rw [← h.queue_eq] at hqueue
  by_cases hfull : s.dlq.queue.length ≥ capacity
  · rw [if_pos hfull] at hqueue
    obtain ⟨oldest, rest, hheld⟩ := List.exists_cons_of_length_pos (Nat.lt_of_lt_of_le hcap hfull)
    have hpush : s.dlq.push env = ⟨capacity, rest ++ [env], min (s.dlq.overflowCount + 1) U64_MAX⟩ := by
      unfold Dlq.push
      rw [h.capacity_eq, if_pos hfull, hheld]
      rfl
    rw [hheld] at hqueue hperm
    refine ⟨dropped ++ [oldest], ?_⟩
    rw [Ledger.step_push, hpush]
    constructor
    · rfl
    · exact hqueue.symm
    · exact hperm.trans (perm_replace s.handedOut rest dropped oldest env)
    · simp only [h.overflow_eq, List.length_append, List.length_singleton]
      omega
  · rw [if_neg hfull] at hqueue
    have hpush : s.dlq.push env = ⟨capacity, s.dlq.queue ++ [env], s.dlq.overflowCount⟩ := by
      unfold Dlq.push
      rw [h.capacity_eq, if_neg hfull]
    refine ⟨dropped, ?_⟩
    rw [Ledger.step_push, hpush]
    exact ⟨rfl, hqueue.symm, hperm.trans (perm_add s.handedOut s.dlq.queue dropped env), h.overflow_eq⟩

/-- So does a drain: what was held is handed out. -/
theorem Accounts.drainAll (h : Accounts capacity s dropped) : Accounts capacity (s.step .drainAll) dropped := by
  constructor
  · exact h.capacity_eq
  · exact (List.rtake_nil capacity).symm
  · have hperm := h.perm
    unfold Ledger.step Dlq.drainAll
    simpa using hperm
  · exact h.overflow_eq

theorem ledger_accounts (hcap : 1 ≤ capacity) (ops : List Op) :
    ∃ dropped, Accounts capacity (.run capacity ops) dropped := by
  unfold Ledger.run
  induction ops using List.reverseRecOn with
  | nil => exact ⟨[], Accounts.new capacity⟩
  | append_singleton ops op ih =>
      obtain ⟨dropped, h⟩ := ih
      rw [List.foldl_append, List.foldl_cons, List.foldl_nil]
      cases op with
      | push env => exact h.push hcap env
      | drainAll => exact ⟨dropped, h.drainAll⟩

/-- **No envelope is lost track of.**  The queue holds exactly the last envelopes that were
pushed since the last drain, as many as it has room for; and every envelope that was pushed is
still held, was handed out once, or was dropped and counted. -/
theorem snapshot_spec (hcap : 1 ≤ capacity) (ops : List Op) :
    let s := Ledger.run capacity ops
    s.dlq.snapshot = s.sinceDrain.rtake (min capacity s.sinceDrain.length) ∧
      s.dlq.snapshot.length ≤ capacity ∧
      (∃ dropped, s.pushed.Perm (s.handedOut ++ s.dlq.snapshot ++ dropped) ∧
        s.dlq.overflowCount = min dropped.length U64_MAX) ∧
      (s.dlq.overflowCount < U64_MAX →
        s.pushed.length = s.handedOut.length + s.dlq.snapshot.length + s.dlq.overflowCount) := by
  intro s
  obtain ⟨dropped, h⟩ := ledger_accounts hcap ops
  have hsnapshot : s.dlq.snapshot = s.sinceDrain.rtake capacity := h.queue_eq
  have hperm : s.pushed.Perm (s.handedOut ++ s.dlq.snapshot ++ dropped) := h.perm
  refine ⟨?_, ?_, ⟨dropped, hperm, h.overflow_eq⟩, ?_⟩
  · rw [hsnapshot]
    unfold List.rtake
    congr 1
    omega
  · rw [hsnapshot]
    unfold List.rtake
    rw [List.length_drop]
    omega
  · intro hcount
    have hoverflow : s.dlq.overflowCount = min dropped.length U64_MAX := h.overflow_eq
    have hlength := hperm.length_eq
    rw [List.length_append, List.length_append] at hlength
    omega

/-- A queue for two envelopes drops the first of three, and is then drained for a fourth one. -/
theorem snapshot_spec_three :
    let env : ℕ → Envelope := (Envelope.new "id".toList 0 .null ⟨none, none, none, []⟩ ∅).withAttempt "id".toList 0
    let s := Ledger.run 2 [.push (env 1), .push (env 2), .push (env 3), .drainAll, .push (env 4)]
    s.handedOut = [env 2, env 3] ∧ s.dlq.snapshot = [env 4] ∧ 4 = 2 + 1 + s.dlq.overflowCount := by
  intro env s
  have hspec := snapshot_spec (by decide : 1 ≤ 2)
    [.push (env 1), .push (env 2), .push (env 3), .drainAll, .push (env 4)]
  exact ⟨rfl, hspec.1, hspec.2.2.2 (by decide)⟩

end Dlq

end PurpleWolf.Relay
