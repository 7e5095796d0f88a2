import PurpleWolf.Lib.Serial
import PurpleWolf.Relay.Pipeline

/-! # Delivery to one subscriber (`subscribers/http.rs`, `subscribers/dlq.rs`)

A subscriber has a bounded queue, filled by the fan-out, and a sink task that takes the
envelopes from it and posts them, with retries, until they are delivered or go to the
dead-letter queue.

* **Replies.**  What a post comes to is an input of the model (`Reply`), as are the new
  delivery id and the clock reading of a retry.
* **Counters.**  A counter is modelled by the list of the envelopes it has been bumped for.
  A bump is one step with the queue, DLQ or return operation that it accompanies.
* **Envelopes** are shared as `Arc`s; `seq` stands for the identity of the `Arc`. -/

namespace PurpleWolf.Relay

/-- An `Arc<Envelope>`: the envelope, and its place in the order in which `fan_out` gets them. -/
structure SharedEnvelope where
  seq : ℕ
  env : Envelope

/-- `Envelope::with_attempt`, with the new ULID and the clock reading. -/
def Envelope.withAttempt (env : Envelope) (id : Str) (now n : ℕ) : Envelope :=
  { env with deliveryId := id, deliveredAt := now, attempt := n }

/-! ### The dead-letter queue -/

structure Dlq where
  capacity : ℕ
  queue : List Envelope
  overflowCount : ℕ

namespace Dlq

def U64_MAX : ℕ := 2 ^ 64 - 1

def new (capacity : ℕ) : Dlq := ⟨capacity, [], 0⟩

/-- Push to the tail, dropping the head if at capacity. -/
def push (dlq : Dlq) (env : Envelope) : Dlq :=
  if dlq.queue.length ≥ dlq.capacity then
    { dlq with queue := dlq.queue.tail ++ [env], overflowCount := min (dlq.overflowCount + 1) U64_MAX }
  else { dlq with queue := dlq.queue ++ [env] }

end Dlq

/-! ### One attempt -/

inductive AttemptOutcome where
  | delivered
  | retryable
  | permanentFailure
  deriving DecidableEq

def classifyStatus (status : ℕ) : AttemptOutcome :=
  if 200 ≤ status ∧ status ≤ 299 then .delivered
  else if status = 408 ∨ status = 429 ∨ (500 ≤ status ∧ status ≤ 599) then .retryable
  else .permanentFailure

/-- What becomes of a post. -/
inductive Reply where
  /-- The envelope could not be serialised; nothing was posted. -/
  | unserializable
  | status (code : ℕ)
  /-- A timeout or a network error. -/
  | error

def attemptOne : Reply → AttemptOutcome
  | .unserializable => .permanentFailure
  | .status code => classifyStatus code
  | .error => .retryable

/-! ### The subscriber -/

/-- The variables of `deliver_with_retries`. -/
structure Delivery where
  initialEnv : SharedEnvelope
  env : Envelope
  attempt : ℕ

namespace Delivery

def start (initialEnv : SharedEnvelope) : Delivery := ⟨initialEnv, initialEnv.env, 1⟩

/-- The end of the retry branch. -/
def retry (d : Delivery) (id : Str) (now : ℕ) : Delivery :=
  { d with env := d.env.withAttempt id now (d.attempt + 1), attempt := d.attempt + 1 }

end Delivery

/-- How far a spawned task is: running, finished, or removed from its `JoinSet`. -/
inductive Stage where
  | running
  | finished
  | joined
  deriving DecidableEq

/-- Where `run_sink` stands: in its `select!`, in `deliver_with_retries` (waiting for a
reply or sleeping before the next attempt), or gone, its receiver dropped. -/
inductive SinkPhase where
  | receiving
  | delivering (d : Delivery) (sleeping : Bool)
  | returned

/-- The start of an attempt. -/
structure Attempt where
  initialEnv : SharedEnvelope
  body : Envelope
  number : ℕ

/-- One enabled subscriber: what `pipeline::run` sets up for it, its queue and its sink
task.  `accepted` are the envelopes for which `try_send` has returned `Ok`. -/
structure Subscriber where
  id : Str
  filter : Envelope → Bool
  maxAttempts : ℕ
  capacity : ℕ
  queue : List SharedEnvelope
  sink : SinkPhase
  stage : Stage
  dlq : Dlq
  attempts : List Attempt
  accepted : List SharedEnvelope
  subscribersMatched : List SharedEnvelope
  delivered : List SharedEnvelope
  deadLettered : List SharedEnvelope
  retried : List SharedEnvelope
  droppedQueueFull : List SharedEnvelope
  droppedChannelClosed : List SharedEnvelope

/-- What a sink task sees of the rest of the pipeline. -/
structure SinkView where
  shutdown : Bool
  senderDropped : Bool
  aborted : Bool

inductive SinkAction where
  | receive
  | inputClosed
  | shutdown
  | reply (r : Reply)
  | wake (id : Str) (now : ℕ)
  | finish
  | cancel

/-- The parts of the configuration of a subscriber that matter here. -/
structure SubscriberConfig where
  id : Str
  enabled : Bool
  filter : Envelope → Bool
  maxAttempts : ℕ

namespace Subscriber

/-- What `pipeline::run` sets up for an enabled subscriber. -/
def new (c : SubscriberConfig) (subscriberQueue : ℕ) : Subscriber where
  id := c.id
  filter := c.filter
  maxAttempts := c.maxAttempts
  capacity := subscriberQueue
  queue := []
  sink := .receiving
  stage := .running
  dlq := .new 1000
  attempts := []
  accepted := []
  subscribersMatched := []
  delivered := []
  deadLettered := []
  retried := []
  droppedQueueFull := []
  droppedChannelClosed := []

def receiverDropped (sub : Subscriber) : Bool :=
  match sub.sink with
  | .returned => true
  | _ => false

/-- `try_send`, and the counter that its result bumps. -/
def trySend (sub : Subscriber) (env : SharedEnvelope) : Subscriber :=
  if sub.receiverDropped then { sub with droppedChannelClosed := sub.droppedChannelClosed ++ [env] }
  else if sub.queue.length < sub.capacity then
    { sub with queue := sub.queue ++ [env], accepted := sub.accepted ++ [env] }
  else { sub with droppedQueueFull := sub.droppedQueueFull ++ [env] }

/-- The body of the loop of `fan_out`. -/
def offer (sub : Subscriber) (env : SharedEnvelope) : Subscriber :=
  if sub.filter env.env then
    { sub with subscribersMatched := sub.subscribersMatched ++ [env] }.trySend env
  else sub

/-- The start of an attempt. -/
def attempt (sub : Subscriber) (d : Delivery) : Subscriber :=
  { sub with
    sink := .delivering d false
    attempts := sub.attempts ++ [⟨d.initialEnv, d.env, d.attempt⟩] }

def deadLetter (sub : Subscriber) (d : Delivery) : Subscriber :=
  { sub with
    sink := .receiving
    deadLettered := sub.deadLettered ++ [d.initialEnv]
    dlq := sub.dlq.push d.env }

/-- What `deliver_with_retries` does with the outcome of an attempt. -/
def settle (sub : Subscriber) (d : Delivery) : AttemptOutcome → Subscriber
  | .delivered => { sub with sink := .receiving, delivered := sub.delivered ++ [d.initialEnv] }
  | .permanentFailure => sub.deadLetter d
  | .retryable =>
      if d.attempt ≥ sub.maxAttempts then sub.deadLetter d
      else { sub with sink := .delivering d true, retried := sub.retried ++ [d.initialEnv] }

/-- A step of `run_sink`.  The task can be cancelled wherever it awaits something. -/
def step (view : SinkView) (sub : Subscriber) (a : SinkAction) : Option Subscriber :=
  match a, sub.sink with
  | .receive, .receiving =>
      match sub.queue with
      | [] => none
      | env :: queue => some ({ sub with queue }.attempt (.start env))
  | .inputClosed, .receiving =>
      if sub.queue.isEmpty ∧ view.senderDropped then some { sub with sink := .returned } else none
  | .shutdown, .receiving => if view.shutdown then some { sub with sink := .returned, queue := [] } else none
  | .reply r, .delivering d false => some (sub.settle d (attemptOne r))
  | .wake id now, .delivering d true => some (sub.attempt (d.retry id now))
  | .finish, .returned => if sub.stage = .running then some { sub with stage := .finished } else none
  | .cancel, .receiving =>
      if view.aborted then some { sub with sink := .returned, queue := [], stage := .finished } else none
  | .cancel, .delivering _ _ =>
      if view.aborted then some { sub with sink := .returned, queue := [], stage := .finished } else none
  | _, _ => none

end Subscriber

/-! ### What fan-out and the sink change -/

namespace Subscriber

/-- The settings of a subscriber and what it has been offered. -/
def settings (sub : Subscriber) : (Envelope → Bool) × ℕ × List SharedEnvelope :=
  (sub.filter, sub.capacity, sub.subscribersMatched)

variable {sub sub' : Subscriber}

theorem trySend_settings (env : SharedEnvelope) : (sub.trySend env).settings = sub.settings := by
  unfold trySend
  split_ifs <;> rfl

theorem trySend_sink (env : SharedEnvelope) : (sub.trySend env).sink = sub.sink := by
  unfold trySend
  split_ifs <;> rfl

theorem offer_sink (env : SharedEnvelope) : (sub.offer env).sink = sub.sink := by
  unfold offer
  split_ifs
  · exact trySend_sink env
  · rfl

theorem offer_receiverDropped (env : SharedEnvelope) : (sub.offer env).receiverDropped = sub.receiverDropped := by
  unfold receiverDropped
  rw [offer_sink]

theorem offer_stage (env : SharedEnvelope) : (sub.offer env).stage = sub.stage := by
  unfold offer trySend
  split_ifs <;> rfl

theorem offer_settings (env : SharedEnvelope) :
    (sub.offer env).settings =
      (sub.filter, sub.capacity, sub.subscribersMatched ++ [env].filter (sub.filter ·.env)) := by
  unfold offer
  split_ifs with hfilter
  · have hpasses : [env].filter (sub.filter ·.env) = [env] := List.filter_cons_of_pos hfilter
    rw [trySend_settings, hpasses]
    rfl
  · have hfails : [env].filter (sub.filter ·.env) = [] := List.filter_cons_of_neg hfilter
    rw [hfails, List.append_nil]
    rfl

/-- Nothing is enqueued for a sink that has returned. -/
theorem offer_queue_dropped (h : sub.receiverDropped = true) (env : SharedEnvelope) :
    (sub.offer env).queue = sub.queue := by
  unfold offer
  split_ifs
  · unfold trySend
    rw [if_pos (by simpa [receiverDropped] using h)]
  · rfl

/-- **Who is enqueued.**  As long as the receiver is there, the filter and the room in the
queue decide. -/
theorem offer_queue (h : sub.receiverDropped = false) (env : SharedEnvelope) :
    (sub.offer env).queue =
      if sub.filter env.env = true ∧ sub.queue.length < sub.capacity then sub.queue ++ [env] else sub.queue := by
  unfold offer
  by_cases hfilter : sub.filter env.env = true
  · rw [if_pos hfilter]
    unfold trySend
    rw [if_neg (by simpa [receiverDropped] using h)]
    by_cases hroom : sub.queue.length < sub.capacity
    · rw [if_pos hroom, if_pos ⟨hfilter, hroom⟩]
    · rw [if_neg hroom, if_neg (fun hboth => hroom hboth.2)]
  · rw [if_neg hfilter, if_neg (fun hboth => hfilter hboth.1)]

theorem settle_settings (d : Delivery) (outcome : AttemptOutcome) : (sub.settle d outcome).settings = sub.settings := by
  cases outcome with
  | delivered => rfl
  | permanentFailure => rfl
  | retryable =>
      unfold settle
      simp only
      split_ifs <;> rfl

/-- What a step of the sink does, and when. -/
inductive SinkMove (sub : Subscriber) (view : SinkView) : SinkAction → Subscriber → Prop
  | receive {env : SharedEnvelope} {queue : List SharedEnvelope} (hsink : sub.sink = .receiving)
      (hqueue : sub.queue = env :: queue) : SinkMove sub view .receive ({ sub with queue }.attempt (.start env))
  | inputClosed (hsink : sub.sink = .receiving) (hqueue : sub.queue = []) (hclosed : view.senderDropped = true) :
      SinkMove sub view .inputClosed { sub with sink := .returned }
  | shutdown (hsink : sub.sink = .receiving) (hshutdown : view.shutdown = true) :
      SinkMove sub view .shutdown { sub with sink := .returned, queue := [] }
  | reply {r : Reply} {d : Delivery} (hsink : sub.sink = .delivering d false) :
      SinkMove sub view (.reply r) (sub.settle d (attemptOne r))
  | wake {id : Str} {now : ℕ} {d : Delivery} (hsink : sub.sink = .delivering d true) :
      SinkMove sub view (.wake id now) (sub.attempt (d.retry id now))
  | finish (hsink : sub.sink = .returned) (hrunning : sub.stage = .running) :
      SinkMove sub view .finish { sub with stage := .finished }
  | cancel (hsink : sub.sink ≠ .returned) (haborted : view.aborted = true) :
      SinkMove sub view .cancel { sub with sink := .returned, queue := [], stage := .finished }

theorem step_spec {view : SinkView} {a : SinkAction} (h : sub.step view a = some sub') : SinkMove sub view a sub' := by
  unfold step at h
  split at h
  case h_1 hsink =>
      split at h
      · cases h
      · rename_i hqueue
        cases h
        exact .receive hsink hqueue
  case h_2 hsink =>
      split_ifs at h with hend
      cases h
      exact .inputClosed hsink (List.isEmpty_iff.mp hend.1) hend.2
  case h_3 hsink =>
      split_ifs at h with hshutdown
      cases h
      exact .shutdown hsink hshutdown
  case h_4 hsink =>
      cases h
      exact .reply hsink
  case h_5 hsink =>
      cases h
      exact .wake hsink
  case h_6 hsink =>
      split_ifs at h with hrunning
      cases h
      exact .finish hsink hrunning
  case h_7 hsink =>
      split_ifs at h with haborted
      cases h
      exact .cancel (by rw [hsink]; nofun) haborted
  case h_8 hsink =>
      split_ifs at h with haborted
      cases h
      exact .cancel (by rw [hsink]; nofun) haborted
  case h_9 => cases h

theorem step_settings {view : SinkView} {a : SinkAction} (h : sub.step view a = some sub') :
    sub'.settings = sub.settings := by
  cases step_spec h with
  | reply => exact settle_settings _ _
  | _ => rfl

theorem settle_stage (d : Delivery) (outcome : AttemptOutcome) : (sub.settle d outcome).stage = sub.stage := by
  cases outcome with
  | delivered => rfl
  | permanentFailure => rfl
  | retryable =>
      unfold settle
      simp only
      split_ifs <;> rfl

theorem step_stage {view : SinkView} {a : SinkAction} (h : sub.step view a = some sub') :
    sub'.stage = sub.stage ∨ sub'.stage = .finished ∧ sub'.receiverDropped = true := by
  cases step_spec h with
  | receive | inputClosed | shutdown | wake => exact Or.inl rfl
  | reply => exact Or.inl (settle_stage _ _)
  | finish hsink => exact Or.inr ⟨rfl, by unfold receiverDropped; rw [hsink]⟩
  | cancel => exact Or.inr ⟨rfl, rfl⟩

theorem step_dropped {view : SinkView} {a : SinkAction} (h : sub.step view a = some sub')
    (hdropped : sub.receiverDropped = true) : sub'.receiverDropped = true ∧ sub'.queue = sub.queue := by
  unfold receiverDropped at hdropped
  cases step_spec h with
  | finish hsink => exact ⟨by unfold receiverDropped; rw [hsink], rfl⟩
  | cancel hsink =>
      split at hdropped
      · rename_i hreturned
        exact absurd hreturned hsink
      · cases hdropped
  | receive hsink | inputClosed hsink | shutdown hsink | reply hsink | wake hsink =>
      rw [hsink] at hdropped
      cases hdropped

theorem receiverDropped_settle (d : Delivery) (outcome : AttemptOutcome) :
    (sub.settle d outcome).receiverDropped = false := by
  cases outcome with
  | delivered => rfl
  | permanentFailure => rfl
  | retryable =>
      unfold settle
      simp only
      split_ifs <;> rfl

/-- While nothing is shut down or aborted, a sink returns only at the end of its input. -/
theorem step_returns {view : SinkView} {a : SinkAction} (hshutdown : view.shutdown = false)
    (haborted : view.aborted = false) (h : sub.step view a = some sub') (hdropped : sub'.receiverDropped = true) :
    (sub.receiverDropped = true ∨ view.senderDropped = true ∧ sub.queue = []) ∧ sub'.queue = sub.queue := by
  cases step_spec h with
  | receive | wake => cases hdropped
  | inputClosed _ hqueue hclosed => exact ⟨Or.inr ⟨hclosed, hqueue⟩, rfl⟩
  | shutdown _ hsignalled =>
      rw [hshutdown] at hsignalled
      cases hsignalled
  | reply =>
      rw [receiverDropped_settle] at hdropped
      cases hdropped
  | finish hsink => exact ⟨Or.inl (by unfold receiverDropped; rw [hsink]), rfl⟩
  | cancel _ hcancelled =>
      rw [haborted] at hcancelled
      cases hcancelled

end Subscriber

/-! ### The books of a subscriber -/

/-- The envelope in delivery. -/
def SinkPhase.inDelivery : SinkPhase → List SharedEnvelope
  | .delivering d _ => [d.initialEnv]
  | _ => []

namespace Subscriber

/-- The attempts, each with its number. -/
def log (sub : Subscriber) : List (SharedEnvelope × ℕ) := sub.attempts.map fun a => (a.initialEnv, a.number)

/-- The sink has been through these envelopes, and is at the one in delivery. -/
def Worked (sub : Subscriber) (done : List SharedEnvelope) : Prop :=
  match sub.sink with
  | .delivering d _ => Holding done d.initialEnv d.attempt sub.log
  | _ => Serial done sub.log

/-- **The books balance.**  What has matched has been accepted or dropped; what has been
accepted has been delivered or dead-lettered, is in delivery or waits in the queue. -/
structure Balanced (sub : Subscriber) : Prop where
  matched_perm : sub.subscribersMatched.Perm (sub.accepted ++ sub.droppedQueueFull ++ sub.droppedChannelClosed)
  accepted_sublist : sub.accepted.Sublist sub.subscribersMatched
  worked : ∃ done, sub.accepted = done ++ sub.sink.inDelivery ++ sub.queue ∧
    done.Perm (sub.delivered ++ sub.deadLettered) ∧ sub.Worked done

namespace Balanced

theorem new (c : SubscriberConfig) (subscriberQueue : ℕ) : Balanced (Subscriber.new c subscriberQueue) where
  matched_perm := List.Perm.refl _
  accepted_sublist := List.Sublist.refl _
  worked := ⟨[], rfl, List.Perm.refl _, Serial.nil⟩

variable {sub sub' : Subscriber}

theorem work (h : Balanced sub) (hmatched : sub'.subscribersMatched = sub.subscribersMatched)
    (haccepted : sub'.accepted = sub.accepted) (hfull : sub'.droppedQueueFull = sub.droppedQueueFull)
    (hclosed : sub'.droppedChannelClosed = sub.droppedChannelClosed)
    (hworked : ∃ done, sub.accepted = done ++ sub'.sink.inDelivery ++ sub'.queue ∧
      done.Perm (sub'.delivered ++ sub'.deadLettered) ∧ sub'.Worked done) : Balanced sub' := by
  constructor
  · rw [hmatched, haccepted, hfull, hclosed]
    exact h.matched_perm
  · rw [hmatched, haccepted]
    exact h.accepted_sublist
  · rw [haccepted]
    exact hworked

/-- **Fan-out keeps the books.** -/
theorem offer (h : Balanced sub) (env : SharedEnvelope) : Balanced (sub.offer env) := by
  obtain ⟨hperm, hsublist, done, haccepted, hdone, hwork⟩ := h
  unfold Subscriber.offer
  split_ifs with hfilter
  · unfold Subscriber.trySend
    simp only
    split_ifs with hclosed hroom
    · refine ⟨?_, hsublist.trans (List.sublist_append_left _ _), done, haccepted, hdone, hwork⟩
      simp only
      rw [← List.append_assoc]
      exact hperm.append_right [env]
    · refine ⟨?_, hsublist.append_right [env], done, ?_, hdone, hwork⟩
      · simp only
        rw [List.append_assoc] at hperm ⊢
        exact perm_concat_left hperm env
      · simp only
        rw [haccepted, List.append_assoc]
    · refine ⟨?_, hsublist.trans (List.sublist_append_left _ _), done, haccepted, hdone, hwork⟩
      simp only
      rw [← List.append_assoc]
      exact perm_concat_left hperm env
  · exact ⟨hperm, hsublist, done, haccepted, hdone, hwork⟩

theorem deadLetter (h : Balanced sub) {d : Delivery} (hsink : sub.sink = .delivering d false) :
    Balanced (sub.deadLetter d) := by
  obtain ⟨done, haccepted, hdone, hwork⟩ := h.worked
  unfold Worked at hwork
  rw [hsink] at hwork haccepted
  refine h.work rfl rfl rfl rfl ⟨done ++ [d.initialEnv], ?_, ?_, hwork.settle⟩
  · rw [haccepted]
    exact (congrArg (· ++ sub.queue) (List.append_nil _)).symm
  · show (done ++ [d.initialEnv]).Perm (sub.delivered ++ (sub.deadLettered ++ [d.initialEnv]))
    rw [← List.append_assoc]
    exact hdone.append_right _

/-- **The end of an attempt keeps the books.** -/
theorem settle (h : Balanced sub) {d : Delivery} (hsink : sub.sink = .delivering d false)
    (outcome : AttemptOutcome) : Balanced (sub.settle d outcome) := by
  obtain ⟨done, haccepted, hdone, hwork⟩ := h.worked
  unfold Worked at hwork
  rw [hsink] at hwork haccepted
  cases outcome with
  | delivered =>
      refine h.work rfl rfl rfl rfl ⟨done ++ [d.initialEnv], ?_, perm_concat_left hdone _, hwork.settle⟩
      rw [haccepted]
      exact (congrArg (· ++ sub.queue) (List.append_nil _)).symm
  | permanentFailure => exact h.deadLetter hsink
  | retryable =>
      unfold Subscriber.settle
      simp only
      split_ifs with hexhausted
      · exact h.deadLetter hsink
      · exact h.work rfl rfl rfl rfl ⟨done, haccepted, hdone, hwork⟩

/-- **A step of the sink keeps the books**, while nothing is shut down or aborted. -/
theorem step (h : Balanced sub) {view : SinkView} {a : SinkAction} (hshutdown : view.shutdown = false)
    (haborted : view.aborted = false) (hstep : sub.step view a = some sub') : Balanced sub' := by
  obtain ⟨done, haccepted, hdone, hwork⟩ := h.worked
  unfold Worked at hwork
  cases step_spec hstep with
  | receive hsink hqueue =>
      rw [hsink] at hwork haccepted
      refine h.work rfl rfl rfl rfl ⟨done, ?_, hdone, ?_⟩
      · rw [haccepted, hqueue, List.append_assoc, List.append_assoc]
        rfl
      · unfold Worked log
        simp only [Subscriber.attempt, List.map_append, List.map_singleton]
        exact hwork.take _
  | inputClosed hsink =>
      rw [hsink] at hwork haccepted
      exact h.work rfl rfl rfl rfl ⟨done, haccepted, hdone, hwork⟩
  | shutdown _ hsignalled =>
      rw [hshutdown] at hsignalled
      cases hsignalled
  | reply hsink => exact h.settle hsink _
  | wake hsink =>
      rw [hsink] at hwork haccepted
      refine h.work rfl rfl rfl rfl ⟨done, haccepted, hdone, ?_⟩
      unfold Worked log
      simp only [Subscriber.attempt, List.map_append, List.map_singleton]
      exact hwork.again
  | finish => exact h.work rfl rfl rfl rfl ⟨done, haccepted, hdone, by unfold Worked; exact hwork⟩
  | cancel _ hcancelled =>
      rw [haborted] at hcancelled
      cases hcancelled

end Balanced

end Subscriber

end PurpleWolf.Relay
