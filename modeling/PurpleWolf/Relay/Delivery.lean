import PurpleWolf.Lib.Transition
import PurpleWolf.Relay.Sink

/-! # Delivering one envelope (`subscribers/http.rs`)

`deliverWithRetries` is the loop of `deliver_with_retries` as a function of the outcomes of
the attempts, which may go on for ever.  The loop counts the attempts twice, in its own
variable (which goes into the header) and in the envelope (which goes into the body), and it
leaves the envelope of the first attempt as it is; `deliverWithRetries_spec` says what every
body carries and how the loop ends.

`Subscriber.receive_delivers` says that the sink task of the model runs this loop. -/

namespace PurpleWolf.Relay

open Text

/-! ### The loop -/

/-- The headers that `attempt_one` sets, for a timestamp and a signature of the body. -/
def Attempt.headers (a : Attempt) (timestamp : ℕ) (signature : Str) : List (Str × Str) := [
  ("content-type".toList, "application/json".toList),
  ("x-purplewolf-schema".toList, SCHEMA_V1),
  ("x-purplewolf-event-id".toList, a.body.eventId),
  ("x-purplewolf-delivery-id".toList, a.body.deliveryId),
  ("x-purplewolf-attempt".toList, decimal a.number),
  ("x-purplewolf-timestamp".toList, decimal timestamp),
  ("x-purplewolf-signature".toList, signature)]

/-- What a call of `deliver_with_retries` has done: its attempts, the counters it has bumped
at the end, and its pushes to the DLQ. -/
structure DeliveryLog where
  attempts : List Attempt
  delivered : Bool
  dlqPushes : List Envelope

/-- The loop, at an attempt with some number.  The outcome of an attempt and what a retry
rolls depend on that number. -/
def deliverLoop (maxAttempts : ℕ) (outcomes : ℕ → AttemptOutcome) (rolls : ℕ → Str × ℕ) (d : Delivery) : DeliveryLog :=
  let attempt : Attempt := ⟨d.initialEnv, d.env, d.attempt⟩
  match outcomes d.attempt with
  | .delivered => ⟨[attempt], true, []⟩
  | .permanentFailure => ⟨[attempt], false, [d.env]⟩
  | .retryable =>
      if d.attempt ≥ maxAttempts then ⟨[attempt], false, [d.env]⟩
      else
        let (id, now) := rolls (d.attempt + 1)
        let log := deliverLoop maxAttempts outcomes rolls (d.retry id now)
        { log with attempts := attempt :: log.attempts }
  termination_by maxAttempts - d.attempt
  decreasing_by
    simp only [Delivery.retry]
    omega

def deliverWithRetries (maxAttempts : ℕ) (outcomes : ℕ → AttemptOutcome) (rolls : ℕ → Str × ℕ)
    (initialEnv : SharedEnvelope) : DeliveryLog := deliverLoop maxAttempts outcomes rolls (.start initialEnv)

/-! ### How it ends -/

/-- The first outcome, counting from attempt `m`, that is not to be retried is that of `k`. -/
def FirstSettled (outcomes : ℕ → AttemptOutcome) (m k : ℕ) : Prop :=
  m ≤ k ∧ outcomes k ≠ .retryable ∧ ∀ i, m ≤ i → i < k → outcomes i = .retryable

/-- The envelope with what has been rolled for attempt `n`. -/
def Envelope.rolled (env : Envelope) (rolls : ℕ → Str × ℕ) (n : ℕ) : Envelope :=
  { env with deliveryId := (rolls n).1, deliveredAt := (rolls n).2, attempt := n }

/-- The same envelope, but for what a retry rolls. -/
def Envelope.SameEvent (env env' : Envelope) : Prop :=
  ∃ id now n, env' = { env with deliveryId := id, deliveredAt := now, attempt := n }

/-- The loop ends at attempt `k`, having begun at attempt `d.attempt`. -/
structure EndsAt (maxAttempts : ℕ) (outcomes : ℕ → AttemptOutcome) (rolls : ℕ → Str × ℕ) (d : Delivery)
    (log : DeliveryLog) (k : ℕ) : Prop where
  le : d.attempt ≤ k ∧ k ≤ maxAttempts
  settled : FirstSettled outcomes d.attempt k ∨
    k = maxAttempts ∧ ∀ i, d.attempt ≤ i → i ≤ maxAttempts → outcomes i = .retryable
  numbers : log.attempts.map Attempt.number = List.range' d.attempt (k + 1 - d.attempt)
  bodies : log.attempts.map Attempt.body =
    d.env :: (List.range' (d.attempt + 1) (k - d.attempt)).map (d.env.rolled rolls)
  ending : (outcomes k = .delivered ∧ log.delivered = true ∧ log.dlqPushes = []) ∨
    (outcomes k ≠ .delivered ∧ log.delivered = false ∧
      ∃ last, log.attempts.getLast? = some last ∧ log.dlqPushes = [last.body])

variable {maxAttempts : ℕ} {outcomes : ℕ → AttemptOutcome} {rolls : ℕ → Str × ℕ}

namespace EndsAt

theorem last {d : Delivery} (hle : d.attempt ≤ maxAttempts)
    (hsettled : outcomes d.attempt ≠ .retryable ∨ d.attempt = maxAttempts) {log : DeliveryLog}
    (hattempts : log.attempts = [⟨d.initialEnv, d.env, d.attempt⟩])
    (hending : (outcomes d.attempt = .delivered ∧ log.delivered = true ∧ log.dlqPushes = []) ∨
      (outcomes d.attempt ≠ .delivered ∧ log.delivered = false ∧ log.dlqPushes = [d.env])) :
    EndsAt maxAttempts outcomes rolls d log d.attempt where
  le := ⟨le_rfl, hle⟩
  settled := by
    by_cases hretry : outcomes d.attempt = .retryable
    · obtain hno | hlast := hsettled
      · exact absurd hretry hno
      · right
        refine ⟨hlast, ?_⟩
        intro i hi hi'
        have hi : i = d.attempt := by omega
        rw [hi, hretry]
    · left
      exact ⟨le_rfl, hretry, fun i hi hi' => by omega⟩
  numbers := by
    rw [hattempts, Nat.add_sub_cancel_left]
    rfl
  bodies := by
    rw [hattempts, Nat.sub_self]
    rfl
  ending := by
    obtain h | ⟨houtcome, hdelivered, hpushes⟩ := hending
    · exact Or.inl h
    · exact Or.inr ⟨houtcome, hdelivered, _, by rw [hattempts]; rfl, hpushes⟩

theorem again {d : Delivery} {log : DeliveryLog} {k : ℕ} (hretry : outcomes d.attempt = .retryable)
    (h : EndsAt maxAttempts outcomes rolls (d.retry (rolls (d.attempt + 1)).1 (rolls (d.attempt + 1)).2) log k) :
    EndsAt maxAttempts outcomes rolls d
      { log with attempts := ⟨d.initialEnv, d.env, d.attempt⟩ :: log.attempts } k := by
  have hle : d.attempt + 1 ≤ k ∧ k ≤ maxAttempts := h.le
  have hcount : k + 1 - d.attempt = (k + 1 - (d.attempt + 1)) + 1 := by omega
  have hlater : k - d.attempt = (k - (d.attempt + 1)) + 1 := by omega
  have hfrom : ∀ i, d.attempt ≤ i → i = d.attempt ∨ d.attempt + 1 ≤ i := by
    intro i hi
    omega
  constructor
  · omega
  · obtain ⟨-, hk, hbefore⟩ | ⟨hk, hall⟩ := h.settled
    · left
      refine ⟨by omega, hk, ?_⟩
      intro i hi hik
      obtain rfl | hi := hfrom i hi
      · exact hretry
      · exact hbefore i hi hik
    · right
      refine ⟨hk, ?_⟩
      intro i hi hmax
      obtain rfl | hi := hfrom i hi
      · exact hretry
      · exact hall i hi hmax
  · rw [hcount, List.range'_succ, List.map_cons, h.numbers]
    rfl
  · rw [hlater, List.range'_succ, List.map_cons, List.map_cons, h.bodies]
    rfl
  · obtain hdelivered | ⟨houtcome, hdelivered, last, hlast, hpushes⟩ := h.ending
    · exact Or.inl hdelivered
    · refine Or.inr ⟨houtcome, hdelivered, last, ?_, hpushes⟩
      rw [List.getLast?_cons, hlast]
      rfl

variable {d : Delivery} {log : DeliveryLog} {k : ℕ}

theorem bodyNumbers (h : EndsAt maxAttempts outcomes rolls d log k) :
    log.attempts.map (fun a => a.body.attempt) = d.env.attempt :: List.range' (d.attempt + 1) (k - d.attempt) := by
  have hsplit : (fun a : Attempt => a.body.attempt) = Envelope.attempt ∘ Attempt.body := rfl
  rw [hsplit, ← List.map_map, h.bodies, List.map_cons, List.map_map]
  exact congrArg _ (List.map_id _)

theorem sameEvent (h : EndsAt maxAttempts outcomes rolls d log k) : ∀ a ∈ log.attempts, d.env.SameEvent a.body := by
  intro a ha
  have hbody : a.body ∈ log.attempts.map Attempt.body := List.mem_map_of_mem ha
  rw [h.bodies] at hbody
  obtain hfirst | hlater := List.mem_cons.mp hbody
  · rw [hfirst]
    exact ⟨_, _, _, rfl⟩
  · obtain ⟨n, -, hn⟩ := List.mem_map.mp hlater
    rw [← hn]
    exact ⟨_, _, _, rfl⟩

end EndsAt

/-- **The loop ends**, at the first outcome that is not to be retried or with the last of
its attempts. -/
theorem deliverLoop_endsAt (outcomes : ℕ → AttemptOutcome) (rolls : ℕ → Str × ℕ) (d : Delivery)
    (hle : d.attempt ≤ maxAttempts) :
    ∃ k, EndsAt maxAttempts outcomes rolls d (deliverLoop maxAttempts outcomes rolls d) k := by
  induction hn : maxAttempts - d.attempt using Nat.strong_induction_on generalizing d with
  | _ n ih =>
      unfold deliverLoop
      cases houtcome : outcomes d.attempt with
      | delivered =>
          exact ⟨_, EndsAt.last hle (Or.inl (by rw [houtcome]; decide)) rfl (Or.inl ⟨houtcome, rfl, rfl⟩)⟩
      | permanentFailure =>
          have hno : outcomes d.attempt ≠ .delivered := by
            rw [houtcome]
            decide
          exact ⟨_, EndsAt.last hle (Or.inl (by rw [houtcome]; decide)) rfl (Or.inr ⟨hno, rfl, rfl⟩)⟩
      | retryable =>
          have hno : outcomes d.attempt ≠ .delivered := by
            rw [houtcome]
            decide
          simp only
          split_ifs with hexhausted
          · exact ⟨_, EndsAt.last hle (Or.inr (by omega)) rfl (Or.inr ⟨hno, rfl, rfl⟩)⟩
          · have hnext : (d.retry (rolls (d.attempt + 1)).1 (rolls (d.attempt + 1)).2).attempt = d.attempt + 1 := rfl
            obtain ⟨k, hk⟩ := ih (maxAttempts - (d.attempt + 1)) (by omega)
              (d.retry (rolls (d.attempt + 1)).1 (rolls (d.attempt + 1)).2) (by omega) (by omega)
            exact ⟨k, hk.again houtcome⟩

/-- **What `deliver_with_retries` does**, for any outcomes of its attempts: how many attempts
it makes, how they are numbered in header and body, what each retry rolls and what it leaves
alone, and how it ends. -/
theorem deliverWithRetries_spec (hmax : 1 ≤ maxAttempts) (outcomes : ℕ → AttemptOutcome) (rolls : ℕ → Str × ℕ)
    (initialEnv : SharedEnvelope) :
    let log := deliverWithRetries maxAttempts outcomes rolls initialEnv
    ∃ k, (1 ≤ k ∧ k ≤ maxAttempts) ∧
      (FirstSettled outcomes 1 k ∨ k = maxAttempts ∧ ∀ i, 1 ≤ i → i ≤ maxAttempts → outcomes i = .retryable) ∧
      (∀ timestamp signature,
        log.attempts.map (fun a => (a.headers timestamp signature).lookup "x-purplewolf-attempt".toList) =
          (List.range' 1 k).map (fun n => some (decimal n))) ∧
      log.attempts.map Attempt.body = initialEnv.env :: (List.range' 2 (k - 1)).map (initialEnv.env.rolled rolls) ∧
      log.attempts.map (fun a => a.body.attempt) = initialEnv.env.attempt :: List.range' 2 (k - 1) ∧
      (initialEnv.env.attempt = 1 → log.attempts.map (fun a => a.body.attempt) = List.range' 1 k) ∧
      (∀ a ∈ log.attempts, initialEnv.env.SameEvent a.body) ∧
      ((outcomes k = .delivered ∧ log.delivered = true ∧ log.dlqPushes = []) ∨
        (outcomes k ≠ .delivered ∧ log.delivered = false ∧
          ∃ last, log.attempts.getLast? = some last ∧ log.dlqPushes = [last.body])) := by
  obtain ⟨k, h⟩ := deliverLoop_endsAt outcomes rolls (Delivery.start initialEnv) hmax
  have hle : 1 ≤ k ∧ k ≤ maxAttempts := h.le
  have hnumbers : (deliverWithRetries maxAttempts outcomes rolls initialEnv).attempts.map Attempt.number =
      List.range' 1 k := h.numbers
  have hheader : ∀ timestamp signature,
      (fun a : Attempt => (a.headers timestamp signature).lookup "x-purplewolf-attempt".toList) =
        (fun n => some (decimal n)) ∘ Attempt.number := fun _ _ => rfl
  refine ⟨k, hle, h.settled, ?_, h.bodies, h.bodyNumbers, ?_, h.sameEvent, h.ending⟩
  · intro timestamp signature
    rw [hheader, ← List.map_map, hnumbers]
  · intro hfirst
    have hbodies := h.bodyNumbers
    have henv : (Delivery.start initialEnv).env.attempt = 1 := hfirst
    obtain ⟨later, rfl⟩ := Nat.exists_eq_add_of_le' hle.1
    rw [henv] at hbodies
    exact hbodies

/-- Three attempts, all of them to be retried; the clock reads the attempt's number. -/
theorem deliverWithRetries_exhausted :
    let initialEnv : SharedEnvelope := ⟨0, Envelope.new "id".toList 0 .null ⟨none, none, none, []⟩ ∅⟩
    let log := deliverWithRetries 3 (fun _ => .retryable) (fun n => (decimal n, n)) initialEnv
    log.attempts.map (fun a => a.body.attempt) = [1, 2, 3] ∧
      log.attempts.map (fun a => a.body.deliveryId) = ["id".toList, "2".toList, "3".toList] ∧
      log.attempts.map (fun a => a.body.deliveredAt) = [0, 2, 3] := by
  intro initialEnv log
  obtain ⟨k, -, hsettled, -, hbodies, -, hnumbers, -⟩ :=
    deliverWithRetries_spec (by decide : 1 ≤ 3) (fun _ => .retryable) (fun n => (decimal n, n)) initialEnv
  have hk : k = 3 := by
    obtain ⟨-, hno, -⟩ | ⟨hk, -⟩ := hsettled
    · exact absurd rfl hno
    · exact hk
  subst hk
  have hid : (fun a : Attempt => a.body.deliveryId) = Envelope.deliveryId ∘ Attempt.body := rfl
  have htime : (fun a : Attempt => a.body.deliveredAt) = Envelope.deliveredAt ∘ Attempt.body := rfl
  refine ⟨hnumbers rfl, ?_, ?_⟩
  · rw [hid, ← List.map_map, hbodies]
    rfl
  · rw [htime, ← List.map_map, hbodies]
    rfl

/-- The number that the envelope begins with stays in the first body, whatever it is. -/
theorem attempt_not_reset :
    let initialEnv : SharedEnvelope :=
      ⟨0, { Envelope.new "id".toList 0 .null ⟨none, none, none, []⟩ ∅ with attempt := 5 }⟩
    let log := deliverWithRetries 2 (fun _ => .retryable) (fun n => (decimal n, n)) initialEnv
    log.attempts.map Attempt.number = [1, 2] ∧ log.attempts.map (fun a => a.body.attempt) = [5, 2] ∧
      log.attempts.map (fun a => a.body.attempt) ≠ [1, 2] := by
  intro initialEnv log
  obtain ⟨k, h⟩ := deliverLoop_endsAt (fun _ => .retryable) (fun n => (decimal n, n)) (Delivery.start initialEnv)
    (by decide : 1 ≤ 2)
  have hk : k = 2 := by
    obtain ⟨-, hno, -⟩ | ⟨hk, -⟩ := h.settled
    · exact absurd rfl hno
    · exact hk
  subst hk
  have hbodies : log.attempts.map (fun a => a.body.attempt) = [5, 2] := h.bodyNumbers
  refine ⟨h.numbers, hbodies, ?_⟩
  rw [hbodies]
  decide

/-- The envelopes of the pipeline begin with attempt 1. -/
theorem attempt_of_processOne {S : Json.Codec} {chain : List (Enricher × HttpOutcome)} {instanceId id : Str} {now : ℕ}
    {line : Bytes} {env : Envelope} (h : processOne S chain instanceId id now line = some env) : env.attempt = 1 := by
  unfold processOne at h
  split at h
  · cases h
  · cases h
    rfl

/-! ### The sink task runs the loop -/

namespace Subscriber

/-- The subscriber is back at its queue and has made the attempts of the log after those
`before`, with what follows from them. -/
structure DoneWith (sub : Subscriber) (before : List Attempt) (initialEnv : SharedEnvelope) (log : DeliveryLog)
    (sub' : Subscriber) : Prop where
  sink : sub'.sink = .receiving
  queue : sub'.queue = sub.queue
  attempts : sub'.attempts = before ++ log.attempts
  dlq : sub'.dlq = log.dlqPushes.foldl Dlq.push sub.dlq
  delivered : sub'.delivered = sub.delivered ++ (if log.delivered then [initialEnv] else [])

/-- The sink task is in the loop, its last attempt begun: it can go on as the loop does. -/
theorem delivering_steps (view : SinkView) (replies : ℕ → Reply) (rolls : ℕ → Str × ℕ) (d : Delivery) {sub : Subscriber}
    {before : List Attempt} (hsink : sub.sink = .delivering d false)
    (hattempts : sub.attempts = before ++ [⟨d.initialEnv, d.env, d.attempt⟩]) :
    ∃ as sub', Run (step view) (fun _ _ => True) sub as sub' ∧
      sub.DoneWith before d.initialEnv
        (deliverLoop sub.maxAttempts (fun n => attemptOne (replies n)) rolls d) sub' := by
  induction hn : sub.maxAttempts - d.attempt using Nat.strong_induction_on generalizing d sub before with
  | _ n ih =>
      have hreply : step view sub (.reply (replies d.attempt)) =
          some (sub.settle d (attemptOne (replies d.attempt))) := by
        unfold step
        rw [hsink]
      unfold deliverLoop
      cases houtcome : attemptOne (replies d.attempt) with
      | delivered =>
          rw [houtcome] at hreply
          exact ⟨[_], _, ⟨trivial, _, hreply, rfl⟩, rfl, rfl, hattempts, rfl, rfl⟩
      | permanentFailure =>
          rw [houtcome] at hreply
          exact ⟨[_], _, ⟨trivial, _, hreply, rfl⟩, rfl, rfl, hattempts, rfl, (List.append_nil _).symm⟩
      | retryable =>
          rw [houtcome] at hreply
          simp only
          by_cases hexhausted : d.attempt ≥ sub.maxAttempts
          · have hsettle : sub.settle d .retryable = sub.deadLetter d := if_pos hexhausted
            rw [hsettle] at hreply
            rw [if_pos hexhausted]
            exact ⟨[_], _, ⟨trivial, _, hreply, rfl⟩, rfl, rfl, hattempts, rfl, (List.append_nil _).symm⟩
          · rw [if_neg hexhausted]
            obtain ⟨id, now⟩ := rolls (d.attempt + 1)
            have hsettle : sub.settle d .retryable =
                { sub with sink := .delivering d true, retried := sub.retried ++ [d.initialEnv] } := if_neg hexhausted
            rw [hsettle] at hreply
            generalize hsleeping : { sub with sink := .delivering d true, retried := sub.retried ++ [d.initialEnv] } =
              sleeping at hreply
            have hwake : step view sleeping (.wake id now) = some (sleeping.attempt (d.retry id now)) := by
              rw [← hsleeping]
              rfl
            have hattempts' : (sleeping.attempt (d.retry id now)).attempts =
                (before ++ [⟨d.initialEnv, d.env, d.attempt⟩]) ++
                  [⟨(d.retry id now).initialEnv, (d.retry id now).env, (d.retry id now).attempt⟩] := by
              rw [← hattempts, ← hsleeping]
              rfl
            have hmax : (sleeping.attempt (d.retry id now)).maxAttempts = sub.maxAttempts := by
              rw [← hsleeping]
              rfl
            obtain ⟨as, sub', hrun, hsink', hqueue, hmade, hdlq, hdelivered⟩ :=
              ih (sub.maxAttempts - (d.attempt + 1)) (by omega) (d.retry id now) rfl hattempts' (by rw [hmax]; rfl)
            rw [hmax] at hmade hdlq hdelivered
            refine ⟨.reply (replies d.attempt) :: .wake id now :: as, sub',
              ⟨trivial, _, hreply, trivial, _, hwake, hrun⟩,
              hsink', ?_, ?_, ?_, ?_⟩
            · rw [hqueue, ← hsleeping]
              rfl
            · rw [hmade, List.append_assoc]
              rfl
            · rw [hdlq, ← hsleeping]
              rfl
            · rw [hdelivered, ← hsleeping]
              rfl

/-- **A sink task that takes up an envelope can deliver it as `deliver_with_retries` does**,
for any replies. -/
theorem receive_delivers (view : SinkView) (replies : ℕ → Reply) (rolls : ℕ → Str × ℕ) {sub : Subscriber}
    {env : SharedEnvelope} {queue : List SharedEnvelope} (hsink : sub.sink = .receiving)
    (hqueue : sub.queue = env :: queue) :
    ∃ as sub', Run (step view) (fun _ _ => True) sub as sub' ∧
      { sub with queue := queue }.DoneWith sub.attempts env
        (deliverWithRetries sub.maxAttempts (fun n => attemptOne (replies n)) rolls env) sub' := by
  have hreceive : step view sub .receive = some ({ sub with queue := queue }.attempt (.start env)) := by
    unfold step
    rw [hsink]
    simp only [hqueue]
  obtain ⟨as, sub', hrun, hdone⟩ := delivering_steps view replies rolls (.start env)
    (rfl : ({ sub with queue := queue }.attempt (.start env)).sink = _) rfl
  exact ⟨.receive :: as, sub', ⟨trivial, _, hreceive, hrun⟩, hdone.sink, hdone.queue, hdone.attempts, hdone.dlq,
    hdone.delivered⟩

/-- A post that is answered with 503 is made again, and the second one is accepted. -/
theorem receive_delivers_retried :
    let env : SharedEnvelope := ⟨0, Envelope.new "id".toList 0 .null ⟨none, none, none, []⟩ ∅⟩
    let sub := { Subscriber.new ⟨"siem".toList, true, fun _ => true, 3⟩ 8 with queue := [env] }
    ∃ as sub', Run (step ⟨false, false, false⟩) (fun _ _ => True) sub as sub' ∧
      sub'.attempts.map Attempt.number = [1, 2] ∧ sub'.delivered = [env] ∧ sub'.queue = [] ∧ sub'.dlq = .new 1000 := by
  intro env sub
  let replies : ℕ → Reply := fun n => .status (if n = 1 then 503 else 200)
  obtain ⟨as, sub', hrun, hdone⟩ := receive_delivers ⟨false, false, false⟩ replies (fun n => (decimal n, n))
    (rfl : sub.sink = .receiving) (rfl : sub.queue = [env])
  obtain ⟨k, h⟩ := deliverLoop_endsAt (fun n => attemptOne (replies n)) (fun n => (decimal n, n)) (Delivery.start env)
    (by decide : 1 ≤ sub.maxAttempts)
  have hk : k = 2 := by
    obtain ⟨hle, hno, hbefore⟩ | ⟨-, hall⟩ := h.settled
    · have hle : 1 ≤ k := hle
      have hne : k ≠ 1 := by
        rintro rfl
        exact hno rfl
      have hnot : ¬ 2 < k := fun hlt => absurd (hbefore 2 (by decide) hlt) (by decide)
      omega
    · exact absurd (hall 2 (by decide) (by decide)) (by decide)
  subst hk
  refine ⟨as, sub', hrun, ?_, ?_, hdone.queue, ?_⟩
  · rw [hdone.attempts, List.map_append]
    exact h.numbers
  · obtain ⟨-, hdelivered, -⟩ | ⟨hno, -⟩ := h.ending
    · rw [hdone.delivered, deliverWithRetries, hdelivered]
      rfl
    · exact absurd rfl hno
  · obtain ⟨-, -, hpushes⟩ | ⟨hno, -⟩ := h.ending
    · rw [hdone.dlq, deliverWithRetries, hpushes]
      rfl
    · exact absurd rfl hno

end Subscriber

end PurpleWolf.Relay
