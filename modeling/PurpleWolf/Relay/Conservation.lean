import PurpleWolf.Lib.JsonParser
import PurpleWolf.Relay.Runtime

/-! # Conservation of envelopes

In every state of the running pipeline, before a shutdown or an abort, each envelope that
has matched a subscriber is in exactly one place: waiting in the queue, in delivery,
delivered, dead-lettered or dropped.  Those that were not dropped are attempted one after
the other in the order of the fan-out, and what becomes of the envelopes of one subscriber
is no matter of the others (`deliveries_conserved`). -/

namespace PurpleWolf.Relay

/-- The envelope that `fan_out` is at. -/
def ParserPhase.inFanOut : ParserPhase → List SharedEnvelope
  | .fanningOut _ env _ => [env]
  | _ => []

namespace Runtime

/-- The envelopes that `fan_out` has shown to a subscriber. -/
def offered (s : Runtime) (j : ℕ) : List SharedEnvelope :=
  s.fannedOut ++
    match s.parser with
    | .fanningOut _ env next => if j < next then [env] else []
    | _ => []

theorem offered_idle {s : Runtime} (h : s.parser.inFanOut = []) (j : ℕ) : s.offered j = s.fannedOut := by
  unfold offered
  cases hparser : s.parser with
  | fanningOut event env next =>
      rw [hparser] at h
      cases h
  | selecting => exact List.append_nil _
  | processing event => exact List.append_nil _
  | dropping exit next => exact List.append_nil _
  | returned exit => exact List.append_nil _
  | cancelled => exact List.append_nil _

/-- **The invariant.** -/
structure Kept (s : Runtime) : Prop where
  numbered : (s.fannedOut ++ s.parser.inFanOut).map (·.seq) = List.range (s.fannedOut ++ s.parser.inFanOut).length
  matched : ∀ (j : ℕ) sub, s.subs[j]? = some sub →
    sub.subscribersMatched = (s.offered j).filter (fun env => sub.filter env.env)
  balanced : s.shutdown = false → s.abortSinks = false → ∀ (j : ℕ) sub, s.subs[j]? = some sub → sub.Balanced
  receiving : s.shutdown = false → s.abortSinks = false → ∀ (j : ℕ) sub, s.subs[j]? = some sub →
    sub.receiverDropped = true → s.senderDropped j = true

namespace Kept

variable {setup : ParserSetup} {s t : Runtime}

theorem start (sources : List Source) (subscribers : List SubscriberConfig) (subscriberQueue : ℕ) :
    Kept (Runtime.start sources subscribers subscriberQueue) := by
  have hnew : ∀ (j : ℕ) sub, (Runtime.start sources subscribers subscriberQueue).subs[j]? = some sub →
      ∃ c, sub = Subscriber.new c subscriberQueue := by
    intro j sub hsub
    obtain ⟨c, -, rfl⟩ := List.mem_map.mp (List.mem_of_getElem? hsub)
    exact ⟨c, rfl⟩
  constructor
  · rfl
  · intro j sub hsub
    obtain ⟨c, rfl⟩ := hnew j sub hsub
    rfl
  · intro _ _ j sub hsub
    obtain ⟨c, rfl⟩ := hnew j sub hsub
    exact Subscriber.Balanced.new c subscriberQueue
  · intro _ _ j sub hsub hdropped
    obtain ⟨c, rfl⟩ := hnew j sub hsub
    cases hdropped

theorem balanced_step (h : Kept s) {a : RuntimeAction} (hstep : s.step setup a = some t) (hs : s.shutdown = false)
    (ha : s.abortSinks = false) {j : ℕ} {x : Subscriber} (hx : t.subs[j]? = some x) : x.Balanced := by
  obtain ⟨sub, hsub, rfl | ⟨env, rfl⟩ | ⟨b, hsink⟩ | ⟨-, rfl⟩⟩ := step_sub hstep hx
  · exact h.balanced hs ha j x hsub
  · exact (h.balanced hs ha j sub hsub).offer env
  · exact (h.balanced hs ha j sub hsub).step hs ha hsink
  · have hbalanced := h.balanced hs ha j sub hsub
    exact hbalanced.work rfl rfl rfl rfl hbalanced.worked

/-- No step makes a sink return before its sender is dropped. -/
theorem receiving_step (h : Kept s) {a : RuntimeAction} (hstep : s.step setup a = some t) (hs : s.shutdown = false)
    (ha : s.abortSinks = false) {j : ℕ} {x : Subscriber} (hx : t.subs[j]? = some x)
    (hdropped : x.receiverDropped = true) :
    s.senderDropped j = true := by
  obtain ⟨sub, hsub, rfl | ⟨env, rfl⟩ | ⟨b, hsink⟩ | ⟨-, rfl⟩⟩ := step_sub hstep hx
  · exact h.receiving hs ha j x hsub hdropped
  · rw [Subscriber.offer_receiverDropped] at hdropped
    exact h.receiving hs ha j sub hsub hdropped
  · obtain ⟨hold | ⟨hsender, -⟩, -⟩ := Subscriber.step_returns hs ha hsink hdropped
    · exact h.receiving hs ha j sub hsub hold
    · exact hsender
  · exact h.receiving hs ha j sub hsub hdropped

/-- What is left to prove of a step is about the envelopes that are shown. -/
theorem of_step (h : Kept s) {a : RuntimeAction} (hstep : s.step setup a = some t)
    (hnumbered : (t.fannedOut ++ t.parser.inFanOut).map (·.seq) = List.range (t.fannedOut ++ t.parser.inFanOut).length)
    (hmatched : ∀ (j : ℕ) sub, t.subs[j]? = some sub →
      sub.subscribersMatched = (t.offered j).filter (fun env => sub.filter env.env)) : Kept t := by
  obtain ⟨hshutdown, habort, hsender⟩ := step_flags hstep
  constructor
  · exact hnumbered
  · exact hmatched
  · intro hs ha j x hx
    exact h.balanced_step hstep (hshutdown hs) (habort ha) hx
  · intro hs ha j x hx hdropped
    exact hsender j (h.receiving_step hstep (hshutdown hs) (habort ha) hx hdropped)

/-- A step that shows no envelope to the subscribers. -/
theorem frame (h : Kept s) {a : RuntimeAction} (hstep : s.step setup a = some t)
    (hnumbered : (t.fannedOut ++ t.parser.inFanOut).map (·.seq) = List.range (t.fannedOut ++ t.parser.inFanOut).length)
    (hsettings : ∀ (j : ℕ) x, t.subs[j]? = some x → ∃ sub, s.subs[j]? = some sub ∧ x.settings = sub.settings)
    (hoffered : ∀ j < t.subs.length, t.offered j = s.offered j) : Kept t := by
  apply h.of_step hstep hnumbered
  intro j x hx
  obtain ⟨sub, hsub, hsame⟩ := hsettings j x hx
  unfold Subscriber.settings at hsame
  simp only [Prod.mk.injEq] at hsame
  obtain ⟨hfilter, -, hmatched⟩ := hsame
  rw [hmatched, hfilter, hoffered j (List.getElem?_eq_some_iff.mp hx).1]
  exact h.matched j sub hsub

theorem elsewhere (h : Kept s) {a : RuntimeAction} (hstep : s.step setup a = some t) (hparser : t.parser = s.parser)
    (hfanned : t.fannedOut = s.fannedOut)
    (hsettings : ∀ (j : ℕ) x, t.subs[j]? = some x → ∃ sub, s.subs[j]? = some sub ∧ x.settings = sub.settings) :
    Kept t := by
  refine h.frame hstep ?_ hsettings ?_
  · rw [hparser, hfanned]
    exact h.numbered
  · intro j _
    unfold offered
    rw [hparser, hfanned]

theorem idle (h : Kept s) {a : RuntimeAction} (hstep : s.step setup a = some t) (hidle : s.parser.inFanOut = [])
    (hidle' : t.parser.inFanOut = []) (hfanned : t.fannedOut = s.fannedOut) (hsubs : t.subs = s.subs) : Kept t := by
  refine h.frame hstep ?_ (fun j x hx => ⟨x, hsubs ▸ hx, rfl⟩) ?_
  · have hnumbered := h.numbered
    rw [hidle] at hnumbered
    rw [hfanned, hidle']
    exact hnumbered
  · intro j _
    rw [offered_idle hidle', offered_idle hidle, hfanned]

theorem sink (h : Kept s) {j : ℕ} {a : SinkAction} (hstep : s.step setup (.sink j a) = some t) : Kept t := by
  obtain ⟨sub, sub', hsub, hsink, rfl⟩ := sinkStep_spec hstep
  apply h.elsewhere hstep rfl rfl
  intro k x hx
  have hx' : (s.subs.set j sub')[k]? = some x := hx
  by_cases hk : j = k
  · subst hk
    rw [List.getElem?_set_self (List.getElem?_eq_some_iff.mp hsub).1] at hx'
    cases hx'
    exact ⟨sub, hsub, Subscriber.step_settings hsink⟩
  · rw [List.getElem?_set_ne hk] at hx'
    exact ⟨x, hx', rfl⟩

theorem supervised (h : Kept s) {a : SupervisorAction} (hstep : s.step setup (.supervisor a) = some t) : Kept t := by
  have hjoins : Supervised s t := superviseStep_spec hstep
  apply h.elsewhere hstep hjoins.parser hjoins.fannedOut
  intro j x hx
  obtain hsame | ⟨sub, hsub, -, hjoined⟩ := hjoins.sub j
  · exact ⟨x, hsame ▸ hx, rfl⟩
  · rw [hjoined] at hx
    cases hx
    exact ⟨sub, hsub, rfl⟩

/-- **`fan_out` shows the envelope to one subscriber.** -/
theorem offer (h : Kept s) {a : RuntimeAction} {event : RawEvent} {env : SharedEnvelope} {next : ℕ}
    (hparser : s.parser = .fanningOut event env next) (hstep : s.step setup a =
      some { s with subs := s.subs.modify next (·.offer env), parser := .fanningOut event env (next + 1) }) :
    Kept { s with subs := s.subs.modify next (·.offer env), parser := .fanningOut event env (next + 1) } := by
  apply h.of_step hstep
  · have hnumbered := h.numbered
    rw [hparser] at hnumbered
    exact hnumbered
  · intro j x hx
    have hx' : (s.subs.modify next (·.offer env))[j]? = some x := hx
    rw [List.getElem?_modify] at hx'
    obtain ⟨sub, hsub, rfl⟩ := Option.map_eq_some_iff.mp hx'
    have hmatched := h.matched j sub hsub
    unfold offered at hmatched ⊢
    rw [hparser] at hmatched
    simp only at hmatched ⊢
    by_cases hnext : next = j
    · subst hnext
      have hsettings : (sub.offer env).settings = _ := Subscriber.offer_settings env
      unfold Subscriber.settings at hsettings
      simp only [Prod.mk.injEq] at hsettings
      obtain ⟨hfilter, -, hafter⟩ := hsettings
      rw [if_pos rfl, if_pos (Nat.lt_succ_self next), hafter, hfilter, hmatched, if_neg (lt_irrefl next),
        List.append_nil, List.filter_append]
    · have hlt : j < next + 1 ↔ j < next := by omega
      rw [if_neg hnext, hmatched]
      simp only [hlt]

theorem build (h : Kept s) {a : RuntimeAction} (hidle : s.parser.inFanOut = []) {event : RawEvent} {env : Envelope}
    (hstep : s.step setup a = some { s with parser := .fanningOut event ⟨s.fannedOut.length, env⟩ 0 }) :
    Kept { s with parser := .fanningOut event ⟨s.fannedOut.length, env⟩ 0 } := by
  have hnumbered := h.numbered
  rw [hidle, List.append_nil] at hnumbered
  refine h.frame hstep ?_ (fun j x hx => ⟨x, hx, rfl⟩) ?_
  · show (s.fannedOut ++ [_]).map _ = List.range (s.fannedOut ++ [_]).length
    rw [List.map_append, hnumbered, List.length_append, List.length_singleton, List.range_succ]
    rfl
  · intro j _
    rw [offered_idle hidle]
    exact List.append_nil _

theorem fanned (h : Kept s) {a : RuntimeAction} {event : RawEvent} {env : SharedEnvelope} {next : ℕ}
    {processed : List RawEvent} (hparser : s.parser = .fanningOut event env next) (hend : s.subs.length ≤ next)
    (hstep : s.step setup a = some { s with parser := .selecting, processed, fannedOut := s.fannedOut ++ [env] }) :
    Kept { s with parser := .selecting, processed, fannedOut := s.fannedOut ++ [env] } := by
  have hnumbered := h.numbered
  rw [hparser] at hnumbered
  refine h.frame hstep ?_ (fun j x hx => ⟨x, hx, rfl⟩) ?_
  · show ((s.fannedOut ++ [env]) ++ []).map _ = List.range ((s.fannedOut ++ [env]) ++ []).length
    rw [List.append_nil]
    exact hnumbered
  · intro j hj
    have hlt : j < next := lt_of_lt_of_le hj hend
    unfold offered
    rw [hparser]
    simp only
    rw [if_pos hlt, List.append_nil]

theorem parser (h : Kept s) {a : ParserAction} (hstep : s.step setup (.parser a) = some t) : Kept t := by
  have hparse : s.parserStep setup a = some t := hstep
  cases parserStep_spec hparse with
  | build hparser => exact h.build (by rw [hparser]; rfl) hstep
  | offer hparser => exact h.offer hparser hstep
  | fanned hparser hend => exact h.fanned hparser hend hstep
  | finish hparser => exact h.idle hstep (by rw [hparser]; rfl) (by rw [hparser]; rfl) rfl rfl
  | cancel hparser =>
      obtain hparser | ⟨event, hparser⟩ := hparser <;> exact h.idle hstep (by rw [hparser]; rfl) rfl rfl rfl
  | receive hparser | inputClosed hparser | shutdown hparser | skip hparser | dropSender hparser | exit hparser =>
      exact h.idle hstep (by rw [hparser]; rfl) rfl rfl rfl

/-- **One step of the pipeline.** -/
theorem step (h : Kept s) {a : RuntimeAction} (hstep : s.step setup a = some t) : Kept t := by
  cases a with
  | signal =>
      have hsignal := hstep
      cases hsignal
      exact h.elsewhere hstep rfl rfl (fun j x hx => ⟨x, hx, rfl⟩)
  | source i a =>
      obtain ⟨task, task', lines, -, rfl, -⟩ := sourceStep_spec hstep
      exact h.elsewhere hstep rfl rfl (fun j x hx => ⟨x, hx, rfl⟩)
  | parser a => exact h.parser hstep
  | sink j a => exact h.sink hstep
  | supervisor a => exact h.supervised hstep

/-- What `fan_out` has shown to a subscriber it has shown once. -/
theorem offered_nodup (h : Kept s) (j : ℕ) : (s.offered j).Nodup := by
  have hsublist : (s.offered j).Sublist (s.fannedOut ++ s.parser.inFanOut) := by
    by_cases hidle : s.parser.inFanOut = []
    · rw [offered_idle hidle]
      exact List.sublist_append_left _ _
    · cases hparser : s.parser with
      | fanningOut event env next =>
          unfold offered
          rw [hparser]
          simp only
          split_ifs
          · exact List.Sublist.refl _
          · rw [List.append_nil]
            exact List.sublist_append_left _ _
      | _ => exact absurd (by rw [hparser]; rfl) hidle
  have hnodup : (s.fannedOut ++ s.parser.inFanOut).Nodup := by
    apply List.Nodup.of_map (·.seq)
    rw [h.numbered]
    exact List.nodup_range
  exact hnodup.sublist hsublist

end Kept

/-! ### Every run -/

/-- **The account of a subscriber.**  What has matched is what passes the filter among the
envelopes shown to it, each once; each is in exactly one of the six places; and the sink has
been through those that were not dropped in the order of the fan-out, one after the other,
with the queue still before it. -/
structure Conserved (s : Runtime) (j : ℕ) (sub : Subscriber) : Prop where
  matched : sub.subscribersMatched = (s.offered j).filter (fun env => sub.filter env.env)
  once : sub.subscribersMatched.Nodup
  partition : sub.subscribersMatched.Perm (sub.queue ++ sub.sink.inDelivery ++ sub.delivered ++ sub.deadLettered ++
    sub.droppedQueueFull ++ sub.droppedChannelClosed)
  inOrder : ∃ tried, Serial tried sub.log ∧ (tried ++ sub.queue).Sublist sub.subscribersMatched ∧
    tried.Perm (sub.sink.inDelivery ++ sub.delivered ++ sub.deadLettered)

/-- **Enqueued by its own filter and queue.**  The next step of `fan_out` leaves the other
subscribers alone, and enqueues the envelope if it passes the filter and the queue has
room. -/
def DecidedAlone (setup : ParserSetup) (s : Runtime) : Prop :=
  ∀ event env (j : ℕ) sub, s.parser = .fanningOut event env j → s.subs[j]? = some sub →
    ∃ t sub', s.step setup (.parser .fanOut) = some t ∧ (∀ k : ℕ, k ≠ j → t.subs[k]? = s.subs[k]?) ∧
      t.subs[j]? = some sub' ∧
      sub'.queue = if sub.filter env.env = true ∧ sub.queue.length < sub.capacity then sub.queue ++ [env] else sub.queue

theorem Kept.conserved {s : Runtime} (h : Kept s) (hshutdown : s.shutdown = false) (habort : s.abortSinks = false)
    {j : ℕ} {sub : Subscriber} (hsub : s.subs[j]? = some sub) : Conserved s j sub := by
  obtain ⟨hperm, hsublist, done, haccepted, hdone, hwork⟩ := h.balanced hshutdown habort j sub hsub
  have hmatched := h.matched j sub hsub
  have hin : (done ++ sub.sink.inDelivery).Perm (sub.sink.inDelivery ++ sub.delivered ++ sub.deadLettered) := by
    rw [List.append_assoc]
    exact List.perm_append_comm.trans (hdone.append_left _)
  constructor
  · exact hmatched
  · rw [hmatched]
    exact (h.offered_nodup j).filter _
  · refine hperm.trans ((List.Perm.append_right _ ?_).append_right _)
    have hright : sub.queue ++ sub.sink.inDelivery ++ sub.delivered ++ sub.deadLettered =
        sub.queue ++ (sub.sink.inDelivery ++ sub.delivered ++ sub.deadLettered) := by
      simp only [List.append_assoc]
    rw [haccepted, hright]
    exact List.perm_append_comm.trans (hin.append_left _)
  · refine ⟨done ++ sub.sink.inDelivery, ?_, haccepted ▸ hsublist, hin⟩
    unfold Subscriber.Worked at hwork
    cases hsink : sub.sink with
    | delivering d sleeping =>
        rw [hsink] at hwork
        exact hwork.settle
    | receiving =>
        rw [hsink] at hwork
        rw [show SinkPhase.receiving.inDelivery = [] from rfl, List.append_nil]
        exact hwork
    | returned =>
        rw [hsink] at hwork
        rw [show SinkPhase.returned.inDelivery = [] from rfl, List.append_nil]
        exact hwork

theorem Kept.decidedAlone {s : Runtime} (h : Kept s) (hshutdown : s.shutdown = false) (habort : s.abortSinks = false)
    (setup : ParserSetup) : DecidedAlone setup s := by
  intro event env j sub hparser hsub
  have hlt : j < s.subs.length := (List.getElem?_eq_some_iff.mp hsub).1
  have hopen : sub.receiverDropped = false := by
    by_contra hdropped
    have hsender := h.receiving hshutdown habort j sub hsub (Bool.eq_true_of_not_eq_false hdropped)
    unfold senderDropped at hsender
    rw [hparser] at hsender
    cases hsender
  refine ⟨{ s with subs := s.subs.modify j (·.offer env), parser := .fanningOut event env (j + 1) },
    sub.offer env, ?_, ?_, ?_, Subscriber.offer_queue hopen env⟩
  · show s.parserStep setup .fanOut = _
    unfold parserStep
    rw [hparser]
    exact if_pos hlt
  · intro k hk
    exact List.getElem?_modify_ne _ _ (Ne.symm hk)
  · show (s.subs.modify j _)[j]? = _
    rw [List.getElem?_modify_eq, hsub]
    rfl

/-- **Conservation and order.**  In every state of a run that no shutdown or abort has
reached, every subscriber's account is right, and whether an envelope is enqueued is
decided by the subscriber alone. -/
theorem deliveries_conserved {setup : ParserSetup} {sources : List Source} {subscribers : List SubscriberConfig}
    {subscriberQueue : ℕ} {actions : List RuntimeAction} {s : Runtime}
    (hrun : Run (step setup) (fun _ _ => True) (start sources subscribers subscriberQueue) actions s)
    (hshutdown : s.shutdown = false) (habort : s.abortSinks = false) :
    (∀ (j : ℕ) sub, s.subs[j]? = some sub → Conserved s j sub) ∧ DecidedAlone setup s := by
  have hkept : Kept s :=
    hrun.invariant (fun _ _ _ h _ hstep => h.step hstep) (Kept.start sources subscribers subscriberQueue)
  constructor
  · intro j sub hsub
    exact hkept.conserved hshutdown habort hsub
  · exact hkept.decidedAlone hshutdown habort setup

/-- An audit line goes to a subscriber that answers 503 and then 200. -/
theorem deliveries_conserved_retried : ∃ s sub, s.subs[0]? = some sub ∧ sub.delivered.length = 1 ∧
    sub.log.map Prod.snd = [1, 2] ∧ Conserved s 0 sub := by
  let line : Bytes := Utf8.encode "\x7b\"action\":\"block\",\"would_block_rules\":[]\x7d\n".toList
  let setup : ParserSetup := ⟨Json.standard, [], "relay".toList⟩
  let init : Runtime := start [.stdin .start] [⟨"siem".toList, true, fun _ => true, 2⟩] 1
  let actions : List RuntimeAction :=
    [.source 0 (.act (.stdin (.arrive line))), .source 0 (.act (.stdin .readLine)),
      .source 0 (.act (.stdin .accept)), .parser .receive, .parser (.parse [] "id".toList 0), .parser .fanOut,
      .sink 0 .receive, .parser .fanOut, .sink 0 (.reply (.status 503)), .sink 0 (.wake "retry".toList 1),
      .sink 0 (.reply (.status 200))]
  have hcheck : (Run.exec (step setup) (fun _ _ => True) init actions).any (fun s =>
      !s.shutdown && !s.abortSinks && s.subs[0]?.any fun sub =>
        sub.delivered.length == 1 && sub.log.map Prod.snd == [1, 2]) = true := by decide +kernel
  obtain ⟨s, hexec, hs⟩ := (Option.any_eq_true _ _).mp hcheck
  simp only [Bool.and_eq_true, Bool.not_eq_eq_eq_not, Bool.not_true] at hs
  obtain ⟨⟨hshutdown, habort⟩, hsub⟩ := hs
  obtain ⟨sub, hsub, hdelivered⟩ := (Option.any_eq_true _ _).mp hsub
  simp only [Bool.and_eq_true, beq_iff_eq] at hdelivered
  have hconserved := deliveries_conserved (Run.of_exec hexec) hshutdown habort
  exact ⟨s, sub, hsub, hdelivered.1, hdelivered.2, hconserved.1 0 sub hsub⟩

end Runtime

end PurpleWolf.Relay
