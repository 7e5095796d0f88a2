import PurpleWolf.Relay.Config
import PurpleWolf.Relay.HttpEnricher
import PurpleWolf.Relay.Retry

/-! # Building the pipeline (`pipeline.rs`, `enrichers/mod.rs`)

`construct` is the first part of `pipeline::run`: it builds the enrichers, then for every
enabled subscriber its DLQ, its channel and its sink, then the channel of the sources.
`serve` goes on with what may panic later: the caches storing answers and the sinks finding
their delays.  A panic is modelled by `none`.

The validator bounds none of the numbers that reach the libraries from above, so a valid
configuration can still make the relay panic.  `runPipeline_isSome_iff` says exactly when none
does. -/

namespace PurpleWolf.Relay

/-! ### The enrichers -/

inductive BuiltEnricher where
  | lookup (onLabel : Str) (table : AList (fun _ : Str => Labels))
  | http (e : HttpEnricher)

variable (lib : Libraries)

/-- `Duration::from_millis` -/
def fromMillis (ms : ℕ) : ℕ := ms * 10 ^ 6

/-- `Duration::from_secs` -/
def fromSecs (s : ℕ) : ℕ := s * 10 ^ 9

/-- `enrichers::build` -/
def buildEnricher : Config.EnricherConfig → Option BuiltEnricher
  | .lookup onLabel table => some (.lookup onLabel table)
  | .http c =>
      (HttpEnricher.new lib c.onLabel c.url (fromMillis c.timeoutMs) (fromSecs c.cacheTtlS) c.cacheCapacity).map .http

/-! ### The sinks -/

/-- What `run` sets up for an enabled subscriber. -/
structure PerSubscriber where
  id : Str
  url : Str
  timeout : ℕ
  filter : CompiledFilter
  retry : RetrySchedule
  maxAttempts : ℕ
  secret : Bytes
  queue : ℕ

/-- `config_from`, with the filter and the capacity of the queue. -/
def PerSubscriber.new (s : Config.SubscriberConfig) (secret : Bytes) (queue : ℕ) : PerSubscriber where
  id := s.id
  url := s.url
  timeout := fromMillis s.timeoutMs
  filter := CompiledFilter.compile s.filter
  retry := ⟨s.retry.baseDelayMs, s.retry.maxDelayMs⟩
  maxAttempts := s.retry.maxAttempts
  secret := secret
  queue := queue

/-- The configuration of a subscriber as the sinks see it. -/
def sinkConfig (s : Config.SubscriberConfig) : SubscriberConfig where
  id := s.id
  enabled := s.enabled
  filter := (CompiledFilter.compile s.filter).accepts
  maxAttempts := s.retry.maxAttempts

/-- The subscriber as the run begins with it. -/
def PerSubscriber.start (s : PerSubscriber) : Subscriber :=
  .new { id := s.id, enabled := true, filter := s.filter.accepts, maxAttempts := s.maxAttempts } s.queue

/-- The allocations for one sink: those of its DLQ and of its channel. -/
def buildSink (queue : ℕ) : Option Unit :=
  (Libraries.withCapacity lib.dlqCapacity 1000).bind fun _ => lib.channel queue

/-- The loop over the subscribers. -/
def buildSubscribers (os : Config.Os) (resolved : Config.Resolved) :
    List Config.SubscriberConfig → Option (Except Str (List PerSubscriber))
  | [] => some (.ok [])
  | s :: rest =>
      if !s.enabled then buildSubscribers os resolved rest
      else
        match resolved.subscriberSecrets.lookup s.id with
        | none => some (.error ("validated subscriber ".toList ++ os.quote s.id ++ " has no secret".toList))
        | some secret =>
            let queue := resolved.raw.relay.subscriberQueue
            (buildSink lib queue).bind fun _ =>
              (buildSubscribers os resolved rest).map fun subs =>
                subs.map (PerSubscriber.new s secret queue :: ·)

/-! ### The pipeline -/

structure Pipeline where
  enrichers : List BuiltEnricher
  subs : List PerSubscriber

/-- The construction in `pipeline::run`. -/
def construct (os : Config.Os) (resolved : Config.Resolved) : Option (Except Str Pipeline) :=
  (resolved.raw.enrichments.mapM (buildEnricher lib)).bind fun enrichers =>
    (buildSubscribers lib os resolved resolved.raw.subscribers).bind fun subs =>
      match subs with
      | .error e => some (.error e)
      | .ok subs => (lib.channel SOURCE_CHANNEL_CAP).map fun _ => .ok { enrichers, subs }

/-- A step of the running relay that calls a partial operation: an enricher has got an
answer, or a sink needs a delay. -/
inductive LaterCall where
  | cachePut (i : ℕ) (value : Str) (labels : Labels) (t : HttpEnricher.PutTimes)
  | nextDelay (j attempt : ℕ) (jitter : ℕ → ℕ)

namespace Pipeline

def call (p : Pipeline) : LaterCall → Option Pipeline
  | .cachePut i value labels t =>
      match p.enrichers[i]? with
      | some (.http e) => (e.keep lib value labels t).map fun e => { p with enrichers := p.enrichers.set i (.http e) }
      | _ => some p
  | .nextDelay j attempt jitter =>
      match p.subs[j]? with
      | some sub => (sub.retry.nextDelay jitter attempt).map fun _ => p
      | none => some p

/-- Later calls, in any order. -/
def serve (p : Pipeline) (calls : List LaterCall) : Option Pipeline := calls.foldlM (call lib) p

end Pipeline

/-- `pipeline::run`, as far as it may panic. -/
def runPipeline (os : Config.Os) (resolved : Config.Resolved) (calls : List LaterCall) : Option (Except Str Pipeline) :=
  (construct lib os resolved).bind fun built =>
    match built with
    | .error e => some (.error e)
    | .ok p => (p.serve lib calls).map .ok

/-! ### When nothing panics -/

/-- The numbers that the configuration passes to the libraries are within their limits. -/
structure Config.Fits (cfg : Config) : Prop where
  queue : (∃ s ∈ cfg.subscribers, s.enabled = true) → cfg.relay.subscriberQueue ≤ lib.target.usizeMax >>> 3
  capacity : ∀ c, .http c ∈ cfg.enrichments → c.cacheCapacity ≤ lib.hashMapCapacity ∧ c.cacheCapacity ≤ lib.lruCapacity

/-- An answer that is kept expires before the last instant. -/
def LaterCall.Fits (cfg : Config) : LaterCall → Prop
  | .cachePut i _ _ t => ∀ c, cfg.enrichments[i]? = some (.http c) → c.cacheTtlS ≠ 0 →
      t.now + fromSecs c.cacheTtlS ≤ lib.lastInstant
  | .nextDelay _ _ _ => True

/-! ### The enrichers -/

theorem mapM_isSome_iff {α β : Type} (f : α → Option β) (as : List α) :
    (as.mapM f).isSome ↔ ∀ a ∈ as, (f a).isSome := by
  induction as with
  | nil => simp
  | cons a as ih =>
      rw [List.mapM_cons, List.forall_mem_cons, ← ih]
      cases f a with
      | none => simp
      | some b => cases as.mapM f <;> simp

theorem map_mapM {α β γ : Type} {f : α → Option β} {g : α → γ} {g' : β → γ} (h : ∀ a b, f a = some b → g' b = g a)
    {as : List α} {bs : List β} (hbs : as.mapM f = some bs) : bs.map g' = as.map g := by
  induction as generalizing bs with
  | nil =>
      cases hbs
      rfl
  | cons a as ih =>
      rw [List.mapM_cons] at hbs
      obtain ⟨b, hb, hbs⟩ := Option.bind_eq_some_iff.mp hbs
      obtain ⟨bs', hbs', heq⟩ := Option.bind_eq_some_iff.mp hbs
      cases heq
      rw [List.map_cons, List.map_cons, h a b hb, ih hbs']

/-- How long the answers of an enricher are kept, if it has a cache. -/
def BuiltEnricher.cacheTtl : BuiltEnricher → Option ℕ
  | .lookup _ _ => none
  | .http e => some e.cacheTtl

def Config.EnricherConfig.cacheTtl : Config.EnricherConfig → Option ℕ
  | .lookup _ _ => none
  | .http c => some (fromSecs c.cacheTtlS)

variable {lib : Libraries}

theorem buildEnricher_isSome_iff (c : Config.EnricherConfig) :
    (buildEnricher lib c).isSome ↔
      ∀ h, c = .http h → h.cacheCapacity ≤ lib.hashMapCapacity ∧ h.cacheCapacity ≤ lib.lruCapacity := by
  cases c with
  | lookup onLabel table => exact iff_of_true rfl (fun h heq => nomatch heq)
  | http c =>
      rw [buildEnricher, Option.isSome_map, HttpEnricher.new_isSome_iff]
      constructor
      · rintro h _ ⟨⟩
        exact h
      · exact fun h => h c rfl

theorem cacheTtl_buildEnricher (c : Config.EnricherConfig) (b : BuiltEnricher) (h : buildEnricher lib c = some b) :
    b.cacheTtl = c.cacheTtl := by
  cases c with
  | lookup onLabel table =>
      cases h
      rfl
  | http c =>
      obtain ⟨e, he, rfl⟩ := Option.map_eq_some_iff.mp h
      obtain ⟨cache, -, rfl⟩ := Option.map_eq_some_iff.mp he
      rfl

/-! ### The sinks -/

variable (lib) in
theorem buildSink_isSome_iff {queue : ℕ} (hqueue : 0 < queue) :
    (buildSink lib queue).isSome ↔ queue ≤ lib.target.usizeMax >>> 3 := by
  unfold buildSink Libraries.withCapacity Libraries.channel
  rw [if_pos lib.dlq_fits, Option.bind_some]
  split_ifs with h
  · apply iff_of_false (by simp)
    omega
  · apply iff_of_true rfl
    omega

section Subscribers

variable {resolved : Config.Resolved} {subscribers : List Config.SubscriberConfig}

variable (lib) in
/-- With their secrets at hand, the sinks are built unless a channel cannot be. -/
theorem buildSubscribers_isSome_iff (os : Config.Os) (hqueue : 0 < resolved.raw.relay.subscriberQueue)
    (hsecrets : ∀ s ∈ subscribers, (resolved.subscriberSecrets.lookup s.id).isSome) :
    (buildSubscribers lib os resolved subscribers).isSome ↔
      ((∃ s ∈ subscribers, s.enabled = true) → resolved.raw.relay.subscriberQueue ≤ lib.target.usizeMax >>> 3) := by
  induction subscribers with
  | nil => exact iff_of_true rfl (by simp)
  | cons s rest ih =>
      obtain ⟨hsecret, hrest⟩ := List.forall_mem_cons.mp hsecrets
      obtain ⟨secret, hsecret⟩ := Option.isSome_iff_exists.mp hsecret
      unfold buildSubscribers
      cases henabled : s.enabled with
      | false => simpa [henabled] using ih hrest
      | true =>
          have hany : ∃ t ∈ s :: rest, t.enabled = true := ⟨s, List.mem_cons_self, henabled⟩
          have hsink := buildSink_isSome_iff lib hqueue
          simp only [Bool.not_true, Bool.false_eq_true, if_false, hsecret]
          rw [forall_prop_of_true hany, ← hsink]
          cases hbuilt : buildSink lib resolved.raw.relay.subscriberQueue with
          | none => rfl
          | some _ =>
              have hfits := hsink.mp (by rw [hbuilt]; rfl)
              rw [Option.bind_some, Option.isSome_map, ih hrest]
              exact iff_of_true (fun _ => hfits) rfl

theorem buildSubscribers_eq_some {os : Config.Os}
    (hsecrets : ∀ s ∈ subscribers, (resolved.subscriberSecrets.lookup s.id).isSome)
    {built : Except Str (List PerSubscriber)} (h : buildSubscribers lib os resolved subscribers = some built) :
    ∃ subs, built = .ok subs ∧ subs.map PerSubscriber.start =
      ((subscribers.map sinkConfig).filter (·.enabled)).map fun c => .new c resolved.raw.relay.subscriberQueue := by
  induction subscribers generalizing built with
  | nil =>
      cases h
      exact ⟨[], rfl, rfl⟩
  | cons s rest ih =>
      obtain ⟨hsecret, hrest⟩ := List.forall_mem_cons.mp hsecrets
      obtain ⟨secret, hsecret⟩ := Option.isSome_iff_exists.mp hsecret
      unfold buildSubscribers at h
      cases henabled : s.enabled with
      | false =>
          simp only [henabled, Bool.not_false, if_true] at h
          obtain ⟨subs, hbuilt, hstart⟩ := ih hrest h
          refine ⟨subs, hbuilt, ?_⟩
          have hskip : ¬ (sinkConfig s).enabled = true := by simp [sinkConfig, henabled]
          rw [hstart, List.map_cons, List.filter_cons_of_neg hskip]
      | true =>
          simp only [henabled, Bool.not_true, Bool.false_eq_true, if_false, hsecret] at h
          obtain ⟨_, -, h⟩ := Option.bind_eq_some_iff.mp h
          obtain ⟨built', hbuilt', heq⟩ := Option.map_eq_some_iff.mp h
          obtain ⟨subs, rfl, hstart⟩ := ih hrest hbuilt'
          refine ⟨_, heq.symm, ?_⟩
          have htake : (sinkConfig s).enabled = true := henabled
          rw [List.map_cons, List.map_cons, List.filter_cons_of_pos htake, List.map_cons, hstart]
          rfl

end Subscribers

/-! ### The construction -/

section Construct

variable {os : Config.Os} {cfg : Config} {resolved : Config.Resolved}

theorem channel_source : lib.channel SOURCE_CHANNEL_CAP = some () := by
  have hfits := lib.source_channel_fits
  unfold Libraries.channel
  rw [if_neg]
  intro h
  obtain h | h := h
  · exact absurd h (by decide)
  · omega

/-- **Building a validated pipeline** does not panic exactly if the numbers fit. -/
theorem construct_isSome_iff (h : Config.validate os cfg = .ok resolved) :
    (construct lib os resolved).isSome ↔ cfg.Fits lib := by
  obtain ⟨hvalid, rfl, hsecrets⟩ := Config.validate_eq_ok h
  have hsubs := buildSubscribers_isSome_iff lib os hvalid.queue_pos hsecrets
  have henrichers := mapM_isSome_iff (buildEnricher lib) resolved.raw.enrichments
  have hfits : resolved.raw.Fits lib ↔ (resolved.raw.enrichments.mapM (buildEnricher lib)).isSome ∧
      (buildSubscribers lib os resolved resolved.raw.subscribers).isSome := by
    rw [hsubs, henrichers]
    constructor
    · intro hfits
      refine ⟨fun c hc => ?_, hfits.queue⟩
      rw [buildEnricher_isSome_iff]
      rintro h rfl
      exact hfits.capacity h hc
    · intro hfits
      exact ⟨hfits.2, fun c hc => (buildEnricher_isSome_iff _).mp (hfits.1 _ hc) c rfl⟩
  rw [hfits]
  unfold construct
  cases resolved.raw.enrichments.mapM (buildEnricher lib) with
  | none => simp
  | some enrichers =>
      cases hbuilt : buildSubscribers lib os resolved resolved.raw.subscribers with
      | none => simp
      | some built =>
          obtain ⟨subs, rfl, -⟩ := buildSubscribers_eq_some hsecrets hbuilt
          simp [channel_source]

/-- What is built is the pipeline of the configuration, and the run begins with its sinks. -/
theorem construct_eq_some (h : Config.validate os cfg = .ok resolved) {built : Except Str Pipeline}
    (hbuilt : construct lib os resolved = some built) (sources : List Source) :
    ∃ p, built = .ok p ∧
      p.enrichers.map BuiltEnricher.cacheTtl = cfg.enrichments.map Config.EnricherConfig.cacheTtl ∧
      p.subs.map PerSubscriber.start =
        (Runtime.start sources (cfg.subscribers.map sinkConfig) cfg.relay.subscriberQueue).subs := by
  obtain ⟨-, rfl, hsecrets⟩ := Config.validate_eq_ok h
  obtain ⟨enrichers, henrichers, hbuilt⟩ := Option.bind_eq_some_iff.mp hbuilt
  obtain ⟨_, hsubs, hbuilt⟩ := Option.bind_eq_some_iff.mp hbuilt
  obtain ⟨subs, rfl, hstart⟩ := buildSubscribers_eq_some hsecrets hsubs
  obtain ⟨_, -, rfl⟩ := Option.map_eq_some_iff.mp hbuilt
  exact ⟨_, rfl, map_mapM cacheTtl_buildEnricher henrichers, hstart⟩

end Construct

/-! ### The running relay -/

namespace Pipeline

/-- The caches are those of the configuration. -/
def Serves (cfg : Config) (p : Pipeline) : Prop :=
  p.enrichers.map BuiltEnricher.cacheTtl = cfg.enrichments.map Config.EnricherConfig.cacheTtl

variable {cfg : Config} {p p' : Pipeline}

theorem Serves.http (hp : p.Serves cfg) {i : ℕ} {e : HttpEnricher} (h : p.enrichers[i]? = some (.http e)) :
    ∃ c, cfg.enrichments[i]? = some (.http c) ∧ e.cacheTtl = fromSecs c.cacheTtlS := by
  have hi := congrArg (fun ttls => ttls[i]?) hp
  simp only [List.getElem?_map, h, Option.map_some] at hi
  obtain ⟨c, hc, httl⟩ := Option.map_eq_some_iff.mp hi.symm
  cases c with
  | lookup onLabel table => cases httl
  | http c => exact ⟨c, hc, (Option.some.inj httl).symm⟩

theorem Serves.of_http (hp : p.Serves cfg) {i : ℕ} {c : Config.HttpEnricherConfig}
    (h : cfg.enrichments[i]? = some (.http c)) : ∃ e, p.enrichers[i]? = some (.http e) := by
  have hi := congrArg (fun ttls => ttls[i]?) hp
  simp only [List.getElem?_map, h, Option.map_some] at hi
  obtain ⟨e, he, httl⟩ := Option.map_eq_some_iff.mp hi
  cases e with
  | lookup onLabel table => cases httl
  | http e => exact ⟨e, he⟩

theorem call_isSome_iff (hp : p.Serves cfg) (c : LaterCall) : (p.call lib c).isSome ↔ c.Fits lib cfg := by
  cases c with
  | cachePut i value labels t =>
      simp only [call, LaterCall.Fits]
      split
      · case h_1 e he =>
          obtain ⟨c, hc, httl⟩ := hp.http he
          rw [Option.isSome_map, HttpEnricher.keep_isSome_iff, httl]
          have hzero : fromSecs c.cacheTtlS ≠ 0 ↔ c.cacheTtlS ≠ 0 := by
            unfold fromSecs
            omega
          rw [hzero]
          constructor
          · intro h c' hc'
            rw [hc] at hc'
            cases hc'
            exact h
          · exact fun h => h c hc
      · case h_2 hno =>
          refine iff_of_true rfl (fun c hc => ?_)
          obtain ⟨e, he⟩ := hp.of_http hc
          exact absurd he (hno e)
  | nextDelay j attempt jitter =>
      simp only [call]
      refine iff_of_true ?_ trivial
      split
      · rw [Option.isSome_map]
        exact RetrySchedule.nextDelay_isSome jitter _ attempt
      · rfl

theorem Serves.call {c : LaterCall} (hp : p.Serves cfg) (h : p.call lib c = some p') : p'.Serves cfg := by
  cases c with
  | cachePut i value labels t =>
      simp only [Pipeline.call] at h
      split at h
      · case h_1 e he =>
          obtain ⟨e', he', rfl⟩ := Option.map_eq_some_iff.mp h
          have hsame : (BuiltEnricher.http e').cacheTtl = (BuiltEnricher.http e).cacheTtl :=
            congrArg some (HttpEnricher.cacheTtl_keep lib he')
          obtain ⟨hi, he⟩ := List.getElem?_eq_some_iff.mp he
          unfold Serves
          rw [List.map_set, hsame, ← List.map_set, ← he, List.set_getElem_self]
          exact hp
      · cases h
        exact hp
  | nextDelay j attempt jitter =>
      simp only [Pipeline.call] at h
      split at h
      · obtain ⟨_, -, rfl⟩ := Option.map_eq_some_iff.mp h
        exact hp
      · cases h
        exact hp

/-- **The running relay** does not panic exactly if no answer is kept for too long. -/
theorem serve_isSome_iff (hp : p.Serves cfg) (calls : List LaterCall) :
    (p.serve lib calls).isSome ↔ ∀ c ∈ calls, c.Fits lib cfg := by
  induction calls generalizing p with
  | nil => simp [serve]
  | cons c calls ih =>
      rw [List.forall_mem_cons, ← call_isSome_iff hp]
      unfold serve at ih ⊢
      rw [List.foldlM_cons]
      cases hcall : p.call lib c with
      | none => simp
      | some p' => simpa using ih (hp.call hcall)

end Pipeline

/-- **When a validated configuration does not make the relay panic**, while it is built and
later: its numbers are within the limits of the libraries, and the clock stays far enough
from its end. -/
theorem runPipeline_isSome_iff {os : Config.Os} {cfg : Config} {resolved : Config.Resolved}
    (h : Config.validate os cfg = .ok resolved) (calls : List LaterCall) :
    (runPipeline lib os resolved calls).isSome ↔ cfg.Fits lib ∧ ∀ c ∈ calls, c.Fits lib cfg := by
  rw [← construct_isSome_iff h]
  unfold runPipeline
  cases hbuilt : construct lib os resolved with
  | none => simp
  | some built =>
      obtain ⟨p, rfl, hserves, -⟩ := construct_eq_some h hbuilt []
      simpa using Pipeline.serve_isSome_iff hserves calls

/-- What a 64-bit host can take: a bucket of the map has 64 bytes, a `String` 24, an
`Envelope` less than 1024, and an instant counts its seconds in an `i64`. -/
def Libraries.native64 : Libraries where
  target := .native64
  hashMapCapacity := 7 * 2 ^ 53
  lruCapacity := (2 ^ 63 - 1) / 24
  dlqCapacity := (2 ^ 63 - 1) / 1024
  lastInstant := (2 ^ 63 - 1) * 10 ^ 9 + 999999999
  dlq_fits := by decide
  source_channel_fits := by decide

/-- One subscriber, and an HTTP enricher that keeps its answers for a day. -/
theorem runPipeline_default :
    let os : Config.Os := ⟨fun _ => some "hmac".toList, fun _ => .error [], none, id⟩
    let cfg : Config := {
      sources := [.stdin]
      enrichments := [.http { onLabel := "tenant".toList, url := "http://cmdb/x".toList, cacheTtlS := 86400 }]
      subscribers := [{ id := "siem".toList, url := "https://siem".toList, secretEnv := some "KEY".toList }] }
    let resolved : Config.Resolved := {
      raw := cfg
      subscriberSecrets := (∅ : AList fun _ : Str => Bytes).insert "siem".toList (Utf8.encode "hmac".toList)
      instanceId := "purple-wolf-relay".toList
      adminToken := none }
    let calls : List LaterCall := [.nextDelay 0 3 id, .cachePut 0 "acme".toList ∅ ⟨10 ^ 15, 10 ^ 15⟩]
    Config.validate os cfg = .ok resolved ∧ (runPipeline .native64 os resolved calls).isSome := by
  intro os cfg resolved calls
  have hvalid : Config.validate os cfg = .ok resolved := rfl
  refine ⟨hvalid, (runPipeline_isSome_iff hvalid calls).mpr ⟨⟨?_, ?_⟩, ?_⟩⟩
  · intro _
    decide
  · intro c hc
    obtain rfl := Config.EnricherConfig.http.inj (List.mem_singleton.mp hc)
    decide
  · intro c hc
    obtain rfl | hc := List.mem_cons.mp hc
    · trivial
    · rw [List.mem_singleton.mp hc]
      intro e he _
      obtain rfl := Config.EnricherConfig.http.inj (Option.some.inj he)
      decide

/-- The validator lets the largest queue pass, and the channel cannot be created. -/
theorem runPipeline_panics :
    let os : Config.Os := ⟨fun _ => some "hmac".toList, fun _ => .error [], none, id⟩
    let cfg : Config := {
      sources := [.stdin]
      subscribers := [{ id := "siem".toList, url := "https://siem".toList, secretEnv := some "KEY".toList }]
      relay := { subscriberQueue := 2 ^ 64 - 1 } }
    ∃ resolved, Config.validate os cfg = .ok resolved ∧ runPipeline .native64 os resolved [] = none := by
  intro os cfg
  refine ⟨_, rfl, ?_⟩
  rfl

end PurpleWolf.Relay
