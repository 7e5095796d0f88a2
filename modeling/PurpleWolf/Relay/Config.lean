import PurpleWolf.Lib.Text
import PurpleWolf.Lib.Utf8
import PurpleWolf.Relay.Filter

/-! # The configuration of the relay and its validator (`config.rs`)

`validate` checks a configuration and resolves the secrets that it refers to.  An error is
the text of its message.  The environment variables, the files and the host name are given
by an `Os`; a path is the text that `display` makes of it.  The numbers are not bounded by
their types here, as no check depends on that.  Reading the file that the configuration is
written in is left out. -/

namespace PurpleWolf.Relay

/-! ### The schema -/

structure Config.RelayConfig where
  instanceId : Option Str := none
  subscriberQueue : ℕ := 10000
  adminTokenEnv : Option Str := none
  adminTokenFile : Option Str := none

inductive Config.SourceConfig where
  | logTail (path : Str) (fromBeginning : Bool)
  | stdin

structure Config.HttpEnricherConfig where
  onLabel : Str
  url : Str
  timeoutMs : ℕ := 500
  cacheTtlS : ℕ := 300
  cacheCapacity : ℕ := 1024

inductive Config.EnricherConfig where
  | lookup (onLabel : Str) (table : AList (fun _ : Str => Labels))
  | http (c : Config.HttpEnricherConfig)

structure Config.RetryConfig where
  maxAttempts : ℕ := 8
  baseDelayMs : ℕ := 500
  maxDelayMs : ℕ := 600000

structure Config.SubscriberConfig where
  id : Str
  url : Str
  secretEnv : Option Str := none
  secretFile : Option Str := none
  filter : SubscriberFilter := ⟨∅, none, none⟩
  retry : Config.RetryConfig := {}
  timeoutMs : ℕ := 30000
  enabled : Bool := true

structure Config where
  sources : List Config.SourceConfig
  enrichments : List Config.EnricherConfig := []
  subscribers : List Config.SubscriberConfig
  relay : Config.RelayConfig := {}

namespace Config

open Text

/-- A validated configuration with its secrets. -/
structure Resolved where
  raw : Config
  subscriberSecrets : AList (fun _ : Str => Bytes)
  instanceId : Str
  adminToken : Option Str

/-! ### What is asked of the system -/

structure Os where
  /-- An environment variable, if it is set to a text. -/
  var : Str → Option Str
  /-- The contents of a file, or the text of the error. -/
  read : Str → Except Str Bytes
  /-- The host name, if it is a text. -/
  hostname : Option Str
  /-- What `{:?}` makes of a text; it depends on the tables of Unicode. -/
  quote : Str → Str

/-- `std::fs::read_to_string` -/
def Os.readToString (os : Os) (path : Str) : Except Str Str := do
  let bytes ← os.read path
  match Utf8.decode? bytes with
  | some s => .ok s
  | none => .error "stream did not contain valid UTF-8".toList

/-! ### The validator -/

/-- `if bad { anyhow::bail!(message) }` -/
def bailIf (bad : Prop) [Decidable bad] (message : Str) : Except Str Unit :=
  if bad then .error message else .ok ()

variable (os : Os)

/-- A variable that must be set to something; `unset` and `empty` are the messages. -/
def envSecret (name unset empty : Str) : Except Str Str := do
  let v ← (os.var name).elim (.error unset) .ok
  bailIf (v = []) empty
  return v

def resolveAdminToken (relay : RelayConfig) : Except Str (Option Str) :=
  match relay.adminTokenEnv, relay.adminTokenFile with
  | none, none => .ok none
  | some _, some _ => .error "relay: only one of admin_token_env / admin_token_file may be set".toList
  | some envName, none => do
      let about := "relay: admin_token_env ".toList ++ os.quote envName
      let v ← envSecret os envName (about ++ " is not set".toList) (about ++ " is empty".toList)
      return some v
  | none, some path => do
      let s ← (os.readToString path).mapError fun e =>
        "relay: reading admin_token_file ".toList ++ path ++ ": ".toList ++ e
      let trimmed := trim s
      bailIf (trimmed = []) ("relay: admin_token_file ".toList ++ path ++ " is empty".toList)
      return some trimmed

/-- The bytes that are cut off the end of a secret file. -/
def isPadding (b : UInt8) : Bool := b == 0x0A || b == 0x0D || b == 0x20 || b == 0x09

def resolveSecret (s : SubscriberConfig) : Except Str Bytes :=
  let about := "subscriber ".toList ++ os.quote s.id
  match s.secretEnv, s.secretFile with
  | some _, some _ => .error (about ++ ": only one of secret_env / secret_file may be set".toList)
  | none, none => .error (about ++ ": one of secret_env / secret_file must be set".toList)
  | some envName, none => do
      let reference := about ++ ": env var ".toList ++ os.quote envName ++ " (referenced by secret_env)".toList
      let v ← envSecret os envName (reference ++ " is not set".toList) (reference ++ " is empty".toList)
      return Utf8.encode v
  | none, some path => do
      let bytes ← (os.read path).mapError fun e =>
        about ++ ": reading secret_file ".toList ++ path ++ ": ".toList ++ e
      let trimmed := bytes.rdropWhile isPadding
      bailIf (trimmed = []) (about ++ ": secret_file ".toList ++ path ++ " is empty".toList)
      return trimmed

/-- No identifier may come twice; `seen` are those of the subscribers before. -/
def checkIds : List Str → List SubscriberConfig → Except Str Unit
  | _, [] => .ok ()
  | seen, s :: rest => do
      bailIf (s.id ∈ seen) ("config: duplicate subscriber id ".toList ++ os.quote s.id)
      checkIds (s.id :: seen) rest

def SchemeOk (url : Str) : Prop := "http://".toList <+: url ∨ "https://".toList <+: url

instance (url : Str) : Decidable (SchemeOk url) := inferInstanceAs (Decidable (_ ∨ _))

/-- The checks of one subscriber; its secret is resolved between them. -/
def checkSubscriber (s : SubscriberConfig) : Except Str Bytes := do
  let about := "subscriber ".toList ++ os.quote s.id
  bailIf (¬ SchemeOk s.url) (about ++ ": url ".toList ++ os.quote s.url ++ " must be http:// or https://".toList)
  let secret ← resolveSecret os s
  bailIf (s.retry.maxAttempts = 0) (about ++ ": retry.max_attempts must be ≥ 1".toList)
  bailIf (s.retry.baseDelayMs > s.retry.maxDelayMs)
    (about ++ ": retry.base_delay_ms (".toList ++ decimal s.retry.baseDelayMs ++
      ") > retry.max_delay_ms (".toList ++ decimal s.retry.maxDelayMs ++ ")".toList)
  return secret

def checkSubscribers : AList (fun _ : Str => Bytes) → List SubscriberConfig →
    Except Str (AList (fun _ : Str => Bytes))
  | secrets, [] => .ok secrets
  | secrets, s :: rest => do
      let secret ← checkSubscriber os s
      checkSubscribers (secrets.insert s.id secret) rest

def resolveInstanceId (relay : RelayConfig) : Str :=
  (relay.instanceId.or (os.hostname.filter (fun s => !s.isEmpty))).getD "purple-wolf-relay".toList

def validate (cfg : Config) : Except Str Resolved := do
  bailIf (cfg.sources = []) "config: at least one source must be configured".toList
  bailIf (cfg.relay.subscriberQueue = 0) "relay.subscriber_queue must be greater than zero".toList
  checkIds os [] cfg.subscribers
  let subscriberSecrets ← checkSubscribers os ∅ cfg.subscribers
  let instanceId := resolveInstanceId os cfg.relay
  let adminToken ← resolveAdminToken os cfg.relay
  return { raw := cfg, subscriberSecrets, instanceId, adminToken }

/-! ### What a validated configuration is -/

/-- What the checks of one subscriber establish. -/
structure SubscriberConfig.Valid (s : SubscriberConfig) : Prop where
  scheme : SchemeOk s.url
  secret : s.secretEnv.isSome ↔ s.secretFile = none
  maxAttempts_pos : 0 < s.retry.maxAttempts
  delays : s.retry.baseDelayMs ≤ s.retry.maxDelayMs

/-- What the validator establishes. -/
structure Valid (cfg : Config) : Prop where
  sources : cfg.sources ≠ []
  queue_pos : 0 < cfg.relay.subscriberQueue
  ids_nodup : (cfg.subscribers.map (·.id)).Nodup
  subscribers : ∀ s ∈ cfg.subscribers, s.Valid

section Except

variable {α β : Type}

theorem bind_eq_ok {x : Except Str α} {f : α → Except Str β} {b : β} :
    (x >>= f) = .ok b ↔ ∃ a, x = .ok a ∧ f a = .ok b := by
  cases x <;> simp [bind, Except.bind]

theorem bailIf_bind_eq_ok {bad : Prop} [Decidable bad] {message : Str} {next : Unit → Except Str β} {b : β} :
    (bailIf bad message >>= next) = .ok b ↔ ¬ bad ∧ next () = .ok b := by
  unfold bailIf
  by_cases hbad : bad <;> simp [hbad, bind, Except.bind]

end Except

variable {os : Os}

theorem checkIds_eq_ok {seen : List Str} {subscribers : List SubscriberConfig}
    (h : checkIds os seen subscribers = .ok ()) :
    (subscribers.map (·.id)).Nodup ∧ ∀ s ∈ subscribers, s.id ∉ seen := by
  induction subscribers generalizing seen with
  | nil => exact ⟨List.nodup_nil, by simp⟩
  | cons s rest ih =>
      obtain ⟨hnew, hrest⟩ := bailIf_bind_eq_ok.mp h
      obtain ⟨hnodup, hfresh⟩ := ih hrest
      constructor
      · rw [List.map_cons, List.nodup_cons]
        refine ⟨?_, hnodup⟩
        rw [List.mem_map]
        rintro ⟨t, ht, hid⟩
        apply hfresh t ht
        rw [hid]
        exact List.mem_cons_self
      · intro t ht
        obtain rfl | ht := List.mem_cons.mp ht
        · exact hnew
        · exact fun hseen => hfresh t ht (List.mem_cons_of_mem _ hseen)

theorem resolveSecret_eq_ok {s : SubscriberConfig} {secret : Bytes} (h : resolveSecret os s = .ok secret) :
    s.secretEnv.isSome ↔ s.secretFile = none := by
  unfold resolveSecret at h
  cases henv : s.secretEnv <;> cases hfile : s.secretFile
  · rw [henv, hfile] at h
    cases h
  · simp
  · simp
  · rw [henv, hfile] at h
    cases h

theorem checkSubscriber_eq_ok {s : SubscriberConfig} {secret : Bytes} (h : checkSubscriber os s = .ok secret) :
    s.Valid := by
  obtain ⟨hscheme, h⟩ := bailIf_bind_eq_ok.mp h
  obtain ⟨secret', hsecret, h⟩ := bind_eq_ok.mp h
  obtain ⟨hattempts, h⟩ := bailIf_bind_eq_ok.mp h
  obtain ⟨hdelays, -⟩ := bailIf_bind_eq_ok.mp h
  exact ⟨not_not.mp hscheme, resolveSecret_eq_ok hsecret, Nat.pos_of_ne_zero hattempts, not_lt.mp hdelays⟩

/-- Every subscriber is checked and has its secret stored, and no other key is touched. -/
theorem checkSubscribers_eq_ok {secrets resolved : AList (fun _ : Str => Bytes)} {subscribers : List SubscriberConfig}
    (h : checkSubscribers os secrets subscribers = .ok resolved) :
    (∀ s ∈ subscribers, s.Valid ∧ (resolved.lookup s.id).isSome) ∧
      ∀ id, (secrets.lookup id).isSome → (resolved.lookup id).isSome := by
  induction subscribers generalizing secrets with
  | nil =>
      cases h
      exact ⟨by simp, fun id hid => hid⟩
  | cons s rest ih =>
      obtain ⟨secret, hcheck, hrest⟩ := bind_eq_ok.mp h
      obtain ⟨hall, hkeep⟩ := ih hrest
      have hstored : ((secrets.insert s.id secret).lookup s.id).isSome := by
        rw [AList.lookup_insert]
        rfl
      constructor
      · intro t ht
        obtain rfl | ht := List.mem_cons.mp ht
        · exact ⟨checkSubscriber_eq_ok hcheck, hkeep _ hstored⟩
        · exact hall t ht
      · intro id hid
        apply hkeep
        by_cases heq : id = s.id
        · rw [heq]
          exact hstored
        · rw [AList.lookup_insert_ne heq]
          exact hid

/-- **What `validate` answers for**: the configuration is valid and kept as it is, and there
is a secret for every subscriber. -/
theorem validate_eq_ok {cfg : Config} {resolved : Resolved} (h : validate os cfg = .ok resolved) :
    cfg.Valid ∧ resolved.raw = cfg ∧ ∀ s ∈ cfg.subscribers, (resolved.subscriberSecrets.lookup s.id).isSome := by
  obtain ⟨hsources, h⟩ := bailIf_bind_eq_ok.mp h
  obtain ⟨hqueue, h⟩ := bailIf_bind_eq_ok.mp h
  obtain ⟨_, hids, h⟩ := bind_eq_ok.mp h
  obtain ⟨secrets, hsecrets, h⟩ := bind_eq_ok.mp h
  obtain ⟨token, -, h⟩ := bind_eq_ok.mp h
  cases h
  obtain ⟨hall, -⟩ := checkSubscribers_eq_ok hsecrets
  refine ⟨⟨hsources, Nat.pos_of_ne_zero hqueue, ?_, fun s hs => (hall s hs).1⟩, rfl, fun s hs => (hall s hs).2⟩
  exact (checkIds_eq_ok hids).1

end Config

end PurpleWolf.Relay
