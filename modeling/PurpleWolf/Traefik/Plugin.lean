import PurpleWolf.Traefik.Engine
import PurpleWolf.Traefik.MonitorMode
import PurpleWolf.Traefik.WireConfig

/-! # A guest instance (`entry.rs`)

A guest reads its configuration while it handles its first request, and never again.
`handleRequest` is one request, `run` a sequence of them.

* **Runs.**  Every request is judged with the state that the first one has built, and what is
  said about the configuration is said once (`run_judged`).
* **Bad configurations.**  A guest whose configuration is rejected lets every request pass, save
  those whose body is lost, and marks every audit line (`run_fallback`).

A panic does not reach the guest's handler on its target, so the arm for it is left out. -/

namespace PurpleWolf.Traefik

open Signatures Reputation

/-! ### Initialisation -/

/-- What a guest runs with when its configuration is rejected. -/
def fallbackConfig : Config where
  mode := .monitor
  failMode := .failOpen
  body := ⟨1048576, .pass⟩
  groups := Groups.allMonitor
  reputation := ReputationConfig.default
  xff := ⟨0⟩
  labels := ∅

def warningLine (w : Str) : Str := "purple-wolf: ".toList ++ w

def invalidConfigLine (e : Str) : Str :=
  "purple-wolf: invalid Middleware config (".toList ++ e ++ "); falling back to global monitor mode — ".toList ++
    "every detector enabled in monitor; verdicts will appear in audit logs but the WAF will not block. ".toList ++
    "Reload Traefik with a valid config to enable enforcement.".toList

def ignoredEntryLine (debug : Str → Str) (ip : Str) : Str :=
  "purple-wolf: ignoring invalid reputation.denyList entry ".toList ++ debug ip

section Guest

variable (T : Target) (L : Libinjection) (A : AhoCorasick patterns) (P : PercentDecoder) (S : Json.Codec)
  (texts : Texts)

/-- A guest that has been initialised: its state, and the rate limiter in it. -/
structure Live where
  state : PluginState (Reputation.Env T)
  limiter : Limiter T

/-- `ReputationDetector::with_capacity(..)`, a `usize` being at most `usize::MAX`. -/
def newLimiter (cfg : Config) : Limiter T :=
  Limiter.new cfg.reputation.perSecond ⟨min cfg.reputation.maxTrackedIps T.usizeMax, Nat.min_le_right _ _⟩

/-- What is logged while the detectors are built. -/
def engineLines (cfg : Config) : List Str :=
  if .reputation ∈ enabledGroups cfg then
    (cfg.reputation.denyList.filter fun ip => (parseIp ip).isNone).map (ignoredEntryLine texts.debug)
  else []

/-- The initialiser of `STATE`: the state, and what is logged on the way. -/
def initialise (config : Bytes) : Live T × List Str :=
  match parse T S texts config with
  | .ok (cfg, warnings) =>
      (⟨pluginState T L A cfg false, newLimiter T cfg⟩, warnings.map warningLine ++ engineLines texts cfg)
  | .error e =>
      (⟨pluginState T L A fallbackConfig true, newLimiter T fallbackConfig⟩,
        invalidConfigLine e :: engineLines texts fallbackConfig)

/-! ### Requests -/

/-- What happens in one call: what the host answers when it is asked for the configuration and
about the request, and the clock. -/
structure Call where
  config : BufCall 32
  host : Host
  now : ℕ

/-- What the outside sees of a call. -/
structure Handled where
  /-- `1` to go on to the upstream, `0` to stop -/
  answer : ℕ
  preserved : List Bytes
  response : Option Response
  logs : List Str

def handledOf {Env : Type} (out : Outcome Env) : Handled where
  answer := match out.action with
    | .allow => 1
    | .block => 0
  preserved := out.preserved
  response := out.response
  logs := out.logs

/-- More lines in front of the log. -/
def Handled.after (h : Handled) (lines : List Str) : Handled := { h with logs := lines ++ h.logs }

/-- `handle_request()`; nothing while the host has not answered. -/
def handleRequest (guest : Option (Live T)) (call : Call) : Option (Live T × Handled) :=
  let (live, lines) := match guest with
    | some live => (live, [])
    | none => initialise T L A S texts (readBuf call.config)
  (inspect P S live.state call.host ⟨live.limiter, call.now⟩).map fun out =>
    (⟨live.state, out.env.limiter⟩, (handledOf out).after lines)

/-- A sequence of calls of one instance. -/
def run : Option (Live T) → List Call → Option (List Handled)
  | _, [] => some []
  | guest, call :: calls => do
      let (live, h) ← handleRequest T L A P S texts guest call
      let hs ← run (some live) calls
      some (h :: hs)

end Guest

variable {T : Target} {L : Libinjection} {A : AhoCorasick patterns} {P : PercentDecoder} {S : Json.Codec}
  {texts : Texts}

/-- The call was answered with this state, whatever the limiter had seen. -/
def Judged (P : PercentDecoder) (S : Json.Codec) (state : PluginState (Reputation.Env T)) (c : Call) (h : Handled) :
    Prop :=
  ∃ limiter out, inspect P S state c.host ⟨limiter, c.now⟩ = some out ∧ h = handledOf out

theorem run_live : ∀ {live : Live T} {calls : List Call} {hs : List Handled},
    run T L A P S texts (some live) calls = some hs → List.Forall₂ (Judged P S live.state) calls hs
  | _, [], _, h => by
      cases h
      exact .nil
  | live, call :: calls, hs, h => by
      obtain ⟨⟨live', first⟩, hfirst, h⟩ := Option.bind_eq_some_iff.mp h
      obtain ⟨rest, hrest, h⟩ := Option.bind_eq_some_iff.mp h
      cases h
      obtain ⟨out, hout, hlive⟩ := Option.map_eq_some_iff.mp hfirst
      cases hlive
      have hstate := run_live hrest
      exact .cons ⟨_, out, hout, rfl⟩ hstate

/-- A run goes on as long as the host answers. -/
theorem run_isSome : ∀ (live : Live T) (calls : List Call),
    (∀ c ∈ calls, (c.host.readRequestBody live.state.cfg.body.maxInspectBytes
      (live.state.cfg.body.overCap == .pass)).isSome) → (run T L A P S texts (some live) calls).isSome
  | _, [], _ => rfl
  | live, call :: calls, h => by
      obtain ⟨drained, hread⟩ := Option.isSome_iff_exists.mp (h call List.mem_cons_self)
      obtain ⟨out, hout⟩ : ∃ out, inspect P S live.state call.host ⟨live.limiter, call.now⟩ = some out :=
        ⟨_, Option.map_eq_some_iff.mpr ⟨drained, hread, rfl⟩⟩
      have hfirst : handleRequest T L A P S texts (some live) call =
          some (⟨live.state, out.env.limiter⟩, (handledOf out).after []) := by
        change Option.map _ (inspect P S live.state call.host ⟨live.limiter, call.now⟩) = _
        rw [hout]
        rfl
      have hrest := run_isSome ⟨live.state, out.env.limiter⟩ calls fun c hc => h c (List.mem_cons_of_mem _ hc)
      obtain ⟨rest, hrest⟩ := Option.isSome_iff_exists.mp hrest
      unfold run
      rw [hfirst]
      simp only [Option.bind_eq_bind, Option.bind_some, hrest, Option.isSome_some]

theorem run_none (call : Call) (calls : List Call) : run T L A P S texts none (call :: calls) =
    (run T L A P S texts (some (initialise T L A S texts (readBuf call.config)).1) (call :: calls)).map
      fun hs => hs.modifyHead (·.after (initialise T L A S texts (readBuf call.config)).2) := by
  obtain ⟨⟨live, lines⟩, hinit⟩ : ∃ init, initialise T L A S texts (readBuf call.config) = init := ⟨_, rfl⟩
  rw [hinit]
  have hfirst : handleRequest T L A P S texts none call =
      (handleRequest T L A P S texts (some live) call).map fun r => (r.1, r.2.after lines) := by
    unfold handleRequest
    rw [hinit]
    simp only [Option.map_map]
    rfl
  unfold run
  rw [hfirst]
  cases handleRequest T L A P S texts (some live) call with
  | none => rfl
  | some r =>
      obtain ⟨live', h⟩ := r
      simp only [Option.map_some, Option.bind_eq_bind, Option.bind_some]
      cases run T L A P S texts (some live') calls <;> rfl

/-- **A run**: all calls are judged with the state built in the first one, in front of whose log
stands what there is to say about the configuration. -/
theorem run_judged {call : Call} {calls : List Call} {handled : List Handled}
    (h : run T L A P S texts none (call :: calls) = some handled) : ∃ first rest,
      handled = first.after (initialise T L A S texts (readBuf call.config)).2 :: rest ∧
        List.Forall₂ (Judged P S (initialise T L A S texts (readBuf call.config)).1.state) (call :: calls)
          (first :: rest) := by
  rw [run_none] at h
  obtain ⟨hs, hhs, rfl⟩ := Option.map_eq_some_iff.mp h
  have hjudged := run_live hhs
  cases hjudged with
  | @cons _ first _ rest hfirst hrest => exact ⟨first, rest, rfl, .cons hfirst hrest⟩

/-! ### What happens in one call -/

section Handling

variable {Env : Type}

def bodyFailureLine (error : BodyReadError) : Str :=
  "purple-wolf: request-body inspection failed (".toList ++ error.display ++
    "); applying safe failure policy".toList

def blockedResponse : Response := ⟨403, "request blocked by purple-wolf".toList⟩

/-- The audit entry of a request. -/
def auditEntry (state : PluginState Env) (req : Request) (env : Env) : AuditEntry :=
  (AuditEntry.fromWithLabels req (decision state req env).1 state.cfg.labels).withConfigFallback state.fallback

/-- The body stream of a request, read as the configuration says. -/
def readBody (cfg : Config) (host : Host) : Option Drained :=
  host.readRequestBody cfg.body.maxInspectBytes (cfg.body.overCap == .pass)

/-- The three ways in which a call can go. -/
inductive Handling (P : PercentDecoder) (S : Json.Codec) (state : PluginState Env) (host : Host) (env : Env)
    (out : Outcome Env) : Prop where
  | unread {drained : Drained} {error : BodyReadError} (hread : readBody state.cfg host = some drained)
      (herror : drained.result = .error error)
      (hpolicy : (out.action, out.response) = failurePolicy error state.cfg.failMode)
      (hlogs : out.logs = [bodyFailureLine error])
  | overCap {drained : Drained} {body : BodyRead} (hread : readBody state.cfg host = some drained)
      (hok : drained.result = .ok body) (hexceeded : body.exceeded = true) (hblock : state.cfg.body.overCap = .block)
      (haction : out.action = .block) (hresponse : out.response = some ⟨403, "body exceeds inspection cap".toList⟩)
      (hlogs : out.logs = [])
  | judged {drained : Drained} {body : BodyRead} {req : Request} (hread : readBody state.cfg host = some drained)
      (hok : drained.result = .ok body) (hcap : ¬ (body.exceeded = true ∧ state.cfg.body.overCap = .block))
      (hreq : req = buildRequest P state.cfg host body) (haction : out.action = (decision state req env).1.action)
      (hresponse : out.response = if out.action = .block then some blockedResponse else none)
      (hlogs : out.logs = if decisionIsNoteworthy (decision state req env).1 state.fallback
        then [(auditEntry state req env).toLogLine S] else [])

theorem judge_eq (S : Json.Codec) (state : PluginState Env) (req : Request) (env : Env) :
    judge S state req env = ((decision state req env).1.action,
      if (decision state req env).1.action = .block then some blockedResponse else none,
      if decisionIsNoteworthy (decision state req env).1 state.fallback
        then [(auditEntry state req env).toLogLine S] else [],
      (decision state req env).2) := by
  unfold judge auditEntry decision
  simp only
  cases (Policy.decide (state.engine.inspect req (enabledGroups state.cfg) env).1 state.cfg.mode
    (effectiveGroupMode state.cfg)).action <;> rfl

theorem handling_of_inspect {state : PluginState Env} {host : Host} {env : Env} {out : Outcome Env}
    (h : inspect P S state host env = some out) : Handling P S state host env out := by
  obtain ⟨drained, hread, hout⟩ := Option.map_eq_some_iff.mp h
  cases hresult : drained.result with
  | error error =>
      rw [hresult] at hout
      cases hout
      exact .unread hread hresult rfl rfl
  | ok body =>
      rw [hresult] at hout
      simp only at hout
      split_ifs at hout with hcap
      · rw [Bool.and_eq_true, beq_iff_eq] at hcap
        cases hout
        exact .overCap hread hresult hcap.1 hcap.2 rfl rfl rfl
      · rw [Bool.and_eq_true, beq_iff_eq] at hcap
        rw [judge_eq] at hout
        cases hout
        exact .judged hread hresult hcap rfl rfl rfl rfl

end Handling

/-! ### A rejected configuration -/

/-- The request passes, or its body is lost. -/
structure FallbackHandled (S : Json.Codec) (c : Call) (h : Handled) : Prop where
  answers : h.answer = 0 ∨ h.answer = 1
  /-- stopped only if what has been read of the body cannot be put back -/
  stopped : h.answer = 0 ↔ ∃ drained error, readBody fallbackConfig c.host = some drained ∧
    drained.result = .error error ∧ error.forwardingIsSafe = false
  /-- a request that was judged has one line, and it says that the configuration was rejected -/
  marked : ∀ drained body, readBody fallbackConfig c.host = some drained → drained.result = .ok body →
    ∃ entry : AuditEntry, h.logs = [entry.toLogLine S] ∧ entry.configFallback = true ∧
      entry.action = AuditEntry.actionStr .allow

theorem decision_monitor {Env : Type} {state : PluginState Env} (hmode : state.cfg.mode = .monitor) (req : Request)
    (env : Env) : (decision state req env).1.action = .allow := by
  obtain ⟨hallow, -⟩ := judge_monitor Json.standard hmode req env
  rw [judge_eq] at hallow
  exact hallow

theorem fallbackHandled {state : PluginState (Reputation.Env T)} (hcfg : state.cfg = fallbackConfig)
    (hfallback : state.fallback = true) {c : Call} {h : Handled} (hjudged : Judged P S state c h) :
    FallbackHandled S c h := by
  obtain ⟨limiter, out, hout, rfl⟩ := hjudged
  cases handling_of_inspect hout with
  | @unread drained error hread herror hpolicy hlogs =>
      rw [hcfg] at hread hpolicy
      have haction : out.action = if error.forwardingIsSafe then .allow else .block :=
        (congrArg Prod.fst hpolicy).trans (by cases error <;> rfl)
      refine ⟨?_, ?_, fun drained' body hread' hok => ?_⟩
      · unfold handledOf
        cases out.action
        · exact Or.inr rfl
        · exact Or.inl rfl
      · constructor
        · intro hstop
          refine ⟨drained, error, hread, herror, ?_⟩
          cases hsafe : error.forwardingIsSafe with
          | false => rfl
          | true =>
              rw [hsafe] at haction
              simp [handledOf, haction] at hstop
        · rintro ⟨drained', error', hread', herror', hsafe⟩
          cases hread.symm.trans hread'
          cases herror.symm.trans herror'
          rw [hsafe] at haction
          simp [handledOf, haction]
      · cases hread.symm.trans hread'
        rw [herror] at hok
        cases hok
  | overCap hread hok hexceeded hblock =>
      rw [hcfg] at hblock
      cases hblock
  | @judged drained body req hread hok hcap hreq haction hresponse hlogs =>
      have hallow := decision_monitor (hcfg ▸ rfl : state.cfg.mode = .monitor) req ⟨limiter, c.now⟩
      rw [hallow] at haction
      refine ⟨Or.inr (by simp [handledOf, haction]), ?_, fun _ _ _ _ => ?_⟩
      · apply iff_of_false (by simp [handledOf, haction])
        rintro ⟨drained', error, hread', herror, -⟩
        rw [hcfg] at hread
        cases hread.symm.trans hread'
        rw [hok] at herror
        cases herror
      · have hnoteworthy : decisionIsNoteworthy (decision state req ⟨limiter, c.now⟩).1 state.fallback = true := by
          unfold decisionIsNoteworthy
          rw [hfallback, Bool.or_true]
        rw [hnoteworthy, if_pos rfl] at hlogs
        refine ⟨_, hlogs, ?_, ?_⟩
        · exact hfallback
        · exact congrArg AuditEntry.actionStr hallow

/-- **A rejected configuration.**  However many requests a guest serves, and whatever it would
be told later: it says once why it falls back, it stops no request but those whose body it has
lost, and every request that it judges leaves an audit line that is marked. -/
theorem run_fallback {call : Call} {calls : List Call} {handled : List Handled} {e : Str}
    (hbad : parse T S texts (readBuf call.config) = .error e)
    (h : run T L A P S texts none (call :: calls) = some handled) : ∃ first rest,
      handled = first.after [invalidConfigLine e] :: rest ∧
        List.Forall₂ (FallbackHandled S) (call :: calls) (first :: rest) := by
  obtain ⟨first, rest, hhandled, hjudged⟩ := run_judged h
  have hinit : initialise T L A S texts (readBuf call.config) =
      (⟨pluginState T L A fallbackConfig true, newLimiter T fallbackConfig⟩, [invalidConfigLine e]) := by
    have hquiet : engineLines texts fallbackConfig = [] := by
      unfold engineLines
      exact ite_eq_right_iff.mpr fun _ => rfl
    unfold initialise
    rw [hbad]
    simp only [hquiet]
  rw [hinit] at hhandled hjudged
  exact ⟨first, rest, hhandled, hjudged.imp fun c h hch => fallbackHandled rfl rfl hch⟩

/-- A host without buffering, one that delivers a byte, and no configuration at all. -/
def emptyCall (features : BitVec 32) : Call where
  config _ := (Vector.replicate _ 0, 0)
  host := { bodyOf 1 with features := features }
  now := 0

theorem parse_emptyCall (features : BitVec 32) :
    parse Target.wasm32 Json.standard ⟨fun _ => [], id⟩ (readBuf (emptyCall features).config) = .error [] := by
  have hempty : readBuf (emptyCall features).config = [] := rfl
  rw [hempty]
  rfl

theorem run_emptyCall_isSome :
    (run Target.wasm32 ⟨fun _ => false, fun _ => false⟩ (AhoCorasick.standard patterns patterns_ne_nil)
      PercentDecoder.standard Json.standard ⟨fun _ => [], id⟩ none [emptyCall 0, emptyCall 1]).isSome := by
  rw [run_none, Option.isSome_map]
  refine run_isSome _ _ fun c hc => ?_
  unfold initialise
  rw [parse_emptyCall]
  simp only [List.mem_cons, List.not_mem_nil, or_false] at hc
  rcases hc with rfl | rfl <;> rfl

theorem run_fallback_empty : ∃ handled first rest e,
    run Target.wasm32 ⟨fun _ => false, fun _ => false⟩ (AhoCorasick.standard patterns patterns_ne_nil)
        PercentDecoder.standard Json.standard ⟨fun _ => [], id⟩ none [emptyCall 0, emptyCall 1] = some handled ∧
      handled = first.after [invalidConfigLine e] :: rest ∧
        List.Forall₂ (FallbackHandled Json.standard) [emptyCall 0, emptyCall 1] (first :: rest) := by
  obtain ⟨handled, hrun⟩ := Option.isSome_iff_exists.mp run_emptyCall_isSome
  obtain ⟨first, rest, h⟩ := run_fallback (parse_emptyCall 0) hrun
  exact ⟨handled, first, rest, [], hrun, h⟩

end PurpleWolf.Traefik
