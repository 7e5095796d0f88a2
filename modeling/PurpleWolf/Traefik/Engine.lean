import PurpleWolf.Core.Injection
import PurpleWolf.Core.Reputation
import PurpleWolf.Core.Structural
import PurpleWolf.Core.Signatures
import PurpleWolf.Traefik.Entry

/-! # The engine of the plugin (`entry.rs`)

The plugin builds and runs the detectors of those groups only that are not off.
`decisions_pluginState` compares it with an engine of all four detectors that runs every one
of them on every request: the decisions are the same, over any sequence of requests.

What the operator is told about unreadable deny-list entries is left out. -/

namespace PurpleWolf.Traefik

open Signatures Reputation

variable (T : Target) (L : Libinjection) (A : AhoCorasick patterns)

/-- The detector of a group. -/
def detectorOf (cfg : Config) : Group → Detector (Reputation.Env T)
  | .injection => Injection.detector L
  | .signatures => Signatures.detector A
  | .structural => Structural.detector
  | .reputation => Reputation.detector (DenyList.new (cfg.reputation.denyList.filterMap parseIp))

def engine (cfg : Config) (enabledGroups : List Group) : Engine (Reputation.Env T) :=
  ⟨enabledGroups.map (detectorOf T L A cfg)⟩

/-- The state of the plugin, for a configuration that has been read. -/
def pluginState (cfg : Config) (fallback : Bool) : PluginState (Reputation.Env T) :=
  ⟨cfg, engine T L A cfg (enabledGroups cfg), fallback⟩

/-! ### Decisions -/

section Decision

variable {Env : Type}

/-- The decision on one request. -/
def decision (state : PluginState Env) (req : Request) (env : Env) : Decision × Env :=
  let (verdicts, env) := state.engine.inspect req (enabledGroups state.cfg) env
  (Policy.decide verdicts state.cfg.mode (effectiveGroupMode state.cfg), env)

theorem judge_decision (S : Json.Codec) (state : PluginState Env) (req : Request) (env : Env) :
    (judge S state req env).1 = (decision state req env).1.action ∧
      (judge S state req env).2.2.2 = (decision state req env).2 := by
  unfold judge decision
  simp only
  cases (Policy.decide (state.engine.inspect req (enabledGroups state.cfg) env).1 state.cfg.mode
    (effectiveGroupMode state.cfg)).action <;> exact ⟨rfl, rfl⟩

end Decision

def allGroups : List Group := [.injection, .signatures, .structural, .reputation]

/-- The decision when all four detectors are built and run. -/
def decisionOfAll (cfg : Config) (req : Request) (env : Reputation.Env T) : Decision × Reputation.Env T :=
  let (verdicts, env) := (engine T L A cfg allGroups).inspect req allGroups env
  (Policy.decide verdicts cfg.mode (effectiveGroupMode cfg), env)

variable {T}

/-- The decisions on a sequence of requests, each with the reading of the clock. -/
def decisions (decideOne : Request → Reputation.Env T → Decision × Reputation.Env T) :
    Limiter T → List (ℕ × Request) → List Decision
  | _, [] => []
  | limiter, (now, req) :: requests =>
      let (d, env) := decideOne req ⟨limiter, now⟩
      d :: decisions decideOne env.limiter requests

/-! ### Skipping a group -/

/-- The clock is shared; the limiter is only looked at when its group is on. -/
def Agree (p : Group → Bool) (env env' : Reputation.Env T) : Prop :=
  env.now = env'.now ∧ (p .reputation = true → env.limiter = env'.limiter)

theorem group_detectorOf (cfg : Config) (g : Group) : (detectorOf T L A cfg g).group = g := by
  cases g <;> rfl

theorem skippable_detectorOf (cfg : Config) (p : Group → Bool) (g : Group) :
    Engine.Skippable p (Agree p) (detectorOf T L A cfg g) := by
  cases g with
  | injection =>
      apply Engine.Skippable.of_stateless (fun _ _ => rfl)
      exact fun req v hv => Injection.group_of_mem hv
  | signatures =>
      apply Engine.Skippable.of_stateless (fun _ _ => rfl)
      exact fun req v hv => Signatures.group_of_mem hv
  | structural =>
      apply Engine.Skippable.of_stateless (fun _ _ => rfl)
      exact fun req v hv => Structural.group_of_mem hv
  | reputation =>
      constructor
      · exact fun req env v hv => Reputation.group_of_mem hv
      · intro hp req env env' h
        have hsame : env = env' := by
          obtain ⟨limiter, now⟩ := env
          obtain ⟨limiter', now'⟩ := env'
          obtain ⟨hnow, hlimiter⟩ := h
          simp only at hnow hlimiter
          rw [hnow, hlimiter hp]
        subst hsame
        exact ⟨rfl, rfl, fun _ => rfl⟩
      · intro hp req env env' h
        refine ⟨h.1, ?_⟩
        intro hon
        rw [show (detectorOf T L A cfg .reputation).group = .reputation from rfl] at hp
        rw [hp] at hon
        cases hon

/-- The groups that are on. -/
def isOn (cfg : Config) (g : Group) : Bool := effectiveGroupMode cfg g != .off

theorem enabledGroups_eq (cfg : Config) : enabledGroups cfg = allGroups.filter (isOn cfg) := rfl

/-- One request: the same decision, and environments that still agree. -/
theorem decision_pluginState (cfg : Config) (fallback : Bool) (req : Request) {env env' : Reputation.Env T}
    (h : Agree (isOn cfg) env env') :
    (decision (pluginState T L A cfg fallback) req env).1 = (decisionOfAll T L A cfg req env').1 ∧
      Agree (isOn cfg) (decision (pluginState T L A cfg fallback) req env).2
        (decisionOfAll T L A cfg req env').2 := by
  have hbuilt : (engine T L A cfg (enabledGroups cfg)).running (enabledGroups cfg) =
      (engine T L A cfg allGroups).detectors.filter (fun d => isOn cfg d.group) := by
    unfold Engine.running engine
    rw [enabledGroups_eq, List.filter_map, List.filter_map, List.filter_filter]
    congr 1
    apply List.filter_congr
    intro g hg
    simp [group_detectorOf, hg]
  have hall : (engine T L A cfg allGroups).running allGroups = (engine T L A cfg allGroups).detectors := by
    unfold Engine.running engine
    apply List.filter_eq_self.mpr
    intro d hd
    obtain ⟨g, hg, rfl⟩ := List.mem_map.mp hd
    rw [group_detectorOf]
    simpa using hg
  have hskip : ∀ d ∈ (engine T L A cfg allGroups).detectors, Engine.Skippable (isOn cfg) (Agree (isOn cfg)) d := by
    intro d hd
    obtain ⟨g, -, rfl⟩ := List.mem_map.mp hd
    exact skippable_detectorOf L A cfg _ g
  obtain ⟨hverdicts, hagree⟩ := Engine.reports_skip req _ env env' hskip h
  unfold decision decisionOfAll pluginState Engine.inspect
  simp only [hbuilt, hall]
  refine ⟨?_, hagree⟩
  rw [hverdicts, ← Policy.decide_seen]
  conv_rhs => rw [← Policy.decide_seen]
  congr 1
  unfold Policy.seen isOn
  rw [List.filter_filter]
  apply List.filter_congr
  intro v _
  simp

/-- **Skipping the groups that are off is invisible**: every request of a sequence is
decided as by all four detectors together. -/
theorem decisions_pluginState (cfg : Config) (fallback : Bool) (hcap : cfg.reputation.maxTrackedIps ≤ T.usizeMax)
    (requests : List (ℕ × Request)) :
    decisions (decision (pluginState T L A cfg fallback))
        (Limiter.new cfg.reputation.perSecond ⟨cfg.reputation.maxTrackedIps, hcap⟩) requests =
      decisions (decisionOfAll T L A cfg)
        (Limiter.new cfg.reputation.perSecond ⟨cfg.reputation.maxTrackedIps, hcap⟩) requests := by
  have hrun : ∀ (requests : List (ℕ × Request)) (limiter limiter' : Limiter T),
      (isOn cfg .reputation = true → limiter = limiter') →
        decisions (decision (pluginState T L A cfg fallback)) limiter requests =
          decisions (decisionOfAll T L A cfg) limiter' requests := by
    intro requests
    induction requests with
    | nil =>
        intro limiter limiter' _
        rw [decisions, decisions]
    | cons r requests ih =>
        intro limiter limiter' h
        obtain ⟨now, req⟩ := r
        have hagree : Agree (isOn cfg) ⟨limiter, now⟩ ⟨limiter', now⟩ := ⟨rfl, h⟩
        obtain ⟨hsame, -, hlimiter⟩ := decision_pluginState L A cfg fallback req hagree
        unfold decisions
        simp only [hsame]
        rw [ih _ _ hlimiter]
  exact hrun requests _ _ (fun _ => rfl)

/-- A plugin with the reputation group off: the limiter it never asks is full after one
request. -/
def quietConfig : Config where
  mode := .enforce
  failMode := .failOpen
  body := ⟨1024, .pass⟩
  groups := { Groups.allMonitor with reputation := none }
  reputation := ⟨1, [], 1⟩
  xff := ⟨0⟩
  labels := ∅

/-- An engine that takes nothing for an injection. -/
def trusting : Libinjection := ⟨fun _ => false, fun _ => false⟩

theorem decisions_quiet :
    decisions (decision (pluginState Target.wasm32 trusting (AhoCorasick.standard patterns patterns_ne_nil)
        quietConfig false))
        (Limiter.new 1 ⟨1, Target.wasm32.one_le⟩) [(0, traversalRequest), (0, traversalRequest)] =
      decisions (decisionOfAll Target.wasm32 trusting (AhoCorasick.standard patterns patterns_ne_nil) quietConfig)
        (Limiter.new 1 ⟨1, Target.wasm32.one_le⟩) [(0, traversalRequest), (0, traversalRequest)] :=
  decisions_pluginState trusting _ quietConfig false Target.wasm32.one_le _

end PurpleWolf.Traefik
