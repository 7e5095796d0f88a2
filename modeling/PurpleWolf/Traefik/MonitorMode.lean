import PurpleWolf.Core.Structural
import PurpleWolf.Lib.JsonParser
import PurpleWolf.Traefik.Entry

/-! # Monitor mode

In monitor mode requests are to be logged and let through.  `judge` keeps to that, since
`decide` consults the global mode; the policy for bodies over the cap does not.
`monitor_allows_iff` says for which requests it makes a difference. -/

namespace PurpleWolf.Traefik

variable {Env : Type} (P : PercentDecoder) (S : Json.Codec)

/-- The request is let through and no response is written. -/
def LetsThrough (state : PluginState Env) (host : Host) (env : Env) : Prop :=
  ∃ out, inspect P S state host env = some out ∧ out.action = .allow ∧ out.response = none

theorem judge_monitor {state : PluginState Env} (hmode : state.cfg.mode = .monitor) (req : Request) (env : Env) :
    (judge S state req env).1 = .allow ∧ (judge S state req env).2.1 = none := by
  have hallow : ∀ verdicts, (Policy.decide verdicts state.cfg.mode (effectiveGroupMode state.cfg)).action =
      .allow := by
    intro verdicts
    have hblock := (Policy.decide_resolves state.cfg.mode (effectiveGroupMode state.cfg) verdicts).block_iff
    cases hd : (Policy.decide verdicts state.cfg.mode (effectiveGroupMode state.cfg)).action with
    | allow => rfl
    | block =>
        have henforce := (hblock.mp hd).1
        rw [hmode] at henforce
        cases henforce
  unfold judge
  simp only [hallow]
  exact ⟨trivial, trivial⟩

/-- **When monitor mode lets a request through** whose body is read without error: unless
bodies over the cap are blocked and this one is. -/
theorem monitor_allows_iff {state : PluginState Env} {host : Host} {drained : Drained} {body : BodyRead}
    (hmode : state.cfg.mode = .monitor)
    (hread : host.readRequestBody state.cfg.body.maxInspectBytes (state.cfg.body.overCap == .pass) = some drained)
    (hok : drained.result = .ok body) (env : Env) :
    LetsThrough P S state host env ↔
      ¬ (state.cfg.body.overCap = .block ∧
        min state.cfg.body.maxInspectBytes MAX_ALLOC < (deliveredBody host.bodyAnswers).length) := by
  have hexceeded := (readRequestBody_bytes hread hok).2
  unfold LetsThrough inspect
  simp only [hread, hok, ← hexceeded, Option.map_some, Option.some.injEq, exists_eq_left']
  by_cases hover : (body.exceeded && state.cfg.body.overCap == .block) = true
  · rw [if_pos hover]
    rw [Bool.and_eq_true, beq_iff_eq] at hover
    constructor
    · rintro ⟨hallow, -⟩
      cases hallow
    · intro hnot
      exact absurd ⟨hover.2, hover.1⟩ hnot
  · rw [if_neg hover]
    rw [Bool.and_eq_true, beq_iff_eq] at hover
    constructor
    · rintro - ⟨hpolicy, hlong⟩
      exact hover ⟨hlong, hpolicy⟩
    · intro _
      exact judge_monitor S hmode _ env

/-- A plugin in monitor mode that blocks bodies of more than one byte, with the structural detector. -/
def monitorCap : PluginState Unit where
  cfg := ⟨.monitor, .failOpen, ⟨1, .block⟩, Groups.allMonitor, ReputationConfig.default, ⟨0⟩, ∅⟩
  engine := ⟨[Structural.detector]⟩
  fallback := false

/-- A host that delivers a body of `size` bytes, with the end of the stream. -/
def bodyOf (size : ℕ) : Host where
  method _ := (Vector.replicate _ 0, 0)
  uri _ := (Vector.replicate _ 0, 0)
  sourceAddr _ := (Vector.replicate _ 0, 0)
  headerNames _ := (Vector.replicate _ 0, 0)
  headerValues _ _ := (Vector.replicate _ 0, 0)
  features := 1
  body := [(Vector.replicate _ 0x61, 0x100000000 + BitVec.ofNat 64 size)]

/-- The empty method is reported and the request let through. -/
theorem monitor_allows_one :
    (monitorCap.engine.inspect (buildRequest PercentDecoder.standard monitorCap.cfg (bodyOf 1) ⟨[0x61], false⟩)
      [.structural] ()).1.map Verdict.rule = ["method_not_allowed".toList] ∧
      LetsThrough PercentDecoder.standard Json.standard monitorCap (bodyOf 1) () := by
  refine ⟨by decide, ?_⟩
  have hread : ∃ drained body, (bodyOf 1).readRequestBody 1 false = some drained ∧ drained.result = .ok body :=
    ⟨_, _, rfl, rfl⟩
  obtain ⟨drained, body, hread, hok⟩ := hread
  rw [monitor_allows_iff PercentDecoder.standard Json.standard rfl hread hok]
  rintro ⟨-, hlong⟩
  exact absurd hlong (by decide)

/-- Two bytes are over the cap: the request is blocked in monitor mode. -/
theorem monitor_blocks_two : monitorCap.cfg.mode = .monitor ∧
    (∃ drained body, (bodyOf 2).readRequestBody 1 false = some drained ∧ drained.result = .ok body) ∧
      ∃ out, inspect PercentDecoder.standard Json.standard monitorCap (bodyOf 2) () = some out ∧
        out.action = .block ∧ out.response = some ⟨403, "body exceeds inspection cap".toList⟩ := by
  refine ⟨rfl, ⟨_, _, rfl, rfl⟩, ?_⟩
  exact ⟨_, rfl, rfl, rfl⟩

end PurpleWolf.Traefik
