import PurpleWolf.Basic

/-! # Configuration (`config.rs`)

The parsed configuration of one middleware, as the plugin uses it.  The labels are validated in
`Core.Labels`, and the document that Traefik delivers is parsed in `Traefik.WireConfig`. -/

namespace PurpleWolf

/-- Global switch: log only, or block and log. -/
inductive Mode where
  | monitor
  | enforce
  deriving DecidableEq

/-- What happens when the inspection itself fails. -/
inductive FailMode where
  | failOpen
  | failClosed
  deriving DecidableEq

/-- Enforcement level of one detector group. -/
inductive GroupMode where
  | enforce
  | monitor
  | off
  deriving DecidableEq

/-- What happens to a body longer than `maxInspectBytes`. -/
inductive OverCap where
  | pass
  | block
  deriving DecidableEq

structure BodyConfig where
  maxInspectBytes : ℕ
  overCap : OverCap

structure GroupConfig where
  enabled : Bool
  mode : GroupMode

structure Groups where
  injection : Option GroupConfig
  signatures : Option GroupConfig
  structural : Option GroupConfig
  reputation : Option GroupConfig

/-- Every group enabled in monitor mode. -/
def Groups.allMonitor : Groups :=
  ⟨some ⟨true, .monitor⟩, some ⟨true, .monitor⟩, some ⟨true, .monitor⟩, some ⟨true, .monitor⟩⟩

structure ReputationConfig where
  perSecond : ℕ
  denyList : List Str
  maxTrackedIps : ℕ

def ReputationConfig.default : ReputationConfig := ⟨100, [], 50000⟩

structure XffConfig where
  trustedHops : ℕ

structure Config where
  mode : Mode
  failMode : FailMode
  body : BodyConfig
  groups : Groups
  reputation : ReputationConfig
  xff : XffConfig
  labels : Labels

end PurpleWolf
