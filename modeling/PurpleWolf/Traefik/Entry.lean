import PurpleWolf.Core.Audit
import PurpleWolf.Core.ClientIp
import PurpleWolf.Core.Config
import PurpleWolf.Traefik.Host

/-! # The plugin entry (`entry.rs`)

`inspect` handles one request: it reads the headers, the address of the client, the URI
and the body from the host, runs the engine, decides, and logs.  What it does to the
outside is its `Outcome`.

The engine is any engine here.  `Traefik.Engine` builds the one of the plugin from its
configuration, and `Traefik.Plugin` a guest that reads its configuration and handles its
requests. -/

namespace PurpleWolf.Traefik

open Text

/-! ### Addresses -/

/-- `parse_ip(addr)`: an address, with a port, in brackets, or both. -/
def parseIp (addr : Str) : Option IpAddr :=
  let addr := trim addr
  let unbracket := fun s : Str => (s.dropWhile (· == '[')).rdropWhile (· == ']')
  if addr.isEmpty then none
  else
    match IpAddr.parse addr with
    | some ip => some ip
    | none =>
        let withPort :=
          match rsplitOnce ':' addr with
          | some (host, port) =>
              if (parseUnsigned 0x10000 port).isSome then
                (IpAddr.parse host).orElse (fun _ => IpAddr.parse (unbracket host))
              else none
          | none => none
        withPort.orElse (fun _ => IpAddr.parse (unbracket addr))

/-- `parse_peer(addr)`: the unspecified address stands for an unreadable one. -/
def parsePeer (addr : Str) : IpAddr := (parseIp addr).getD (.v4 #v[0, 0, 0, 0])

/-! ### The plugin -/

def effectiveGroupMode (cfg : Config) (g : Group) : GroupMode :=
  let gc :=
    match g with
    | .injection => cfg.groups.injection
    | .signatures => cfg.groups.signatures
    | .structural => cfg.groups.structural
    | .reputation => cfg.groups.reputation
  match gc with
  | some g => if g.enabled then g.mode else .off
  | none => .off

/-- The groups that are not off. -/
def enabledGroups (cfg : Config) : List Group :=
  [Group.injection, .signatures, .structural, .reputation].filter (fun g => effectiveGroupMode cfg g != .off)

structure PluginState (Env : Type) where
  cfg : Config
  engine : Engine Env
  fallback : Bool

/-- A response written by the plugin itself. -/
structure Response where
  status : ℕ
  body : Str
  deriving DecidableEq

/-- What handling a request does: the action, the chunks of the body written back, the
answers of the body stream that were not asked for, the response, the log lines, and the
state of the detectors afterwards. -/
structure Outcome (Env : Type) where
  action : Action
  preserved : List Bytes
  unread : List BodyAnswer
  response : Option Response
  logs : List Str
  env : Env

/-- The header list: names in lower case, in the host's order. -/
def requestHeaders (host : Host) : Headers :=
  host.getRequestHeaderNames.filterMap fun name =>
    (host.getRequestHeader name).map (fun value => (toAsciiLowercase name, value))

/-- The URI split at its first question mark. -/
def pathAndQuery (host : Host) : Str × Str := (splitOnce '?' host.getUri).getD (host.getUri, [])

def decisionIsNoteworthy (decision : Decision) (fallback : Bool) : Bool :=
  decision.blockedBy.isSome || !decision.wouldBlock.isEmpty || fallback

/-- What follows from a body that could not be read. -/
def failurePolicy (error : BodyReadError) (failMode : FailMode) : Action × Option Response :=
  match error.forwardingIsSafe, failMode with
  | false, _ => (.block, some ⟨403, "request body could not be preserved".toList⟩)
  | true, .failOpen => (.allow, none)
  | true, .failClosed => (.block, some ⟨403, "inspection failed (fail_closed)".toList⟩)

section Inspect

variable {Env : Type} (P : PercentDecoder) (S : Json.Codec)

/-- The request that the detectors see. -/
def buildRequest (cfg : Config) (host : Host) (body : BodyRead) : Request :=
  let headers := requestHeaders host
  let peer := parsePeer host.getSourceAddr
  let sourceIp := clientIp headers peer cfg.xff.trustedHops
  let (path, rawQuery) := pathAndQuery host
  let hostHdr := ((headers.find? (fun h => h.1 == "host".toList)).map Prod.snd).getD []
  let bodyInspected := !body.bytes.isEmpty
  (Request.build P host.getMethod hostHdr path rawQuery headers body.bytes bodyInspected
    sourceIp).withTruncatedBody body.exceeded

/-- The engine's verdicts on a request, the decision, and the audit line. -/
def judge (state : PluginState Env) (req : Request) (env : Env) : Action × Option Response × List Str × Env :=
  let (verdicts, env) := state.engine.inspect req (enabledGroups state.cfg) env
  let decision := Policy.decide verdicts state.cfg.mode (effectiveGroupMode state.cfg)
  let entry := (AuditEntry.fromWithLabels req decision state.cfg.labels).withConfigFallback state.fallback
  let logs := if decisionIsNoteworthy decision state.fallback then [entry.toLogLine S] else []
  match decision.action with
  | .allow => (.allow, none, logs, env)
  | .block => (.block, some ⟨403, "request blocked by purple-wolf".toList⟩, logs, env)

/-- `inspect()`; nothing while the host has not answered. -/
def inspect (state : PluginState Env) (host : Host) (env : Env) : Option (Outcome Env) :=
  let cfg := state.cfg
  let preserveAfterCap := cfg.body.overCap == .pass
  (host.readRequestBody cfg.body.maxInspectBytes preserveAfterCap).map fun drained =>
    let outcome := fun (action : Action) response logs env =>
      { action, preserved := drained.preserved, unread := drained.unread, response, logs, env }
    match drained.result with
    | .error error =>
        let (action, response) := failurePolicy error cfg.failMode
        let log := "purple-wolf: request-body inspection failed (".toList ++ error.display ++
          "); applying safe failure policy".toList
        outcome action response [log] env
    | .ok body =>
        if body.exceeded && cfg.body.overCap == .block then
          outcome .block (some ⟨403, "body exceeds inspection cap".toList⟩) [] env
        else
          let (action, response, logs, env) := judge S state (buildRequest P cfg host body) env
          outcome action response logs env

end Inspect

end PurpleWolf.Traefik
