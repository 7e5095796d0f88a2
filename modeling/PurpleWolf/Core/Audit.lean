import PurpleWolf.Core.Policy
import PurpleWolf.Lib.Json

/-! # Audit log lines (`audit.rs`)

An `AuditEntry` is written to the log as one line of JSON by `serde_json`, which is not
part of the repository: the model takes a `Json.Codec` in its place. -/

namespace PurpleWolf

/-- One audit-log line.  The action is one of the two the policy knows. -/
structure AuditEntry where
  host : Str
  path : Str
  query : Option Str
  method : Str
  sourceIp : Str
  action : Str
  blockedRule : Option Str
  blockedSeverity : Option Str
  blockedDetail : Option Str
  wouldBlockRules : List Str
  bodyTruncated : Bool
  labels : Labels
  configFallback : Bool
  action_known : action = "allow".toList ∨ action = "block".toList

namespace AuditEntry

/-- ASCII control characters of a label value are replaced. -/
def scrubLabelValue (v : Str) : Str :=
  v.map (fun c => if c.toNat < 0x20 ∨ c = '\x7f' then '.' else c)

def actionStr : Action → Str
  | .allow => "allow".toList
  | .block => "block".toList

/-- `group/rule`. -/
def ruleName (v : Verdict) : Str := v.group.asStr ++ '/' :: v.rule

def fromWithLabels (req : Request) (decision : Decision) (labels : Labels) : AuditEntry where
  host := req.host
  path := req.path
  query := req.rawQuery
  method := req.method
  sourceIp := req.sourceIp.display
  action := actionStr decision.action
  blockedRule := decision.blockedBy.map ruleName
  blockedSeverity := decision.blockedBy.map (fun v => v.severity.asStr)
  blockedDetail := decision.blockedBy.map Verdict.detail
  wouldBlockRules := decision.wouldBlock.map ruleName
  bodyTruncated := req.bodyTruncated
  labels := (labels.entries.map (fun e => (⟨e.1, scrubLabelValue e.2⟩ : Sigma (fun _ : Str => Str)))).toAList
  configFallback := false
  action_known := by
    cases decision.action with
    | allow => exact Or.inl rfl
    | block => exact Or.inr rfl

def withConfigFallback (e : AuditEntry) (fallback : Bool) : AuditEntry := { e with configFallback := fallback }

/-! ### Serialization -/

def optStr : Option Str → Json
  | some s => .str s
  | none => .null

/-- A label map as a JSON object. -/
def labelsJson (labels : Labels) : Json := .obj (labels.entries.map (fun e => (e.1, .str e.2)))

/-- The value `#[derive(Serialize)]` produces: the fields in order, the last three left out
in their default state. -/
def toJson (e : AuditEntry) : Json :=
  .obj ([("host".toList, .str e.host), ("path".toList, .str e.path), ("query".toList, optStr e.query),
      ("method".toList, .str e.method), ("source_ip".toList, .str e.sourceIp),
      ("action".toList, .str e.action), ("blocked_rule".toList, optStr e.blockedRule),
      ("blocked_severity".toList, optStr e.blockedSeverity),
      ("blocked_detail".toList, optStr e.blockedDetail),
      ("would_block_rules".toList, .arr (e.wouldBlockRules.map .str))] ++
    (if e.bodyTruncated then [("body_truncated".toList, .bool true)] else []) ++
    (if e.labels.entries.isEmpty then [] else [("labels".toList, labelsJson e.labels)]) ++
    (if e.configFallback then [("config_fallback".toList, .bool true)] else []))

def toLogLine (S : Json.Codec) (e : AuditEntry) : Str := e.toJson.compact S.toEscaper

theorem labelsJson_wellFormed (labels : Labels) (n : ℕ) : Json.WellFormed (n + 1) (labelsJson labels) := by
  apply Json.WellFormed.obj
  · rw [List.map_map]
    exact labels.nodupKeys
  · intro m hm
    obtain ⟨e, -, rfl⟩ := List.mem_map.mp hm
    exact Json.WellFormed.str _ _

theorem optStr_wellFormed (o : Option Str) (n : ℕ) : Json.WellFormed n (optStr o) := by
  cases o with
  | none => exact Json.WellFormed.null _
  | some s => exact Json.WellFormed.str _ s

/-- The names of all fields, in order. -/
def fieldNames : List Str :=
  ["host".toList, "path".toList, "query".toList, "method".toList, "source_ip".toList, "action".toList,
    "blocked_rule".toList, "blocked_severity".toList, "blocked_detail".toList, "would_block_rules".toList,
    "body_truncated".toList, "labels".toList, "config_fallback".toList]

theorem toJson_wellFormed (e : AuditEntry) (n : ℕ) : Json.WellFormed (n + 2) e.toJson := by
  apply Json.WellFormed.obj
  · have hnames : fieldNames.Nodup := by decide
    have hset (b : Bool) (k : Str) (v : Json) :
        List.Sublist ((if b then [(k, v)] else []).map Prod.fst) [k] := by
      cases b <;> simp
    have hunset (b : Bool) (k : Str) (v : Json) :
        List.Sublist ((if b then [] else [(k, v)]).map Prod.fst) [k] := by
      cases b <;> simp
    refine List.Nodup.sublist ?_ hnames
    rw [List.map_append, List.map_append, List.map_append]
    exact (((List.Sublist.refl _).append (hset _ _ _)).append (hunset _ _ _)).append (hset _ _ _)
  · intro m hm
    have hrules : Json.WellFormed (n + 1) (.arr (e.wouldBlockRules.map .str)) := by
      apply Json.WellFormed.arr
      intro v hv
      obtain ⟨s, -, rfl⟩ := List.mem_map.mp hv
      exact Json.WellFormed.str _ s
    have hlabels := labelsJson_wellFormed e.labels n
    simp only [List.mem_append, List.mem_cons, List.not_mem_nil, or_false] at hm
    rcases hm with ((hm | hm) | hm) | hm
    · rcases hm with rfl | rfl | rfl | rfl | rfl | rfl | rfl | rfl | rfl | rfl <;>
        first | exact Json.WellFormed.str _ _ | exact optStr_wellFormed _ _ | exact hrules
    · split_ifs at hm
      · rw [List.mem_singleton.mp hm]
        exact Json.WellFormed.bool _ _
      · exact absurd hm List.not_mem_nil
    · split_ifs at hm
      · exact absurd hm List.not_mem_nil
      · rw [List.mem_singleton.mp hm]
        exact hlabels
    · split_ifs at hm
      · rw [List.mem_singleton.mp hm]
        exact Json.WellFormed.bool _ _
      · exact absurd hm List.not_mem_nil

end AuditEntry

end PurpleWolf
