import PurpleWolf.Core.Labels
import PurpleWolf.Lib.Decode
import PurpleWolf.Lib.JsonParser
import PurpleWolf.Traefik.Host

/-! # The configuration that Traefik delivers (`config.rs`)

`parse` reads the configuration of one middleware from a JSON document.  Traefik writes all
scalars as strings, so booleans and numbers are accepted as strings too.

* **Spelling.**  The same document with any of its booleans and numbers written as strings
  gives the same configuration and the same warnings (`parse_respelled`).
* **Results.**  A configuration comes out of some document exactly if it is `Accepted`
  (`parse_reaches_iff`).

The wire types mirror those of `purple-wolf-core`, whose types are taken for them; the
conversions between the two are then the identity.  The texts of the errors that serde
returns, and the way in which `{:?}` quotes a text, are parameters. -/

namespace PurpleWolf.Traefik

open Text Json Json.Decoder Labels

/-! ### Lenient primitives -/

/-- The strings that are read as a boolean, in lower case. -/
def booleanSpellings : List (Str × Bool) :=
  [("true".toList, true), ("1".toList, true), ("yes".toList, true), ("on".toList, true),
    ("false".toList, false), ("0".toList, false), ("no".toList, false), ("off".toList, false)]

def deLenientBool : Decoder Bool
  | .bool b => some b
  | .str s => booleanSpellings.lookup (toAsciiLowercase (trim s))
  | _ => none

/-- A `u64`, or its text, that is below `bound`. -/
def deLenient (bound : ℕ) : Decoder ℕ
  | .num n => if 0 ≤ n ∧ n.toNat < 2 ^ 64 ∧ n.toNat < bound then some n.toNat else none
  | .str s => parseUnsigned bound (trim s)
  | _ => none

def deLenientU32 : Decoder ℕ := deLenient (2 ^ 32)

def deLenientUsize (T : Target) : Decoder ℕ := deLenient (T.usizeMax + 1)

/-! ### Wire types -/

def modeNames : List (Str × Mode) := [("monitor".toList, .monitor), ("enforce".toList, .enforce)]

/-- `WireFailMode` -/
def failModeNames : List (Str × FailMode) := [("failOpen".toList, .failOpen), ("failClosed".toList, .failClosed)]

def groupModeNames : List (Str × GroupMode) :=
  [("enforce".toList, .enforce), ("monitor".toList, .monitor), ("off".toList, .off)]

def overCapNames : List (Str × OverCap) := [("pass".toList, .pass), ("block".toList, .block)]

def groupConfigNames : List Str := ["enabled".toList, "mode".toList]

def groupsNames : List Str := ["injection".toList, "signatures".toList, "structural".toList, "reputation".toList]

def xffNames : List Str := ["trustedHops".toList]

def reputationNames : List Str := ["perSecond".toList, "denyList".toList, "maxTrackedIps".toList]

def bodyNames : List Str := ["maxInspectBytes".toList, "overCap".toList]

def wireNames : List Str :=
  ["mode".toList, "failMode".toList, "body".toList, "groups".toList, "reputation".toList, "xff".toList, "labels".toList]

/-- `WireGroupConfig` -/
def decodeGroupConfig : Decoder GroupConfig := struct groupConfigNames fun fields => do
  let enabled ← optional deLenientBool "enabled".toList true fields
  let mode ← optional (variant groupModeNames) "mode".toList .enforce fields
  some ⟨enabled, mode⟩

/-- `WireGroups` -/
def decodeGroups : Decoder Groups := struct groupsNames fun fields => do
  let injection ← optional (nullable decodeGroupConfig) "injection".toList none fields
  let signatures ← optional (nullable decodeGroupConfig) "signatures".toList none fields
  let structural ← optional (nullable decodeGroupConfig) "structural".toList none fields
  let reputation ← optional (nullable decodeGroupConfig) "reputation".toList none fields
  some ⟨injection, signatures, structural, reputation⟩

section Usize

variable (T : Target)

/-- `WireXff` -/
def decodeXff : Decoder XffConfig := struct xffNames fun fields => do
  let trustedHops ← optional (deLenientUsize T) "trustedHops".toList 0 fields
  some ⟨trustedHops⟩

/-- `WireReputation` -/
def decodeReputation : Decoder ReputationConfig := struct reputationNames fun fields => do
  let perSecond ← optional deLenientU32 "perSecond".toList 100 fields
  let denyList ← optional (array string) "denyList".toList [] fields
  let maxTrackedIps ← optional (deLenientUsize T) "maxTrackedIps".toList 50000 fields
  some ⟨perSecond, denyList, maxTrackedIps⟩

/-- `WireBody` -/
def decodeBody : Decoder BodyConfig := struct bodyNames fun fields => do
  let maxInspectBytes ← optional (deLenientUsize T) "maxInspectBytes".toList 1048576 fields
  let overCap ← optional (variant overCapNames) "overCap".toList .pass fields
  some ⟨maxInspectBytes, overCap⟩

/-- The top-level document. -/
structure Wire where
  mode : Mode
  failMode : FailMode
  body : BodyConfig
  groups : Groups
  reputation : ReputationConfig
  xff : XffConfig
  labels : OrdMap Str Str

def Wire.decode : Decoder Wire := struct wireNames fun fields => do
  let mode ← required (variant modeNames) "mode".toList fields
  let failMode ← optional (variant failModeNames) "failMode".toList .failOpen fields
  let body ← optional (decodeBody T) "body".toList ⟨1048576, .pass⟩ fields
  let groups ← optional decodeGroups "groups".toList ⟨none, none, none, none⟩ fields
  let reputation ← optional (decodeReputation T) "reputation".toList .default fields
  let xff ← optional (decodeXff T) "xff".toList ⟨0⟩ fields
  let labels ← optional (object string) "labels".toList .empty fields
  some ⟨mode, failMode, body, groups, reputation, xff, labels⟩

end Usize

/-! ### `parse` -/

/-- Keys that an operator must not set. -/
def isReserved (k : Str) : Bool := "purple_wolf.".toList.isPrefixOf k

def clampWarning (n : ℕ) : Str :=
  "body.maxInspectBytes=".toList ++ decimal n ++ " exceeds the guest allocation ceiling ".toList ++
    decimal MAX_ALLOC ++ "; clamping to ".toList ++ decimal MAX_ALLOC ++ " bytes".toList

def reservedWarning (debug : Str → Str) (k : Str) : Str :=
  "labels: ignoring operator-set reserved-prefix key ".toList ++ debug k ++ " (purple_wolf.* is reserved)".toList

/-- The groups that are left out get their defaults. -/
def fillGroups (groups : Groups) : Groups where
  injection := some (groups.injection.getD ⟨true, .enforce⟩)
  signatures := some (groups.signatures.getD ⟨true, .enforce⟩)
  structural := some (groups.structural.getD ⟨true, .monitor⟩)
  reputation := some (groups.reputation.getD ⟨false, .monitor⟩)

/-- What a document cannot say: how serde reports an error, how `{:?}` quotes a text. -/
structure Texts where
  serdeError : Bytes → Str
  debug : Str → Str

section Parse

variable (T : Target) (S : Json.Codec) (texts : Texts)

/-- The labels that are not reserved. -/
def keptLabels (w : Wire) : OrdMap Str Str := w.labels.filter fun k => !isReserved k

def configOf (w : Wire) : Config where
  mode := w.mode
  failMode := w.failMode
  body := ⟨if MAX_ALLOC < w.body.maxInspectBytes then MAX_ALLOC else w.body.maxInspectBytes, w.body.overCap⟩
  groups := fillGroups w.groups
  reputation := w.reputation
  xff := w.xff
  labels := (keptLabels w).toAList

def warningsOf (w : Wire) : List Str :=
  (if MAX_ALLOC < w.body.maxInspectBytes then [clampWarning w.body.maxInspectBytes] else []) ++
    (w.labels.keys.filter isReserved).map (reservedWarning texts.debug)

/-- The checks behind the deserializer, and the conversion. -/
def fromWire (w : Wire) : Except Str (Config × List Str) :=
  if w.reputation.perSecond = 0 then
    .error "reputation.perSecond must be > 0; use groups.reputation.enabled=false to disable".toList
  else if w.body.maxInspectBytes = 0 then
    .error "body.maxInspectBytes must be > 0; remove the field to use the default 1 MiB".toList
  else
    match validateLabels T texts.debug (keptLabels w) with
    | .error e => .error e
    | .ok () => .ok (configOf w, warningsOf texts w)

/-- The JSON value of a document. -/
def document (bytes : Bytes) : Option Json := (Utf8.decode? bytes).bind S.fromStr

def parse (bytes : Bytes) : Except Str (Config × List Str) :=
  match (document S bytes).bind (Wire.decode T) with
  | none => .error (texts.serdeError bytes)
  | some w => fromWire T texts w

def validateConfig (bytes : Bytes) : Except Str (List Str) := (parse T S texts bytes).map Prod.snd

end Parse

/-! ### Spelling -/

/-- How Traefik, or an operator, may write a boolean or a number as a string. -/
def traefikSpelling : Spelling where
  ofBool b s := booleanSpellings.lookup (toAsciiLowercase (trim s)) = some b
  ofNum n s := ∀ bound, n.toNat < bound → 0 ≤ n → parseUnsigned bound (trim s) = some n.toNat

theorem keeps_deLenientBool : Keeps traefikSpelling deLenientBool := by
  intro v w a hvw hv
  cases hvw with
  | same => exact hv
  | bool h =>
      cases hv
      exact h
  | num | arr | obj => cases hv

theorem keeps_deLenient (bound : ℕ) : Keeps traefikSpelling (deLenient bound) := by
  intro v w a hvw hv
  cases hvw with
  | same => exact hv
  | num h =>
      simp only [deLenient] at hv
      split_ifs at hv with hn
      cases hv
      exact h bound hn.2.2 hn.1
  | bool | arr | obj => cases hv

/-- The number as it is printed, between blanks, is such a string. -/
theorem ofNum_decimal (n : ℕ) {s : Str} (hs : trim s = decimal n) : traefikSpelling.ofNum n s := by
  intro bound hlt _
  rw [hs]
  exact parseUnsigned_decimal hlt

theorem keeps_decodeGroupConfig : Keeps traefikSpelling decodeGroupConfig :=
  keeps_struct <|
    keepsFields_bind (keepsFields_optional keeps_deLenientBool _ _) fun _ =>
    keepsFields_bind (keepsFields_optional (keeps_variant _) _ _) fun _ => keepsFields_some _

theorem keeps_decodeGroups : Keeps traefikSpelling decodeGroups :=
  have hgroup := fun k => keepsFields_optional (keeps_nullable keeps_decodeGroupConfig) k none
  keeps_struct <|
    keepsFields_bind (hgroup _) fun _ => keepsFields_bind (hgroup _) fun _ =>
    keepsFields_bind (hgroup _) fun _ => keepsFields_bind (hgroup _) fun _ => keepsFields_some _

theorem keeps_decode (T : Target) : Keeps traefikSpelling (Wire.decode T) := by
  have hbody : Keeps traefikSpelling (decodeBody T) :=
    keeps_struct <|
      keepsFields_bind (keepsFields_optional (keeps_deLenient _) _ _) fun _ =>
      keepsFields_bind (keepsFields_optional (keeps_variant _) _ _) fun _ => keepsFields_some _
  have hreputation : Keeps traefikSpelling (decodeReputation T) :=
    keeps_struct <|
      keepsFields_bind (keepsFields_optional (keeps_deLenient _) _ _) fun _ =>
      keepsFields_bind (keepsFields_optional (keeps_array keeps_string) _ _) fun _ =>
      keepsFields_bind (keepsFields_optional (keeps_deLenient _) _ _) fun _ => keepsFields_some _
  have hxff : Keeps traefikSpelling (decodeXff T) :=
    keeps_struct <| keepsFields_bind (keepsFields_optional (keeps_deLenient _) _ _) fun _ => keepsFields_some _
  exact keeps_struct <|
    keepsFields_bind (keepsFields_required (keeps_variant _) _) fun _ =>
    keepsFields_bind (keepsFields_optional (keeps_variant _) _ _) fun _ =>
    keepsFields_bind (keepsFields_optional hbody _ _) fun _ =>
    keepsFields_bind (keepsFields_optional keeps_decodeGroups _ _) fun _ =>
    keepsFields_bind (keepsFields_optional hreputation _ _) fun _ =>
    keepsFields_bind (keepsFields_optional hxff _ _) fun _ =>
    keepsFields_bind (keepsFields_optional (keeps_object keeps_string) _ _) fun _ => keepsFields_some _

variable {T : Target} {S : Json.Codec} {texts : Texts}

theorem document_encode (S : Json.Codec) {v : Json} (h : WellFormed maxDepth v) :
    document S (Utf8.encode (v.compact S.toEscaper)) = some v := by
  unfold document
  rw [Utf8.decode?_encode]
  exact S.fromStr_compact v h

/-- **Spelling does not matter.**  A document that is read gives the same result with any of its
booleans and numbers written as strings. -/
theorem parse_respelled {bytes bytes' : Bytes} {v w : Json} (hv : document S bytes = some v)
    (hw : document S bytes' = some w) (hvw : Respelled traefikSpelling v w) (hread : (Wire.decode T v).isSome) :
    parse T S texts bytes' = parse T S texts bytes := by
  obtain ⟨wire, hwire⟩ := Option.isSome_iff_exists.mp hread
  unfold parse
  rw [hv, hw, Option.bind_some, Option.bind_some, keeps_decode T hvw hwire, hwire]

/-- A document as it is written, and as Traefik delivers it. -/
def writtenDocument : Json :=
  .obj [("mode".toList, .str "monitor".toList), ("body".toList, .obj [("maxInspectBytes".toList, .num 2048)]),
    ("groups".toList, .obj [("injection".toList, .obj [("enabled".toList, .bool false)])])]

def deliveredDocument : Json :=
  .obj [("mode".toList, .str "monitor".toList), ("body".toList, .obj [("maxInspectBytes".toList, .str " 2048".toList)]),
    ("groups".toList, .obj [("injection".toList, .obj [("enabled".toList, .str "Off".toList)])])]

theorem parse_respelled_delivered :
    parse Target.wasm32 Json.standard ⟨fun _ => [], id⟩ (Utf8.encode (deliveredDocument.compact Json.standardEscaper)) =
      parse Target.wasm32 Json.standard ⟨fun _ => [], id⟩
        (Utf8.encode (writtenDocument.compact Json.standardEscaper)) := by
  have hshape : ∀ {v w : Json}, WellFormed 125 v → WellFormed 124 w → WellFormed maxDepth
      (.obj [("mode".toList, .str "monitor".toList), ("body".toList, .obj [("maxInspectBytes".toList, v)]),
        ("groups".toList, .obj [("injection".toList, .obj [("enabled".toList, w)])])]) := by
    intro v w hv hw
    refine .obj (by decide : ["mode".toList, "body".toList, "groups".toList].Nodup) ?_
    simp only [List.forall_mem_cons, List.not_mem_nil, false_implies, implies_true, and_true]
    exact ⟨.str _ _, .obj (List.nodup_singleton _) (List.forall_mem_singleton.mpr hv),
      .obj (List.nodup_singleton _) (List.forall_mem_singleton.mpr
        (.obj (List.nodup_singleton _) (List.forall_mem_singleton.mpr hw)))⟩
  have hoff : traefikSpelling.ofBool false "Off".toList :=
    (by decide : booleanSpellings.lookup (toAsciiLowercase (trim "Off".toList)) = some false)
  have hspelled : Respelled traefikSpelling writtenDocument deliveredDocument :=
    .obj rfl (.cons (.same _) (.cons (.obj rfl (.cons (.num (ofNum_decimal 2048 (by decide))) .nil))
      (.cons (.obj rfl (.cons (.obj rfl (.cons (.bool hoff) .nil)) .nil)) .nil)))
  exact parse_respelled (document_encode _ (hshape (.num _ _ (by decide) (by decide)) (.bool _ _)))
    (document_encode _ (hshape (.str _ _) (.str _ _))) hspelled (by decide +kernel)

/-! ### The configurations that are accepted -/

def modeName : Mode → Str
  | .monitor => "monitor".toList
  | .enforce => "enforce".toList

def failModeName : FailMode → Str
  | .failOpen => "failOpen".toList
  | .failClosed => "failClosed".toList

def groupModeName : GroupMode → Str
  | .enforce => "enforce".toList
  | .monitor => "monitor".toList
  | .off => "off".toList

def overCapName : OverCap → Str
  | .pass => "pass".toList
  | .block => "block".toList

def encodeGroupConfig (g : GroupConfig) : Json :=
  .obj [("enabled".toList, .str (if g.enabled then "true".toList else "false".toList)),
    ("mode".toList, .str (groupModeName g.mode))]

def encodeGroup : Option GroupConfig → Json
  | none => .null
  | some g => encodeGroupConfig g

def encodeGroups (groups : Groups) : Json :=
  .obj [("injection".toList, encodeGroup groups.injection), ("signatures".toList, encodeGroup groups.signatures),
    ("structural".toList, encodeGroup groups.structural), ("reputation".toList, encodeGroup groups.reputation)]

def encodeNum (n : ℕ) : Json := .str (decimal n)

/-- A document as Traefik would write it: every scalar is a string. -/
def Wire.encode (w : Wire) : Json :=
  .obj [("mode".toList, .str (modeName w.mode)), ("failMode".toList, .str (failModeName w.failMode)),
    ("body".toList, .obj [("maxInspectBytes".toList, encodeNum w.body.maxInspectBytes),
      ("overCap".toList, .str (overCapName w.body.overCap))]),
    ("groups".toList, encodeGroups w.groups),
    ("reputation".toList, .obj [("perSecond".toList, encodeNum w.reputation.perSecond),
      ("denyList".toList, .arr (w.reputation.denyList.map .str)),
      ("maxTrackedIps".toList, encodeNum w.reputation.maxTrackedIps)]),
    ("xff".toList, .obj [("trustedHops".toList, encodeNum w.xff.trustedHops)]),
    ("labels".toList, .obj (w.labels.entries.map fun e => (e.1, .str e.2)))]

theorem variant_modeName (m : Mode) : variant modeNames (.str (modeName m)) = some m := by
  cases m <;> decide

theorem variant_failModeName (m : FailMode) : variant failModeNames (.str (failModeName m)) = some m := by
  cases m <;> decide

theorem variant_groupModeName (m : GroupMode) : variant groupModeNames (.str (groupModeName m)) = some m := by
  cases m <;> decide

theorem variant_overCapName (o : OverCap) : variant overCapNames (.str (overCapName o)) = some o := by
  cases o <;> decide

theorem deLenient_encodeNum {bound n : ℕ} (h : n < bound) : deLenient bound (encodeNum n) = some n := by
  have htrim : trim (decimal n) = decimal n := by
    refine trim_of_forall fun c hc => ?_
    have hall : ∀ c : Char, c.toNat < 0x80 → 0x30 ≤ c.toNat ∧ c.toNat ≤ 0x39 → isWhitespace c = false :=
      forall_ascii (by decide)
    have hdigit := mem_decimal hc
    exact hall c (by omega) hdigit
  change parseUnsigned bound (trim (decimal n)) = some n
  rw [htrim, parseUnsigned_decimal h]

theorem decodeGroupConfig_encode (g : GroupConfig) : decodeGroupConfig (encodeGroupConfig g) = some g := by
  obtain ⟨enabled, mode⟩ := g
  have henabled : deLenientBool (.str (if enabled then "true".toList else "false".toList)) = some enabled := by
    cases enabled <;> decide
  refine Eq.trans (struct_obj (by decide : groupConfigNames.Nodup) ?_) ?_
  · rfl
  exact reads_bind (reads_optional rfl henabled) (reads_bind (reads_optional rfl (variant_groupModeName mode)) rfl)

theorem nullable_encodeGroup (g : Option GroupConfig) : nullable decodeGroupConfig (encodeGroup g) = some g := by
  cases g with
  | none => rfl
  | some g =>
      change (decodeGroupConfig (encodeGroupConfig g)).map some = _
      rw [decodeGroupConfig_encode, Option.map_some]

theorem decodeGroups_encode (groups : Groups) : decodeGroups (encodeGroups groups) = some groups := by
  have hgroup := nullable_encodeGroup
  refine Eq.trans (struct_obj (by decide : groupsNames.Nodup) ?_) ?_
  · rfl
  exact reads_bind (reads_optional rfl (hgroup groups.injection)) <|
    reads_bind (reads_optional rfl (hgroup groups.signatures)) <|
    reads_bind (reads_optional rfl (hgroup groups.structural)) <|
    reads_bind (reads_optional rfl (hgroup groups.reputation)) rfl

/-- The numbers of a document fit their types. -/
structure Wire.Fits (T : Target) (w : Wire) : Prop where
  perSecond : w.reputation.perSecond < 2 ^ 32
  maxTrackedIps : w.reputation.maxTrackedIps ≤ T.usizeMax
  maxInspectBytes : w.body.maxInspectBytes ≤ T.usizeMax
  trustedHops : w.xff.trustedHops ≤ T.usizeMax

theorem Wire.decode_encode {w : Wire} (h : w.Fits T) : Wire.decode T w.encode = some w := by
  obtain ⟨mode, failMode, body, groups, reputation, xff, labels⟩ := w
  have husize : ∀ {n : ℕ}, n ≤ T.usizeMax → deLenientUsize T (encodeNum n) = some n :=
    fun hn => deLenient_encodeNum (Nat.lt_succ_of_le hn)
  have hbody : decodeBody T (.obj [("maxInspectBytes".toList, encodeNum body.maxInspectBytes),
      ("overCap".toList, .str (overCapName body.overCap))]) = some body := by
    refine Eq.trans (struct_obj (by decide : bodyNames.Nodup) ?_) ?_
    · rfl
    exact reads_bind (reads_optional rfl (husize h.maxInspectBytes)) <|
      reads_bind (reads_optional rfl (variant_overCapName body.overCap)) rfl
  have hreputation : decodeReputation T (.obj [("perSecond".toList, encodeNum reputation.perSecond),
      ("denyList".toList, .arr (reputation.denyList.map .str)),
      ("maxTrackedIps".toList, encodeNum reputation.maxTrackedIps)]) = some reputation := by
    have hperSecond : deLenientU32 (encodeNum reputation.perSecond) = some reputation.perSecond :=
      deLenient_encodeNum h.perSecond
    have hdenyList : array string (.arr (reputation.denyList.map .str)) = some reputation.denyList :=
      reads_array fun _ _ => rfl
    refine Eq.trans (struct_obj (by decide : reputationNames.Nodup) ?_) ?_
    · rfl
    exact reads_bind (reads_optional rfl hperSecond) <| reads_bind (reads_optional rfl hdenyList) <|
      reads_bind (reads_optional rfl (husize h.maxTrackedIps)) rfl
  have hxff : decodeXff T (.obj [("trustedHops".toList, encodeNum xff.trustedHops)]) = some xff := by
    refine Eq.trans (struct_obj (by decide : xffNames.Nodup) ?_) ?_
    · rfl
    exact reads_bind (reads_optional rfl (husize h.trustedHops)) rfl
  have hlabels : object string (.obj (labels.entries.map fun e => (e.1, .str e.2))) = some labels :=
    reads_object fun _ _ => rfl
  refine Eq.trans (struct_obj (by decide : wireNames.Nodup) ?_) ?_
  · rfl
  exact reads_bind (reads_required rfl (variant_modeName mode)) <|
    reads_bind (reads_optional rfl (variant_failModeName failMode)) <| reads_bind (reads_optional rfl hbody) <|
    reads_bind (reads_optional rfl (decodeGroups_encode groups)) <| reads_bind (reads_optional rfl hreputation) <|
    reads_bind (reads_optional rfl hxff) <| reads_bind (reads_optional rfl hlabels) rfl

theorem parseUnsigned_lt {bound n : ℕ} {s : Str} (h : parseUnsigned bound s = some n) : n < bound := by
  unfold parseUnsigned at h
  simp only at h
  split at h
  · split_ifs at h with hlt
    cases h
    exact hlt
  · cases h

theorem deLenient_lt {bound : ℕ} (v : Json) (n : ℕ) (h : deLenient bound v = some n) : n < bound := by
  cases v with
  | num m =>
      simp only [deLenient] at h
      split_ifs at h with hm
      cases h
      exact hm.2.2
  | str s => exact parseUnsigned_lt h
  | _ => cases h

theorem Wire.fits_of_decode (hT : MAX_ALLOC ≤ T.usizeMax) {v : Json} {w : Wire} (h : Wire.decode T v = some w) :
    w.Fits T := by
  have husize : ∀ v n, deLenientUsize T v = some n → n ≤ T.usizeMax :=
    fun v n hn => Nat.le_of_lt_succ (deLenient_lt v n hn)
  have hdefaults : 1048576 ≤ T.usizeMax ∧ 50000 ≤ T.usizeMax := by
    unfold MAX_ALLOC at hT
    omega
  have hbody : ∀ v b, decodeBody T v = some b → b.maxInspectBytes ≤ T.usizeMax := by
    intro v b hb
    obtain ⟨fields, -, hb⟩ := Option.bind_eq_some_iff.mp hb
    obtain ⟨n, hn, hb⟩ := Option.bind_eq_some_iff.mp hb
    obtain ⟨o, -, hb⟩ := Option.bind_eq_some_iff.mp hb
    cases hb
    exact of_optional (· ≤ T.usizeMax) hn husize hdefaults.1
  have hreputation : ∀ v r, decodeReputation T v = some r →
      r.perSecond < 2 ^ 32 ∧ r.maxTrackedIps ≤ T.usizeMax := by
    intro v r hr
    obtain ⟨fields, -, hr⟩ := Option.bind_eq_some_iff.mp hr
    obtain ⟨n, hn, hr⟩ := Option.bind_eq_some_iff.mp hr
    obtain ⟨l, -, hr⟩ := Option.bind_eq_some_iff.mp hr
    obtain ⟨m, hm, hr⟩ := Option.bind_eq_some_iff.mp hr
    cases hr
    exact ⟨of_optional (· < 2 ^ 32) hn deLenient_lt (by decide), of_optional (· ≤ T.usizeMax) hm husize hdefaults.2⟩
  have hxff : ∀ v x, decodeXff T v = some x → x.trustedHops ≤ T.usizeMax := by
    intro v x hx
    obtain ⟨fields, -, hx⟩ := Option.bind_eq_some_iff.mp hx
    obtain ⟨n, hn, hx⟩ := Option.bind_eq_some_iff.mp hx
    cases hx
    exact of_optional (· ≤ T.usizeMax) hn husize (Nat.zero_le _)
  obtain ⟨fields, -, h⟩ := Option.bind_eq_some_iff.mp h
  obtain ⟨mode, -, h⟩ := Option.bind_eq_some_iff.mp h
  obtain ⟨failMode, -, h⟩ := Option.bind_eq_some_iff.mp h
  obtain ⟨body, hb, h⟩ := Option.bind_eq_some_iff.mp h
  obtain ⟨groups, -, h⟩ := Option.bind_eq_some_iff.mp h
  obtain ⟨reputation, hr, h⟩ := Option.bind_eq_some_iff.mp h
  obtain ⟨xff, hx, h⟩ := Option.bind_eq_some_iff.mp h
  obtain ⟨labels, -, h⟩ := Option.bind_eq_some_iff.mp h
  cases h
  have hr := of_optional (fun r => r.perSecond < 2 ^ 32 ∧ r.maxTrackedIps ≤ T.usizeMax) hr hreputation
    ⟨by decide, hdefaults.2⟩
  have hb := of_optional (fun b => b.maxInspectBytes ≤ T.usizeMax) hb hbody hdefaults.1
  exact ⟨hr.1, hr.2, hb, of_optional (fun x => x.trustedHops ≤ T.usizeMax) hx hxff (Nat.zero_le _)⟩

theorem fromWire_ok_iff {w : Wire} {cfg : Config} {warnings : List Str} :
    fromWire T texts w = .ok (cfg, warnings) ↔ w.reputation.perSecond ≠ 0 ∧ w.body.maxInspectBytes ≠ 0 ∧
      validateLabels T texts.debug (keptLabels w) = .ok () ∧ cfg = configOf w ∧ warnings = warningsOf texts w := by
  unfold fromWire
  split_ifs with hperSecond hmaxInspectBytes
  · exact iff_of_false nofun fun h => h.1 hperSecond
  · exact iff_of_false nofun fun h => h.2.1 hmaxInspectBytes
  · cases validateLabels T texts.debug (keptLabels w) with
    | error e => exact iff_of_false nofun fun h => nomatch h.2.2.1
    | ok u =>
        simp only [Except.ok.injEq, Prod.mk.injEq, ne_eq, hperSecond, hmaxInspectBytes, not_false_eq_true, true_and]
        exact ⟨fun h => ⟨h.1.symm, h.2.symm⟩, fun h => ⟨h.1.symm, h.2.symm⟩⟩

theorem parse_ok_iff {bytes : Bytes} {cfg : Config} {warnings : List Str} :
    parse T S texts bytes = .ok (cfg, warnings) ↔
      ∃ w, (document S bytes).bind (Wire.decode T) = some w ∧ fromWire T texts w = .ok (cfg, warnings) := by
  unfold parse
  cases (document S bytes).bind (Wire.decode T) with
  | none => exact iff_of_false nofun fun ⟨_, h, _⟩ => nomatch h
  | some w => simp only [Option.some.injEq, exists_eq_left']

/-- A configuration that some document gives. -/
structure Accepted (T : Target) (cfg : Config) : Prop where
  perSecond : 1 ≤ cfg.reputation.perSecond ∧ cfg.reputation.perSecond < 2 ^ 32
  maxTrackedIps : cfg.reputation.maxTrackedIps ≤ T.usizeMax
  maxInspectBytes : 1 ≤ cfg.body.maxInspectBytes ∧ cfg.body.maxInspectBytes ≤ MAX_ALLOC
  trustedHops : cfg.xff.trustedHops ≤ T.usizeMax
  groups : cfg.groups.injection.isSome ∧ cfg.groups.signatures.isSome ∧ cfg.groups.structural.isSome ∧
    cfg.groups.reputation.isSome
  labels : ∃ m : OrdMap Str Str, cfg.labels = m.toAList ∧ WithinLimits m ∧ ∀ k ∈ m.keys, isReserved k = false

theorem accepted_of_parse (hT : MAX_ALLOC ≤ T.usizeMax) {bytes : Bytes} {cfg : Config} {warnings : List Str}
    (h : parse T S texts bytes = .ok (cfg, warnings)) : Accepted T cfg := by
  obtain ⟨w, hw, hok⟩ := parse_ok_iff.mp h
  obtain ⟨v, -, hdecode⟩ := Option.bind_eq_some_iff.mp hw
  have hfits := Wire.fits_of_decode hT hdecode
  obtain ⟨hperSecond, hmaxInspectBytes, hlabels, rfl, -⟩ := fromWire_ok_iff.mp hok
  have hbytes : MAX_LABEL_BYTES < T.usizeMax := by
    unfold MAX_ALLOC at hT
    unfold MAX_LABEL_BYTES
    omega
  refine ⟨⟨Nat.pos_of_ne_zero hperSecond, hfits.perSecond⟩, hfits.maxTrackedIps, ?_, hfits.trustedHops,
    ⟨rfl, rfl, rfl, rfl⟩, keptLabels w, rfl, (validateLabels_ok_iff hbytes _ _).mp hlabels, ?_⟩
  · unfold configOf
    simp only
    split_ifs
    · exact ⟨by decide, le_refl _⟩
    · omega
  · intro k hk
    obtain ⟨e, he, rfl⟩ := List.mem_map.mp hk
    simpa using (List.mem_filter.mp he).2

/-- The document of a configuration. -/
def wireOf (cfg : Config) (m : OrdMap Str Str) : Wire where
  mode := cfg.mode
  failMode := cfg.failMode
  body := cfg.body
  groups := cfg.groups
  reputation := cfg.reputation
  xff := cfg.xff
  labels := m

theorem wellFormed_struct {depth : ℕ} {names : List Str} {members : Fields} (hnames : names.Nodup)
    (hkeys : members.map Prod.fst = names) (hvalues : ∀ v ∈ members.map Prod.snd, WellFormed depth v) :
    WellFormed (depth + 1) (.obj members) :=
  .obj (hkeys ▸ hnames) fun _ hm => hvalues _ (List.mem_map_of_mem hm)

theorem wellFormed_encode (w : Wire) : WellFormed maxDepth w.encode := by
  have hgroup : ∀ g : Option GroupConfig, WellFormed 125 (encodeGroup g) := by
    intro g
    cases g with
    | none => exact .null _
    | some g =>
        apply wellFormed_struct (by decide : groupConfigNames.Nodup)
        · rfl
        · simp only [List.map_cons, List.map_nil, List.forall_mem_cons, List.not_mem_nil, false_implies, implies_true,
            and_true]
          exact ⟨.str _ _, .str _ _⟩
  have hgroups : WellFormed 126 (encodeGroups w.groups) := by
    apply wellFormed_struct (by decide : groupsNames.Nodup)
    · rfl
    · simp only [List.map_cons, List.map_nil, List.forall_mem_cons, List.not_mem_nil, false_implies, implies_true,
        and_true]
      exact ⟨hgroup _, hgroup _, hgroup _, hgroup _⟩
  have hbody : WellFormed 126 (.obj [("maxInspectBytes".toList, encodeNum w.body.maxInspectBytes),
      ("overCap".toList, .str (overCapName w.body.overCap))]) := by
    apply wellFormed_struct (by decide : bodyNames.Nodup)
    · rfl
    · simp only [List.map_cons, List.map_nil, List.forall_mem_cons, List.not_mem_nil, false_implies, implies_true,
        and_true]
      exact ⟨.str _ _, .str _ _⟩
  have hreputation : WellFormed 126 (.obj [("perSecond".toList, encodeNum w.reputation.perSecond),
      ("denyList".toList, .arr (w.reputation.denyList.map .str)),
      ("maxTrackedIps".toList, encodeNum w.reputation.maxTrackedIps)]) := by
    apply wellFormed_struct (by decide : reputationNames.Nodup)
    · rfl
    · simp only [List.map_cons, List.map_nil, List.forall_mem_cons, List.not_mem_nil, false_implies, implies_true,
        and_true]
      refine ⟨.str _ _, .arr fun v hv => ?_, .str _ _⟩
      obtain ⟨s, -, rfl⟩ := List.mem_map.mp hv
      exact .str _ _
  have hlabels : WellFormed 126 (.obj (w.labels.entries.map fun e => (e.1, .str e.2))) := by
    apply wellFormed_struct w.labels.nodup_keys
    · rw [List.map_map]
      rfl
    · rw [List.map_map]
      intro v hv
      obtain ⟨e, -, rfl⟩ := List.mem_map.mp hv
      exact .str _ _
  apply wellFormed_struct (by decide : wireNames.Nodup)
  · rfl
  · simp only [List.map_cons, List.map_nil, List.forall_mem_cons, List.not_mem_nil, false_implies, implies_true,
      and_true]
    exact ⟨.str _ _, .str _ _, hbody, hgroups, hreputation,
      wellFormed_struct (by decide : xffNames.Nodup) rfl (List.forall_mem_singleton.mpr (.str _ _)), hlabels⟩

theorem configOf_wireOf (texts : Texts) {cfg : Config} (h : Accepted T cfg) {m : OrdMap Str Str}
    (hm : cfg.labels = m.toAList) (hreserved : ∀ k ∈ m.keys, isReserved k = false) :
    keptLabels (wireOf cfg m) = m ∧ configOf (wireOf cfg m) = cfg ∧ warningsOf texts (wireOf cfg m) = [] := by
  have hkept : keptLabels (wireOf cfg m) = m :=
    OrdMap.filter_eq_self fun k hk => by rw [hreserved k hk]; rfl
  have hclamp : ¬ MAX_ALLOC < (wireOf cfg m).body.maxInspectBytes := h.maxInspectBytes.2.not_gt
  refine ⟨hkept, ?_, ?_⟩
  · have hgroups : fillGroups cfg.groups = cfg.groups := by
      have hfill : ∀ (g : Option GroupConfig) (default : GroupConfig), g.isSome → some (g.getD default) = g := by
        intro g default hg
        obtain ⟨g', rfl⟩ := Option.isSome_iff_exists.mp hg
        rfl
      obtain ⟨hi, hs, ht, hr⟩ := h.groups
      unfold fillGroups
      rw [hfill _ _ hi, hfill _ _ hs, hfill _ _ ht, hfill _ _ hr]
    unfold configOf
    rw [hkept, if_neg hclamp, ← hm]
    change { cfg with groups := fillGroups cfg.groups } = cfg
    rw [hgroups]
  · have hnone : m.keys.filter isReserved = [] :=
      List.filter_eq_nil_iff.mpr fun k hk => by rw [hreserved k hk]; exact Bool.false_ne_true
    unfold warningsOf
    rw [if_neg hclamp]
    change [] ++ (m.keys.filter isReserved).map _ = []
    rw [hnone]
    rfl

/-- **The configurations there are.**  What some document gives satisfies `Accepted`; and a
configuration that satisfies it is what some document gives, without any warning. -/
theorem parse_reaches_iff (T : Target) (S : Json.Codec) (texts : Texts) (hT : MAX_ALLOC ≤ T.usizeMax) (cfg : Config) :
    ((∃ bytes warnings, parse T S texts bytes = .ok (cfg, warnings)) ↔ Accepted T cfg) ∧
      (Accepted T cfg → ∃ bytes, parse T S texts bytes = .ok (cfg, [])) := by
  have hreached : Accepted T cfg → ∃ bytes, parse T S texts bytes = .ok (cfg, []) := by
    intro h
    obtain ⟨m, hm, hlimits, hreserved⟩ := h.labels
    obtain ⟨hkept, hcfg, hwarnings⟩ := configOf_wireOf texts h hm hreserved
    have hfits : (wireOf cfg m).Fits T :=
      ⟨h.perSecond.2, h.maxTrackedIps, h.maxInspectBytes.2.trans hT, h.trustedHops⟩
    have hbytes : MAX_LABEL_BYTES < T.usizeMax := lt_of_lt_of_le (by decide) hT
    have hvalid : validateLabels T texts.debug (keptLabels (wireOf cfg m)) = .ok () := by
      rw [hkept]
      exact (validateLabels_ok_iff hbytes _ _).mpr hlimits
    have hok : fromWire T texts (wireOf cfg m) = .ok (cfg, []) := fromWire_ok_iff.mpr
      ⟨Nat.ne_of_gt h.perSecond.1, Nat.ne_of_gt h.maxInspectBytes.1, hvalid, hcfg.symm, hwarnings.symm⟩
    refine ⟨Utf8.encode ((wireOf cfg m).encode.compact S.toEscaper), parse_ok_iff.mpr ⟨wireOf cfg m, ?_, hok⟩⟩
    rw [document_encode S (wellFormed_encode _), Option.bind_some, Wire.decode_encode hfits]
  refine ⟨⟨fun ⟨bytes, warnings, h⟩ => accepted_of_parse hT h, fun h => ?_⟩, hreached⟩
  obtain ⟨bytes, hbytes⟩ := hreached h
  exact ⟨bytes, [], hbytes⟩

/-- What the shortest enforcing document gives. -/
def defaultConfig : Config where
  mode := .enforce
  failMode := .failOpen
  body := ⟨1048576, .pass⟩
  groups := ⟨some ⟨true, .enforce⟩, some ⟨true, .enforce⟩, some ⟨true, .monitor⟩, some ⟨false, .monitor⟩⟩
  reputation := .default
  xff := ⟨0⟩
  labels := OrdMap.empty.toAList

theorem parse_reaches_default :
    ∃ bytes, parse Target.wasm32 Json.standard ⟨fun _ => [], id⟩ bytes = .ok (defaultConfig, []) := by
  have hempty : WithinLimits OrdMap.empty := ⟨by decide, nofun, nofun, by decide⟩
  exact (parse_reaches_iff Target.wasm32 Json.standard ⟨fun _ => [], id⟩ (by decide) defaultConfig).2
    ⟨by decide, by decide, by decide, by decide, by decide, OrdMap.empty, rfl, hempty, nofun⟩

end PurpleWolf.Traefik
