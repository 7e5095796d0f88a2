import PurpleWolf.Core.Structural
import PurpleWolf.Traefik.Entry

/-! # Truncated headers

The guest takes at most `MAX_MULTI_VALUES` names and as many values of each header.
`truncation_visible_iff` tells for which headers of a conforming host the truncation is
visible: every value of an inspected header is found in some inspected field, or the
structural detector reports the headers.

* **Names.**  More than `MAX_HEADER_COUNT` names are reported, truncated or not.
* **Values.**  A value past the `MAX_MULTI_VALUES`th is dropped, whatever the size of those
  before it; the reports count names and retained bytes. -/

namespace PurpleWolf.Traefik

open Text

/-! ### Conforming hosts -/

/-- Names or values, each with its terminator. -/
def aggregate (vs : List Bytes) : Bytes := vs.flatMap (fun v => v ++ [0])

/-- `(count << 32) | length`. -/
def pack (count len : ℕ) : BitVec 64 := (BitVec.ofNat 64 count <<< 32) ||| BitVec.ofNat 64 len

/-- The call delivers a list: it always returns its count and length, and writes it if it
fits. -/
def Delivers (call : BufCall 64) (vs : List Bytes) : Prop :=
  ∀ limit, (call limit).2 = pack vs.length (aggregate vs).length ∧
    ((aggregate vs).length ≤ limit → (call limit).1.toList.take (aggregate vs).length = aggregate vs)

/-- One header. -/
structure HeaderEntry where
  name : Str
  values : List Bytes
  name_noNul : (0 : UInt8) ∉ Utf8.encode name
  values_noNul : ∀ v ∈ values, (0 : UInt8) ∉ v
  values_ne : values ≠ []

/-- The headers of a request: names are distinct up to ASCII case, and the names and the
values of each header fit an aggregate. -/
structure HeaderMultimap where
  entries : List HeaderEntry
  distinct : (entries.map (fun e => toAsciiLowercase e.name)).Nodup
  names_le : (aggregate (entries.map (fun e => Utf8.encode e.name))).length ≤ MAX_ALLOC
  values_le : ∀ e ∈ entries, (aggregate e.values).length ≤ MAX_ALLOC

/-- The host delivers these headers, looking a name up without regard to ASCII case. -/
structure Conforms (host : Host) (M : HeaderMultimap) : Prop where
  names : Delivers host.headerNames (M.entries.map (fun e => Utf8.encode e.name))
  values : ∀ e ∈ M.entries, ∀ name, eqIgnoreAsciiCase name e.name = true →
    Delivers (host.headerValues (Utf8.encode name)) e.values

/-! ### Reading a multi-value buffer -/

theorem toNat_pack {count len : ℕ} (hcount : count < 2 ^ 31) (hlen : len < 2 ^ 31) :
    (pack count len).toNat = count * 2 ^ 32 + len := by
  unfold pack
  rw [BitVec.toNat_or, BitVec.toNat_shiftLeft, BitVec.toNat_ofNat, BitVec.toNat_ofNat,
    Nat.mod_eq_of_lt (by omega : count < 2 ^ 64), Nat.mod_eq_of_lt (by omega : len < 2 ^ 64),
    Nat.mod_eq_of_lt (by rw [Nat.shiftLeft_eq]; omega), ← Nat.shiftLeft_add_eq_or_of_lt (by omega),
    Nat.shiftLeft_eq]

theorem asSize_of_lt {n : BitVec 32} (h : n.toNat < 2 ^ 31) : asSize n = n.toNat := by
  unfold asSize
  rw [BitVec.toInt_eq_toNat_of_lt (by omega), Int.toNat_natCast]

theorem splitPacked_pack {count len : ℕ} (hcount : count < 2 ^ 31) (hlen : len < 2 ^ 31) :
    splitPacked (pack count len) = (count, len) := by
  have hpack := toNat_pack hcount hlen
  have hmsb : (pack count len).msb = false := by
    rw [BitVec.msb_eq_false_iff_two_mul_lt, hpack]
    omega
  have hhigh : (highHalf (pack count len)).toNat = count := by
    unfold highHalf
    rw [BitVec.toNat_setWidth, BitVec.sshiftRight_eq_of_msb_false hmsb, BitVec.toNat_ushiftRight, hpack,
      Nat.shiftRight_eq_div_pow]
    omega
  have hlow : (lowHalf (pack count len)).toNat = len := by
    unfold lowHalf
    rw [BitVec.toNat_setWidth, hpack]
    omega
  unfold splitPacked
  rw [asSize_of_lt (by omega), asSize_of_lt (by omega), hhigh, hlow]

theorem splitNulFrom_segment {v : Bytes} (hv : (0 : UInt8) ∉ v) (left : ℕ) (buf : Bytes) :
    ∀ segment, splitNulFrom (left + 1) segment (v ++ 0 :: buf) = (segment ++ v) :: splitNulFrom left [] buf := by
  induction v with
  | nil =>
      intro segment
      rw [List.nil_append, splitNulFrom, if_pos rfl, List.append_nil]
  | cons b v ih =>
      intro segment
      rw [List.mem_cons, not_or] at hv
      rw [List.cons_append, splitNulFrom, if_neg (Ne.symm hv.1), ih hv.2, List.append_assoc]
      rfl

theorem splitNulFrom_aggregate {vs : List Bytes} (h : ∀ v ∈ vs, (0 : UInt8) ∉ v) :
    ∀ left, splitNulFrom left [] (aggregate vs) = vs.take left := by
  induction vs with
  | nil =>
      intro left
      cases left <;> rfl
  | cons v vs ih =>
      intro left
      cases left with
      | zero => rw [splitNulFrom, List.take_zero]
      | succ left =>
          have hv := splitNulFrom_segment (h v (by simp)) left (aggregate vs) []
          rw [List.nil_append] at hv
          rw [List.take_succ_cons, ← ih (fun w hw => h w (by simp [hw])), ← hv]
          unfold aggregate
          rw [List.flatMap_cons, List.append_assoc]
          rfl

theorem length_le_aggregate (vs : List Bytes) : vs.length ≤ (aggregate vs).length := by
  induction vs with
  | nil => exact le_rfl
  | cons v vs ih =>
      unfold aggregate at ih ⊢
      rw [List.flatMap_cons, List.length_append, List.length_append, List.length_cons, List.length_singleton]
      omega

/-- **Reading what is delivered**: the first `MAX_MULTI_VALUES` values, whether they fit
the scratch buffer or need a second call. -/
theorem readBufMulti_of_delivers {call : BufCall 64} {vs : List Bytes} (h : Delivers call vs)
    (hnul : ∀ v ∈ vs, (0 : UInt8) ∉ v) (hle : (aggregate vs).length ≤ MAX_ALLOC) :
    readBufMulti call = vs.take MAX_MULTI_VALUES := by
  have hcount := length_le_aggregate vs
  have hsplit : splitPacked (pack vs.length (aggregate vs).length) = (vs.length, (aggregate vs).length) :=
    splitPacked_pack (by unfold MAX_ALLOC at hle; omega) (by unfold MAX_ALLOC at hle; omega)
  have hread : splitNul (aggregate vs) vs.length = vs.take MAX_MULTI_VALUES := by
    unfold splitNul
    rw [splitNulFrom_aggregate hnul, List.take_eq_take_iff]
    omega
  unfold readBufMulti
  simp only [(h _).1, hsplit]
  split_ifs with hfits hlarge
  · rw [(h SCRATCH).2 hfits, hread]
  · omega
  · omega
  · rw [(h _).2 (by rw [(h SCRATCH).1, hsplit]), hread]

/-! ### What is kept of a header -/

/-- The text of a header: its first values, joined. -/
def retainedText (vs : List Bytes) : Str := (joinHeaderValues (vs.take MAX_MULTI_VALUES)).getD []

/-- The headers as the request has them, if no name is dropped. -/
def HeaderMultimap.retained (M : HeaderMultimap) : Headers :=
  M.entries.map (fun e => (toAsciiLowercase e.name, retainedText e.values))

/-- The header size that the structural detector sees. -/
def HeaderMultimap.retainedBytes (M : HeaderMultimap) : ℕ :=
  (M.retained.map (fun (k, v) => strLen k + strLen v)).sum

theorem requestHeader_of_conforms {host : Host} {M : HeaderMultimap} (h : Conforms host M) {e : HeaderEntry}
    (he : e ∈ M.entries) : host.getRequestHeader e.name = some (retainedText e.values) := by
  have hdelivers := h.values e he e.name (eqIgnoreAsciiCase_iff.mpr rfl)
  unfold Host.getRequestHeader retainedText
  rw [readBufMulti_of_delivers hdelivers e.values_noNul (M.values_le e he)]
  cases hvs : e.values with
  | nil => exact absurd hvs e.values_ne
  | cons v vs => rfl

/-- **The header list of the request.** -/
theorem requestHeaders_of_conforms {host : Host} {M : HeaderMultimap} (h : Conforms host M) :
    requestHeaders host = M.retained.take MAX_MULTI_VALUES := by
  have hnames : host.getRequestHeaderNames = (M.entries.take MAX_MULTI_VALUES).map HeaderEntry.name := by
    unfold Host.getRequestHeaderNames
    rw [readBufMulti_of_delivers h.names ?_ M.names_le, ← List.map_take, List.map_map]
    · exact List.map_congr_left fun e _ => Utf8.decodeLossy_encode e.name
    · intro v hv
      obtain ⟨e, -, rfl⟩ := List.mem_map.mp hv
      exact e.name_noNul
  unfold requestHeaders HeaderMultimap.retained
  rw [hnames, ← List.map_take, List.filterMap_map]
  rw [List.filterMap_congr (g := some ∘ fun e => (toAsciiLowercase e.name, retainedText e.values)),
    List.filterMap_eq_map]
  · intro e he
    simp only [Function.comp]
    rw [requestHeader_of_conforms h (List.mem_of_mem_take he)]
    rfl

/-! ### What is found of a value -/

/-- The value's text stands somewhere in the field. -/
def FoundIn (v field : Bytes) : Prop := Utf8.encode (Utf8.decodeLossy v) <:+: field

theorem decodeLossy_joined (v w : Bytes) :
    Utf8.decodeLossy (v ++ [0x2C, 0x20] ++ w) = Utf8.decodeLossy v ++ [',', ' '] ++ Utf8.decodeLossy w := by
  have hcomma := Utf8.decodeLossy_append_ascii (b := 0x2C) (by decide) v (0x20 :: w)
  have hblank := Utf8.decodeLossy_append_ascii (b := 0x20) (by decide) [] w
  rw [List.nil_append, Utf8.decodeLossy_nil, List.nil_append] at hblank
  rw [List.append_assoc, List.cons_append, List.singleton_append, hcomma, hblank, List.append_assoc]
  rfl

theorem foundIn_joined {v : Bytes} (vs : List Bytes) : ∀ w : Bytes,
    FoundIn v (Utf8.encode (Utf8.decodeLossy w)) ∨ v ∈ vs →
      FoundIn v (Utf8.encode (Utf8.decodeLossy
        (vs.foldl (fun joined value => joined ++ [0x2C, 0x20] ++ value) w))) := by
  induction vs with
  | nil =>
      intro w h
      exact h.resolve_right List.not_mem_nil
  | cons u vs ih =>
      intro w h
      apply ih
      rw [List.mem_cons] at h
      rw [decodeLossy_joined, Utf8.encode_append, Utf8.encode_append]
      rcases h with h | rfl | h
      · exact Or.inl (h.trans ((List.prefix_append _ _).trans (List.prefix_append _ _)).isInfix)
      · exact Or.inl (List.suffix_append _ _).isInfix
      · exact Or.inr h

theorem foundIn_retained {v : Bytes} {vs : List Bytes} (h : v ∈ vs.take MAX_MULTI_VALUES) :
    FoundIn v (Utf8.encode (retainedText vs)) := by
  unfold retainedText
  cases hkept : vs.take MAX_MULTI_VALUES with
  | nil =>
      rw [hkept] at h
      exact absurd h List.not_mem_nil
  | cons w ws =>
      rw [hkept, List.mem_cons] at h
      apply foundIn_joined
      rcases h with rfl | h
      · exact Or.inl List.infix_rfl
      · exact Or.inr h

/-! ### The request -/

/-- What the detectors are shown if no name is dropped: the decoded path and query values,
the body, and what is retained of the inspected headers. -/
def keptTexts (P : PercentDecoder) (M : HeaderMultimap) (path rawQuery : Str) (body : Bytes) : List Bytes :=
  Utf8.encode (decode P path) :: (parseQuery P rawQuery).map (fun p => Utf8.encode p.2) ++
    ((if body.isEmpty then [] else [body]) ++ buildInspectableHeaders P M.retained)

/-- Every value of an inspected header is found in some inspected field. -/
def ValuesFound (M : HeaderMultimap) (req : Request) : Prop :=
  ∀ e ∈ M.entries, isInspectable (toAsciiLowercase e.name) = true → ∀ v ∈ e.values,
    ∃ field ∈ req.inspectableFields, FoundIn v field

/-- The structural detector reports the number or the size of the headers. -/
def Reported (req : Request) : Prop :=
  ∃ v ∈ Structural.inspect req, v.rule = "too_many_headers".toList ∨ v.rule = "headers_too_large".toList

/-- The values of inspected headers past the `MAX_MULTI_VALUES`th repeat what is kept. -/
def OverflowRepeats (P : PercentDecoder) (M : HeaderMultimap) (path rawQuery : Str) (body : Bytes) : Prop :=
  ∀ e ∈ M.entries, isInspectable (toAsciiLowercase e.name) = true → ∀ v ∈ e.values.drop MAX_MULTI_VALUES,
    ∃ text ∈ keptTexts P M path rawQuery body, FoundIn v text

theorem reported_iff (req : Request) : Reported req ↔
    Structural.MAX_HEADER_COUNT < req.headers.length ∨ Structural.MAX_HEADER_BYTES < req.headerBytes := by
  unfold Reported
  simp only [and_or_left, exists_or, Structural.reports_iff]
  constructor
  · rintro (h | h)
    · left
      simpa using h
    · right
      simpa using h
  · rintro (h | h)
    · exact Or.inl (Or.inr (Or.inr (Or.inl ⟨trivial, h⟩)))
    · exact Or.inr (Or.inr (Or.inl ⟨trivial, h⟩))

section Request

variable (P : PercentDecoder) (cfg : Config) (body : BodyRead) {host : Host} {M : HeaderMultimap}

theorem buildRequest_headers : (buildRequest P cfg host body).headers =
    (requestHeaders host).map (fun (k, v) => (toAsciiLowercase k, v)) := rfl

theorem buildRequest_headerBytes : (buildRequest P cfg host body).headerBytes =
    ((requestHeaders host).map (fun (k, v) => strLen k + strLen v)).sum := rfl

theorem requestHeaders_eq_retained (h : Conforms host M) (hfew : M.entries.length ≤ MAX_MULTI_VALUES) :
    requestHeaders host = M.retained := by
  rw [requestHeaders_of_conforms h, List.take_of_length_le]
  unfold HeaderMultimap.retained
  rw [List.length_map]
  exact hfew

theorem lowercase_retained (M : HeaderMultimap) :
    M.retained.map (fun (k, v) => (toAsciiLowercase k, v)) = M.retained := by
  unfold HeaderMultimap.retained
  rw [List.map_map]
  refine List.map_congr_left fun e _ => ?_
  simp only [Function.comp, toAsciiLowercase_idem]

/-- **The inspected fields of the request.** -/
theorem inspectableFields_eq_keptTexts (h : Conforms host M) (hfew : M.entries.length ≤ MAX_MULTI_VALUES) :
    (buildRequest P cfg host body).inspectableFields =
      keptTexts P M (pathAndQuery host).1 (pathAndQuery host).2 body.bytes := by
  have hheaders : (buildRequest P cfg host body).headers = M.retained := by
    rw [buildRequest_headers, requestHeaders_eq_retained h hfew, lowercase_retained]
  have hinspected : (buildRequest P cfg host body).inspectableHeaders = buildInspectableHeaders P M.retained := by
    rw [← hheaders]
    rfl
  rw [Request.inspectableFields_eq, hinspected]
  unfold keptTexts
  congr 2
  show (if (!body.bytes.isEmpty) = true then [body.bytes] else []) = _
  cases body.bytes.isEmpty <;> rfl

theorem retained_mem_keptTexts {e : HeaderEntry} (he : e ∈ M.entries)
    (hins : isInspectable (toAsciiLowercase e.name) = true) (path rawQuery : Str) (bytes : Bytes) :
    Utf8.encode (retainedText e.values) ∈ keptTexts P M path rawQuery bytes := by
  refine List.mem_append_right _ (List.mem_append_right _ ?_)
  unfold buildInspectableHeaders
  refine List.mem_flatMap.mpr ⟨(toAsciiLowercase e.name, retainedText e.values), ?_, ?_⟩
  · exact List.mem_map.mpr ⟨e, he, rfl⟩
  · simp only
    rw [if_pos hins]
    exact List.mem_cons_self

/-- With all names kept, only the values past the `MAX_MULTI_VALUES`th may be missing. -/
theorem valuesFound_iff (h : Conforms host M) (hfew : M.entries.length ≤ MAX_MULTI_VALUES) :
    ValuesFound M (buildRequest P cfg host body) ↔
      OverflowRepeats P M (pathAndQuery host).1 (pathAndQuery host).2 body.bytes := by
  unfold ValuesFound OverflowRepeats
  rw [inspectableFields_eq_keptTexts P cfg body h hfew]
  constructor
  · intro hfound e he hins v hv
    exact hfound e he hins v (List.mem_of_mem_drop hv)
  · intro hover e he hins v hv
    rw [← List.take_append_drop MAX_MULTI_VALUES e.values, List.mem_append] at hv
    rcases hv with hv | hv
    · exact ⟨_, retained_mem_keptTexts P he hins _ _ _, foundIn_retained hv⟩
    · exact hover e he hins v hv

theorem reported_iff_of_conforms (h : Conforms host M) :
    Reported (buildRequest P cfg host body) ↔ Structural.MAX_HEADER_COUNT < M.entries.length ∨
      Structural.MAX_HEADER_BYTES < (buildRequest P cfg host body).headerBytes := by
  have hlength : (buildRequest P cfg host body).headers.length = min MAX_MULTI_VALUES M.entries.length := by
    rw [buildRequest_headers, requestHeaders_of_conforms h, List.length_map, List.length_take]
    unfold HeaderMultimap.retained
    rw [List.length_map]
  rw [reported_iff, hlength, lt_min_iff]
  have : Structural.MAX_HEADER_COUNT < MAX_MULTI_VALUES := by decide
  tauto

theorem headerBytes_eq (h : Conforms host M) (hfew : M.entries.length ≤ MAX_MULTI_VALUES) :
    (buildRequest P cfg host body).headerBytes = M.retainedBytes := by
  rw [buildRequest_headerBytes, requestHeaders_eq_retained h hfew]
  rfl

/-- **When header truncation is visible.**  A conforming host delivers the headers `M`.
Either the values of the inspected headers are all found in the inspected fields or the
structural detector reports the headers, exactly when there are more than
`MAX_HEADER_COUNT` names, or what is kept exceeds `MAX_HEADER_BYTES`, or the values past
the `MAX_MULTI_VALUES`th repeat what is kept. -/
theorem truncation_visible_iff (h : Conforms host M) :
    (ValuesFound M (buildRequest P cfg host body) ∨ Reported (buildRequest P cfg host body)) ↔
      (Structural.MAX_HEADER_COUNT < M.entries.length ∨ Structural.MAX_HEADER_BYTES < M.retainedBytes ∨
        OverflowRepeats P M (pathAndQuery host).1 (pathAndQuery host).2 body.bytes) := by
  rw [reported_iff_of_conforms P cfg body h]
  by_cases hmany : Structural.MAX_HEADER_COUNT < M.entries.length
  · simp [hmany]
  · have hfew : M.entries.length ≤ MAX_MULTI_VALUES :=
      le_trans (Nat.le_of_not_lt hmany) (by decide)
    rw [headerBytes_eq P cfg body h hfew, valuesFound_iff P cfg body h hfew]
    tauto

end Request

/-! ### A conforming host -/

/-- The call that delivers a list. -/
def delivered (vs : List Bytes) : BufCall 64 :=
  fun _ => (Vector.ofFn (fun i => (aggregate vs).getD i 0), pack vs.length (aggregate vs).length)

theorem delivers_delivered (vs : List Bytes) : Delivers (delivered vs) vs := by
  intro limit
  refine ⟨rfl, ?_⟩
  intro hle
  unfold delivered
  apply List.ext_getElem (by simp [hle])
  intro i h₁ h₂
  simp [h₂]

/-- The host of a client that asks for nothing but these headers. -/
def HeaderMultimap.host (M : HeaderMultimap) : Host where
  method _ := (Vector.replicate _ 0, 0)
  uri _ := (Vector.replicate _ 0, 0)
  sourceAddr _ := (Vector.replicate _ 0, 0)
  headerNames := delivered (M.entries.map (fun e => Utf8.encode e.name))
  headerValues name :=
    delivered (((M.entries.find? (fun e => eqIgnoreAsciiCase (Utf8.decodeLossy name) e.name)).map
      HeaderEntry.values).getD [])
  features := FEATURE_BUFFER_REQUEST
  body := []

theorem HeaderMultimap.conforms (M : HeaderMultimap) : Conforms M.host M := by
  refine ⟨delivers_delivered _, ?_⟩
  intro e he name hname
  have hfind : M.entries.find? (fun e => eqIgnoreAsciiCase name e.name) = some e := by
    have hsome : (M.entries.find? (fun e => eqIgnoreAsciiCase name e.name)).isSome :=
      List.find?_isSome.mpr ⟨e, he, hname⟩
    obtain ⟨e', he'⟩ := Option.isSome_iff_exists.mp hsome
    have hname' : eqIgnoreAsciiCase name e'.name = true := by simpa using List.find?_some he'
    have hsame : toAsciiLowercase e'.name = toAsciiLowercase e.name :=
      (eqIgnoreAsciiCase_iff.mp hname').symm.trans (eqIgnoreAsciiCase_iff.mp hname)
    rw [he', List.inj_on_of_nodup_map M.distinct (List.mem_of_find?_eq_some he') he hsame]
  unfold host
  simp only
  rw [Utf8.decodeLossy_encode, hfind]
  exact delivers_delivered e.values

/-- One header `x-a` with these values. -/
def HeaderMultimap.single (values : List Bytes) (noNul : ∀ v ∈ values, (0 : UInt8) ∉ v) (ne : values ≠ [])
    (le : (aggregate values).length ≤ MAX_ALLOC) : HeaderMultimap where
  entries := [⟨"x-a".toList, values, by decide, noNul, ne⟩]
  distinct := List.nodup_singleton _
  names_le := by
    show (aggregate [Utf8.encode "x-a".toList]).length ≤ MAX_ALLOC
    decide
  values_le := by simpa using le

/-- A configuration that monitors everything. -/
def monitorAll : Config :=
  ⟨.monitor, .failOpen, ⟨1048576, .pass⟩, Groups.allMonitor, ReputationConfig.default, ⟨0⟩, ∅⟩

theorem length_aggregate_replicate (n : ℕ) (v : Bytes) (vs : List Bytes) :
    (aggregate (List.replicate n v ++ vs)).length = n * (v.length + 1) + (aggregate vs).length := by
  unfold aggregate
  simp

/-- A header with one value more than is kept, all of them the same. -/
def repeating : HeaderMultimap :=
  HeaderMultimap.single (List.replicate MAX_MULTI_VALUES [0x62] ++ [[0x62]])
    (by
      intro v hv
      rw [List.mem_append, List.mem_replicate, List.mem_singleton] at hv
      rcases hv with ⟨-, rfl⟩ | rfl <;> decide)
    (by simp)
    (by
      rw [length_aggregate_replicate]
      decide)

theorem truncation_visible_iff_single :
    (∀ e ∈ repeating.entries, MAX_MULTI_VALUES < e.values.length) ∧
      (ValuesFound repeating (buildRequest PercentDecoder.standard monitorAll repeating.host ⟨[], false⟩) ∨
        Reported (buildRequest PercentDecoder.standard monitorAll repeating.host ⟨[], false⟩)) := by
  constructor
  · intro e he
    rw [List.mem_singleton.mp he]
    show MAX_MULTI_VALUES < (List.replicate MAX_MULTI_VALUES ([0x62] : Bytes) ++ [[0x62]]).length
    rw [List.length_append, List.length_replicate]
    exact Nat.lt_succ_self _
  · refine (truncation_visible_iff PercentDecoder.standard monitorAll ⟨[], false⟩
      (HeaderMultimap.conforms _)).mpr (Or.inr (Or.inr ?_))
    intro e he hins v hv
    refine ⟨_, retained_mem_keptTexts _ he hins _ _ _, foundIn_retained ?_⟩
    rw [List.mem_singleton.mp he] at hv ⊢
    have hdrop : (List.replicate MAX_MULTI_VALUES ([0x62] : Bytes) ++ [[0x62]]).drop MAX_MULTI_VALUES = [[0x62]] :=
      List.drop_left' List.length_replicate
    have htake : (List.replicate MAX_MULTI_VALUES ([0x62] : Bytes) ++ [[0x62]]).take MAX_MULTI_VALUES =
        List.replicate MAX_MULTI_VALUES [0x62] := List.take_left' List.length_replicate
    have hv : v ∈ ([[0x62]] : List Bytes) := hdrop ▸ hv
    show v ∈ (List.replicate MAX_MULTI_VALUES ([0x62] : Bytes) ++ [[0x62]]).take MAX_MULTI_VALUES
    rw [htake, List.mem_replicate]
    exact ⟨by decide, List.mem_singleton.mp hv⟩

/-- What empty values leave: the separators between them. -/
def separators (n : ℕ) : Str := (List.replicate n [',', ' ']).flatten

theorem decodeLossy_join_empty (n : ℕ) : ∀ w : Bytes,
    Utf8.decodeLossy ((List.replicate n []).foldl (fun joined value => joined ++ [0x2C, 0x20] ++ value) w) =
      Utf8.decodeLossy w ++ separators n := by
  induction n with
  | zero =>
      intro w
      exact (List.append_nil _).symm
  | succ n ih =>
      intro w
      unfold separators at ih ⊢
      rw [List.replicate_succ, List.foldl_cons, ih, decodeLossy_joined, Utf8.decodeLossy_nil, List.append_nil,
        List.replicate_succ, List.flatten_cons, List.append_assoc]

theorem eq_of_mem_separators {n : ℕ} {c : Char} (h : c ∈ separators n) : c = ',' ∨ c = ' ' := by
  obtain ⟨sep, hsep, hc⟩ := List.mem_flatten.mp h
  rw [List.eq_of_mem_replicate hsep] at hc
  simpa using hc

theorem strLen_separators (n : ℕ) : strLen (separators n) = 2 * n := by
  unfold strLen separators
  induction n with
  | zero => rfl
  | succ n ih =>
      rw [List.replicate_succ, List.flatten_cons, Utf8.encode_append, List.length_append, ih]
      show 2 + 2 * n = 2 * (n + 1)
      omega

theorem retainedText_empty (vs : List Bytes) :
    retainedText (List.replicate MAX_MULTI_VALUES [] ++ vs) = separators (MAX_MULTI_VALUES - 1) := by
  have hjoin : joinHeaderValues ([] :: List.replicate (MAX_MULTI_VALUES - 1) []) =
      some (Utf8.decodeLossy [] ++ separators (MAX_MULTI_VALUES - 1)) :=
    congrArg some (decodeLossy_join_empty _ _)
  unfold retainedText
  rw [List.take_left' List.length_replicate,
    show List.replicate MAX_MULTI_VALUES ([] : Bytes) = [] :: List.replicate (MAX_MULTI_VALUES - 1) [] from
      List.replicate_succ, hjoin]
  rfl

/-- A header whose first values, as many as are taken, are empty. -/
def overflowing : HeaderMultimap :=
  HeaderMultimap.single (List.replicate MAX_MULTI_VALUES [] ++ [[0x2E, 0x2E, 0x2F]])
    (by
      intro v hv
      rw [List.mem_append, List.mem_replicate, List.mem_singleton] at hv
      rcases hv with ⟨-, rfl⟩ | rfl <;> decide)
    (by simp)
    (by
      rw [length_aggregate_replicate]
      decide)

theorem retained_overflowing :
    overflowing.retained = [("x-a".toList, separators (MAX_MULTI_VALUES - 1))] := by
  show [(toAsciiLowercase "x-a".toList, retainedText _)] = _
  rw [retainedText_empty]
  rfl

theorem keptTexts_overflowing : keptTexts PercentDecoder.standard overflowing [] [] [] =
    [[], Utf8.encode (separators (MAX_MULTI_VALUES - 1))] := by
  have hplain : '%' ∉ separators (MAX_MULTI_VALUES - 1) := by
    intro h
    rcases eq_of_mem_separators h with h | h <;> exact absurd h (by decide)
  have hinspected : buildInspectableHeaders PercentDecoder.standard overflowing.retained =
      [Utf8.encode (separators (MAX_MULTI_VALUES - 1))] := by
    unfold buildInspectableHeaders
    rw [retained_overflowing, List.flatMap_singleton]
    simp only [if_neg hplain]
    rfl
  unfold keptTexts
  rw [hinspected]
  rfl

/-- They hide the `../` behind them. -/
theorem truncation_hides_value : Conforms overflowing.host overflowing ∧
    ¬ (ValuesFound overflowing (buildRequest PercentDecoder.standard monitorAll overflowing.host ⟨[], false⟩) ∨
      Reported (buildRequest PercentDecoder.standard monitorAll overflowing.host ⟨[], false⟩)) := by
  have hconforms := overflowing.conforms
  refine ⟨hconforms, ?_⟩
  rw [reported_iff_of_conforms _ _ _ hconforms, headerBytes_eq _ _ _ hconforms (by decide),
    valuesFound_iff _ _ _ hconforms (by decide)]
  rintro (h | h | h)
  · have hdropped : [0x2E, 0x2E, 0x2F] ∈
        (List.replicate MAX_MULTI_VALUES [] ++ [[0x2E, 0x2E, 0x2F]] : List Bytes).drop MAX_MULTI_VALUES := by
      rw [List.drop_left' List.length_replicate]
      exact List.mem_singleton_self _
    obtain ⟨text, htext, hfound⟩ := h _ (List.mem_singleton_self _) (by decide) _ hdropped
    have hslash : (0x2F : UInt8) ∈ text :=
      hfound.subset (by decide : (0x2F : UInt8) ∈ Utf8.encode (Utf8.decodeLossy [0x2E, 0x2E, 0x2F]))
    rw [show pathAndQuery overflowing.host = ([], []) from rfl, keptTexts_overflowing, List.mem_cons,
      List.mem_singleton] at htext
    rcases htext with rfl | rfl
    · exact List.not_mem_nil hslash
    · obtain ⟨c, hc, hslash⟩ := Utf8.mem_encode.mp hslash
      rcases eq_of_mem_separators hc with rfl | rfl <;> exact absurd hslash (by decide)
  · exact absurd h (by decide)
  · unfold HeaderMultimap.retainedBytes at h
    rw [retained_overflowing, List.map_cons, List.map_nil, List.sum_singleton] at h
    simp only [strLen_separators] at h
    exact absurd h (by decide)

end PurpleWolf.Traefik
