import PurpleWolf.Basic
import PurpleWolf.Lib.IpAddr
import PurpleWolf.Lib.Text
import PurpleWolf.Lib.Utf8

/-! # The normalized request (`request.rs`)

`Request.build` normalizes the parts of an HTTP request once; the detectors then read it
through `inspectableFields` only.

Percent decoding is done by the `percent_encoding` crate, which is not part of the
repository: `PercentDecoder` is a decoding function together with its documented
behaviour (an escape of two hexadecimal digits becomes one byte, every other byte stands
for itself), and the model takes it as a parameter. -/

namespace PurpleWolf

open Text

/-! ### Percent decoding -/

/-- The value of a hexadecimal digit. -/
def hexValue (b : UInt8) : Option ℕ := toDigit 16 (Char.ofNat b.toNat)

/-- The byte an escape at the head of the input stands for. -/
def escapedByte : Bytes → Option UInt8
  | p :: h :: l :: _ =>
      if p = 0x25 then
        match hexValue h, hexValue l with
        | some hi, some lo => some (UInt8.ofNat (hi * 16 + lo))
        | _, _ => none
      else none
  | _ => none

/-- `percent_encoding::percent_decode`. -/
structure PercentDecoder where
  percentDecode : Bytes → Bytes
  nil : percentDecode [] = []
  escape : ∀ p h l rest b, escapedByte (p :: h :: l :: rest) = some b →
    percentDecode (p :: h :: l :: rest) = b :: percentDecode rest
  literal : ∀ b rest, escapedByte (b :: rest) = none → percentDecode (b :: rest) = b :: percentDecode rest

namespace PercentDecoder

/-- One pass over the input, `skip` counting the bytes of the current escape left to drop. -/
def standardFrom : ℕ → Bytes → Bytes
  | _, [] => []
  | skip + 1, _ :: bs => standardFrom skip bs
  | 0, b :: bs =>
      match escapedByte (b :: bs) with
      | some c => c :: standardFrom 2 bs
      | none => b :: standardFrom 0 bs

/-- The behaviour determines the function: here it is. -/
def standard : PercentDecoder where
  percentDecode := standardFrom 0
  nil := rfl
  escape p h l rest b hb := by
    show standardFrom 0 (p :: h :: l :: rest) = b :: standardFrom 0 rest
    rw [standardFrom, hb]
    cases rest <;> rfl
  literal b rest hb := by
    show standardFrom 0 (b :: rest) = b :: standardFrom 0 rest
    rw [standardFrom, hb]

end PercentDecoder

/-- `percent_decode_str(s).decode_utf8_lossy()`. -/
def decodePass (P : PercentDecoder) (s : Str) : Str :=
  Utf8.decodeLossy (P.percentDecode (Utf8.encode s))

def MAX_DECODE_PASSES : ℕ := 3

/-- The remaining passes, stopping early when nothing is left to decode. -/
def decodeLoop (P : PercentDecoder) : ℕ → Str → Str
  | 0, cur => cur
  | passes + 1, cur =>
      if '%' ∉ cur then cur
      else
        let next := decodePass P cur
        if next = cur then cur else decodeLoop P passes next

/-- Percent-decode to a fixpoint (bounded), lossily. -/
def decode (P : PercentDecoder) (s : Str) : Str :=
  decodeLoop P (MAX_DECODE_PASSES - 1) (decodePass P s)

theorem escapedByte_of_ne {b : UInt8} (h : b ≠ 0x25) (bs : Bytes) : escapedByte (b :: bs) = none := by
  unfold escapedByte
  split
  · next heq =>
      obtain ⟨rfl, -⟩ := List.cons.inj heq
      rw [if_neg h]
  · rfl

theorem percentDecode_of_not_mem (P : PercentDecoder) {bs : Bytes} (h : (0x25 : UInt8) ∉ bs) :
    P.percentDecode bs = bs := by
  induction bs with
  | nil => exact P.nil
  | cons b bs ih =>
      rw [List.mem_cons, not_or] at h
      rw [P.literal b bs (escapedByte_of_ne (Ne.symm h.1) bs), ih h.2]

theorem percent_not_mem_encode {s : Str} (h : '%' ∉ s) : (0x25 : UInt8) ∉ Utf8.encode s := by
  intro hmem
  obtain ⟨c, hc, hb⟩ := Utf8.mem_encode.mp hmem
  exact Utf8.ne_of_mem_encodeChar hb '%' (by decide) (fun e => h (e ▸ hc)) rfl

theorem decodePass_of_not_mem (P : PercentDecoder) {s : Str} (h : '%' ∉ s) : decodePass P s = s := by
  unfold decodePass
  rw [percentDecode_of_not_mem P (percent_not_mem_encode h), Utf8.decodeLossy_encode]

theorem decode_of_not_mem (P : PercentDecoder) {s : Str} (h : '%' ∉ s) : decode P s = s := by
  unfold decode
  rw [decodePass_of_not_mem P h]
  show (if '%' ∉ s then s else _) = s
  rw [if_pos h]

/-! ### Building a request -/

/-- A header list: names and values, in order. -/
abbrev Headers := List (Str × Str)

def INSPECTABLE_HEADERS_EXACT : List Str :=
  ["cookie".toList, "referer".toList, "host".toList, "authorization".toList, "user-agent".toList]

def INSPECTABLE_HEADER_PREFIX : Str := "x-".toList

/-- Whether the values of a header (with a lower-case name) are inspected. -/
def isInspectable (name : Str) : Bool :=
  INSPECTABLE_HEADERS_EXACT.contains name || INSPECTABLE_HEADER_PREFIX.isPrefixOf name

structure Request where
  method : Str
  host : Str
  path : Str
  rawQuery : Option Str
  queryParams : List (Str × Str)
  headers : Headers
  headerBytes : ℕ
  body : Bytes
  bodyInspected : Bool
  bodyTruncated : Bool
  sourceIp : IpAddr
  inspectableHeaders : List Bytes

/-- The raw and, when different, percent-decoded values of the inspected headers. -/
def buildInspectableHeaders (P : PercentDecoder) (headers : Headers) : List Bytes :=
  headers.flatMap fun (k, v) =>
    if isInspectable k then
      Utf8.encode v ::
        (if '%' ∈ v then
          let decoded := decode P v
          if decoded ≠ v then [Utf8.encode decoded] else []
        else [])
    else []

def parseQuery (P : PercentDecoder) (raw : Str) : List (Str × Str) :=
  ((raw.splitOn '&').filter (fun p => !p.isEmpty)).map fun p =>
    match splitOnce '=' p with
    | some (k, v) => (decode P k, decode P v)
    | none => (decode P p, [])

/-- `str::len`: the length in bytes. -/
def strLen (s : Str) : ℕ := (Utf8.encode s).length

@[simp] theorem strLen_nil : strLen [] = 0 := rfl

@[simp] theorem strLen_cons (c : Char) (s : Str) : strLen (c :: s) = c.utf8Size + strLen s := by
  unfold strLen
  rw [Utf8.encode_cons, List.length_append, String.length_utf8EncodeChar]

@[simp] theorem strLen_append (s t : Str) : strLen (s ++ t) = strLen s + strLen t := by
  unfold strLen
  rw [Utf8.encode_append, List.length_append]

theorem strLen_le (s : Str) : strLen s ≤ 4 * s.length := by
  induction s with
  | nil => exact Nat.zero_le _
  | cons c s ih =>
      have hc := c.utf8Size_le_four
      rw [strLen_cons, List.length_cons]
      omega

namespace Request

def build (P : PercentDecoder) (method host path rawQuery : Str) (headers : Headers) (body : Bytes)
    (bodyInspected : Bool) (sourceIp : IpAddr) : Request :=
  let lowered := headers.map (fun (k, v) => (toAsciiLowercase k, v))
  { method := toAsciiUppercase method
    host := toAsciiLowercase host
    path := decode P path
    rawQuery := if rawQuery.isEmpty then none else some rawQuery
    queryParams := parseQuery P rawQuery
    headers := lowered
    headerBytes := (headers.map (fun (k, v) => strLen k + strLen v)).sum
    body := body
    bodyInspected := bodyInspected
    bodyTruncated := false
    sourceIp := sourceIp
    inspectableHeaders := buildInspectableHeaders P lowered }

def withTruncatedBody (req : Request) (truncated : Bool) : Request :=
  { req with bodyTruncated := truncated }

/-- Look up a header by name, ignoring case. -/
def header (req : Request) (name : Str) : Option Str :=
  (req.headers.find? (fun (k, _) => eqIgnoreAsciiCase k name)).map (·.2)

def userAgent (req : Request) : Option Str := req.header "user-agent".toList

end Request

/-! ### The inspected fields -/

inductive InspectablePhase where
  | path
  | query
  | body
  | headers
  | done
  deriving DecidableEq

/-- The iterator over the fields a detector scans. -/
structure InspectableFields where
  phase : InspectablePhase
  queryIdx : ℕ
  headerIdx : ℕ

namespace InspectableFields

variable (req : Request)

/-! Each phase of `next` either yields a field or hands over to the phase after it. -/

def nextHeaders (it : InspectableFields) : Option (Bytes × InspectableFields) :=
  match req.inspectableHeaders[it.headerIdx]? with
  | some value => some (value, { it with headerIdx := it.headerIdx + 1 })
  | none => none

def nextBody (it : InspectableFields) : Option (Bytes × InspectableFields) :=
  if req.bodyInspected then some (req.body, { it with phase := .headers })
  else nextHeaders req { it with phase := .headers }

def nextQuery (it : InspectableFields) : Option (Bytes × InspectableFields) :=
  match req.queryParams[it.queryIdx]? with
  | some (_, value) => some (Utf8.encode value, { it with queryIdx := it.queryIdx + 1 })
  | none => nextBody req { it with phase := .body }

def next (it : InspectableFields) : Option (Bytes × InspectableFields) :=
  match it.phase with
  | .path => some (Utf8.encode req.path, { it with phase := .query })
  | .query => nextQuery req it
  | .body => nextBody req it
  | .headers => nextHeaders req it
  | .done => none

/-- The fields still to come, in at most `fuel` calls of `next`. -/
def collect : ℕ → InspectableFields → List Bytes
  | 0, _ => []
  | fuel + 1, it =>
      match next req it with
      | some (field, it) => field :: collect fuel it
      | none => []

end InspectableFields

namespace Request

/-- Every field a detector scans, in the order of the iterator: one call for the path, at
most one for each query parameter, the body and each inspected header, and one to see the
end. -/
def inspectableFields (req : Request) : List Bytes :=
  InspectableFields.collect req (req.queryParams.length + req.inspectableHeaders.length + 3) ⟨.path, 0, 0⟩

end Request

namespace InspectableFields

variable (req : Request)

/-- A phase that yields nothing is invisible. -/
theorem collect_congr {it it' : InspectableFields} (fuel : ℕ) (h : next req it = next req it') :
    collect req (fuel + 1) it = collect req (fuel + 1) it' := by
  unfold collect
  rw [h]

theorem collect_headers (fuel : ℕ) : ∀ i q, req.inspectableHeaders.length < fuel + i →
    collect req fuel ⟨.headers, q, i⟩ = req.inspectableHeaders.drop i := by
  induction fuel with
  | zero =>
      intro i q h
      rw [List.drop_eq_nil_of_le (by omega)]
      rfl
  | succ fuel ih =>
      intro i q h
      unfold collect next nextHeaders
      by_cases hi : i < req.inspectableHeaders.length
      · rw [List.getElem?_eq_getElem hi, List.drop_eq_getElem_cons hi, ← ih (i + 1) q (by omega)]
      · have hle := Nat.le_of_not_lt hi
        rw [List.getElem?_eq_none hle, List.drop_eq_nil_of_le hle]

theorem collect_body (fuel q : ℕ) (h : req.inspectableHeaders.length < fuel) :
    collect req (fuel + 1) ⟨.body, q, 0⟩ =
      (if req.bodyInspected then [req.body] else []) ++ req.inspectableHeaders := by
  by_cases hb : req.bodyInspected
  · unfold collect next nextBody
    simp only [hb, if_true]
    rw [collect_headers req fuel 0 q (by omega)]
    rfl
  · have hn : next req ⟨.body, q, 0⟩ = next req ⟨.headers, q, 0⟩ := by simp [next, nextBody, hb]
    rw [collect_congr req fuel hn, collect_headers req (fuel + 1) 0 q (by omega)]
    simp [hb]

theorem collect_query (fuel : ℕ) :
    ∀ i, req.queryParams.length + req.inspectableHeaders.length + 1 ≤ fuel + i →
      req.inspectableHeaders.length < fuel → collect req (fuel + 1) ⟨.query, i, 0⟩ =
        (req.queryParams.drop i).map (fun p => Utf8.encode p.2) ++
          ((if req.bodyInspected then [req.body] else []) ++ req.inspectableHeaders) := by
  induction fuel with
  | zero =>
      intro i _ h
      omega
  | succ fuel ih =>
      intro i h hf
      by_cases hi : i < req.queryParams.length
      · rw [List.drop_eq_getElem_cons hi, List.map_cons, List.cons_append, ← ih (i + 1) (by omega) (by omega)]
        rw [collect]
        simp only [next, nextQuery, List.getElem?_eq_getElem hi]
      · have hle := Nat.le_of_not_lt hi
        have hn : next req ⟨.query, i, 0⟩ = next req ⟨.body, i, 0⟩ := by
          simp [next, nextQuery, nextBody, List.getElem?_eq_none hle]
        rw [collect_congr req _ hn, collect_body req _ i hf, List.drop_eq_nil_of_le hle]
        rfl

end InspectableFields

namespace Request

/-- **The inspected fields**: path, query values, body when it was read, header values. -/
theorem inspectableFields_eq (req : Request) :
    req.inspectableFields = Utf8.encode req.path :: req.queryParams.map (fun p => Utf8.encode p.2) ++
      ((if req.bodyInspected then [req.body] else []) ++ req.inspectableHeaders) := by
  unfold inspectableFields
  rw [InspectableFields.collect]
  simp only [InspectableFields.next]
  rw [InspectableFields.collect_query req _ 0 (by omega) (by omega)]
  rfl

end Request

end PurpleWolf
