import PurpleWolf.Core.Request
import PurpleWolf.Lib.Iteration

/-! # The order of the inspected fields (`request.rs`)

`InspectableFields.next` is a loop that falls through the phases of the iterator until one of them
has a field to return.  `round` is one round of that loop and `nextInLoop` the whole of it; the
fields that a state has yet to yield are `rest`, and a round takes the first of them, or
nothing.

`build_inspectable_fields` says what the iterator yields in terms of the arguments of
`Request::build`. -/

namespace PurpleWolf

open Text Iteration

namespace InspectableFields

variable (req : Request)

/-! ### The loop -/

/-- How a round of the loop ends. -/
inductive Round where
  | again (it : InspectableFields)
  | returned (item : Option Bytes) (it : InspectableFields)

def round (it : InspectableFields) : Round :=
  match it.phase with
  | .path => .returned (some (Utf8.encode req.path)) { it with phase := .query }
  | .query =>
      match req.queryParams[it.queryIdx]? with
      | some (_, value) => .returned (some (Utf8.encode value)) { it with queryIdx := it.queryIdx + 1 }
      | none => .again { it with phase := .body }
  | .body =>
      if req.bodyInspected then .returned (some req.body) { it with phase := .headers }
      else .again { it with phase := .headers }
  | .headers =>
      match req.inspectableHeaders[it.headerIdx]? with
      | some value => .returned (some value) { it with headerIdx := it.headerIdx + 1 }
      | none => .again { it with phase := .done }
  | .done => .returned none it

/-- The phases after this one. -/
def phasesLeft : InspectablePhase → ℕ
  | .path => 4
  | .query => 3
  | .body => 2
  | .headers => 1
  | .done => 0

/-- A round that returns nothing leaves its phase for a later one. -/
theorem phasesLeft_lt {it it' : InspectableFields} (h : round req it = .again it') :
    phasesLeft it'.phase < phasesLeft it.phase := by
  obtain ⟨phase, queryIdx, headerIdx⟩ := it
  unfold round at h
  cases phase <;> simp only at h
  · cases h
  · split at h
    · cases h
    · cases h
      exact Nat.lt_add_one 2
  · split_ifs at h
    cases h
    exact Nat.lt_add_one 1
  · split at h
    · cases h
    · cases h
      exact Nat.lt_add_one 0
  · cases h

/-- `next`: rounds until one of them returns. -/
def nextInLoop (it : InspectableFields) : Option Bytes × InspectableFields :=
  match _h : round req it with
  | .again it' => nextInLoop it'
  | .returned item it' => (item, it')
  termination_by phasesLeft it.phase
  decreasing_by exact phasesLeft_lt req _h

/-! ### What is still to come -/

/-- The fields that a state has yet to yield. -/
def rest (it : InspectableFields) : List Bytes :=
  let headers := req.inspectableHeaders.drop it.headerIdx
  let body := (if req.bodyInspected then [req.body] else []) ++ headers
  let query := (req.queryParams.drop it.queryIdx).map (fun p => Utf8.encode p.2) ++ body
  match it.phase with
  | .path => Utf8.encode req.path :: query
  | .query => query
  | .body => body
  | .headers => headers
  | .done => []

/-- What a round does to the fields that are still to come. -/
def Takes (fields : List Bytes) : Round → Prop
  | .again it => rest req it = fields
  | .returned none _ => fields = []
  | .returned (some field) it => fields = field :: rest req it

theorem takes_round (it : InspectableFields) : Takes req (rest req it) (round req it) := by
  obtain ⟨phase, queryIdx, headerIdx⟩ := it
  cases phase with
  | path => exact rfl
  | query =>
      unfold round
      cases hparam : req.queryParams[queryIdx]? with
      | none =>
          have hend := List.drop_eq_nil_of_le (List.getElem?_eq_none_iff.mp hparam)
          simp only [Takes, rest, hend, List.map_nil, List.nil_append]
      | some p =>
          obtain ⟨hlt, hp⟩ := List.getElem?_eq_some_iff.mp hparam
          simp only [Takes, rest]
          rw [List.drop_eq_getElem_cons hlt, hp]
          rfl
  | body =>
      unfold round
      by_cases hbody : req.bodyInspected
      · simp only [Takes, rest, hbody, if_true, List.singleton_append]
      · simp only [Takes, rest, hbody, Bool.false_eq_true, if_false, List.nil_append]
  | headers =>
      unfold round
      cases hheader : req.inspectableHeaders[headerIdx]? with
      | none =>
          have hend := List.drop_eq_nil_of_le (List.getElem?_eq_none_iff.mp hheader)
          simp only [Takes, rest, hend]
      | some value =>
          obtain ⟨hlt, hvalue⟩ := List.getElem?_eq_some_iff.mp hheader
          simp only [Takes, rest]
          rw [List.drop_eq_getElem_cons hlt, hvalue]
  | done => exact rfl

theorem nextInLoop_of_again {it it' : InspectableFields} (h : round req it = .again it') :
    nextInLoop req it = nextInLoop req it' := by
  rw [nextInLoop, h]

theorem nextInLoop_of_returned {it it' : InspectableFields} {item : Option Bytes}
    (h : round req it = .returned item it') :
    nextInLoop req it = (item, it') := by
  rw [nextInLoop, h]

/-- The loop returns the first field that is still to come. -/
theorem remaining_nextInLoop : Remaining (nextInLoop req) (rest req) := by
  intro it
  have htakes := takes_round req it
  induction it using nextInLoop.induct req with
  | case1 it it' hround ih =>
      rw [hround] at htakes
      have hrest : rest req it' = rest req it := htakes
      rw [nextInLoop_of_again req hround, ← hrest]
      exact ih (takes_round req it')
  | case2 it item it' hround =>
      rw [hround] at htakes
      rw [nextInLoop_of_returned req hround]
      cases item with
      | none =>
          have hrest : rest req it = [] := htakes
          rw [hrest]
          exact ⟨rfl, fun hne => absurd rfl hne⟩
      | some field =>
          have hrest : rest req it = field :: rest req it' := htakes
          rw [hrest]
          exact ⟨rfl, fun _ => rfl⟩

/-- What `inspectable_fields` returns. -/
def fresh : InspectableFields := ⟨.path, 0, 0⟩

/-- Collecting comes to an end, with the fields that the detectors read. -/
theorem collects_iff (fields : List Bytes) :
    Collects (nextInLoop req) fresh fields ↔ fields = req.inspectableFields := by
  rw [(remaining_nextInLoop req).collects_iff, Request.inspectableFields_eq]
  rfl

end InspectableFields

/-- `visit_inspectable_fields`, for a closure that takes one value to another. -/
def Request.VisitInspectableFields {β : Type} (req : Request) (visit : β → Bytes → β) : β → β → Prop :=
  ForEach (InspectableFields.nextInLoop req) visit InspectableFields.fresh

theorem Request.visitInspectableFields_iff {β : Type} (req : Request) (visit : β → Bytes → β) (b b' : β) :
    req.VisitInspectableFields visit b b' ↔ b' = req.inspectableFields.foldl visit b := by
  unfold VisitInspectableFields
  rw [(InspectableFields.remaining_nextInLoop req).forEach_iff, Request.inspectableFields_eq]
  rfl

/-! ### The fields of a request that is built -/

/-- What follows the first `=` in a part of the query. -/
def queryValue (part : Str) : Str :=
  match splitOnce '=' part with
  | some (_, value) => value
  | none => []

/-- The values of a header of this name are inspected. -/
def isInspectedName (name : Str) : Bool :=
  INSPECTABLE_HEADERS_EXACT.any (eqIgnoreAsciiCase name) ||
    eqIgnoreAsciiCase (name.take INSPECTABLE_HEADER_PREFIX.length) INSPECTABLE_HEADER_PREFIX

/-- A value and, if that is something else, the decoded value. -/
def headerFields (P : PercentDecoder) (value : Str) : List Bytes :=
  Utf8.encode value :: if decode P value ≠ value then [Utf8.encode (decode P value)] else []

/-- The fields that are to be inspected, for the arguments of `Request::build`. -/
def fieldsOf (P : PercentDecoder) (path rawQuery : Str) (headers : Headers) (body : Bytes) (bodyInspected : Bool) :
    List Bytes :=
  Utf8.encode (decode P path) ::
    ((rawQuery.splitOn '&').filter (fun part => !part.isEmpty)).map
        (fun part => Utf8.encode (decode P (queryValue part))) ++
      ((if bodyInspected then [body] else []) ++
        (headers.filter (fun header => isInspectedName header.1)).flatMap (fun header => headerFields P header.2))

theorem isInspectable_toAsciiLowercase (name : Str) : isInspectable (toAsciiLowercase name) = isInspectedName name := by
  have hlower : ∀ n ∈ INSPECTABLE_HEADERS_EXACT, toAsciiLowercase n = n := by decide
  have hprefix : toAsciiLowercase INSPECTABLE_HEADER_PREFIX = INSPECTABLE_HEADER_PREFIX := by decide
  have hexact : INSPECTABLE_HEADERS_EXACT.contains (toAsciiLowercase name) =
      INSPECTABLE_HEADERS_EXACT.any (eqIgnoreAsciiCase name) := by
    rw [Bool.eq_iff_iff, List.contains_iff_mem, List.any_eq_true]
    constructor
    · intro hmem
      exact ⟨_, hmem, eqIgnoreAsciiCase_iff.mpr (hlower _ hmem).symm⟩
    · rintro ⟨n, hn, heq⟩
      rw [eqIgnoreAsciiCase_iff.mp heq, hlower n hn]
      exact hn
  have hstart : INSPECTABLE_HEADER_PREFIX.isPrefixOf (toAsciiLowercase name) =
      eqIgnoreAsciiCase (name.take INSPECTABLE_HEADER_PREFIX.length) INSPECTABLE_HEADER_PREFIX := by
    rw [Bool.eq_iff_iff, List.isPrefixOf_iff_prefix, List.prefix_iff_eq_take, eqIgnoreAsciiCase_iff, hprefix]
    unfold toAsciiLowercase
    rw [List.map_take]
    exact eq_comm
  unfold isInspectable isInspectedName
  rw [hexact, hstart]

/-- The shortcut for values without a percent sign changes nothing. -/
theorem headerFields_eq (P : PercentDecoder) (v : Str) : headerFields P v =
    Utf8.encode v :: if '%' ∈ v then (if decode P v ≠ v then [Utf8.encode (decode P v)] else []) else [] := by
  unfold headerFields
  by_cases hpercent : '%' ∈ v
  · rw [if_pos hpercent]
  · have hsame := decode_of_not_mem P hpercent
    rw [if_neg hpercent, if_neg (not_not.mpr hsame)]

theorem buildInspectableHeaders_eq (P : PercentDecoder) (headers : Headers) :
    buildInspectableHeaders P headers =
      (headers.filter (fun header => isInspectable header.1)).flatMap (fun header => headerFields P header.2) := by
  induction headers with
  | nil => rfl
  | cons header headers ih =>
      have hcons : buildInspectableHeaders P (header :: headers) =
          (if isInspectable header.1 then headerFields P header.2 else []) ++ buildInspectableHeaders P headers := by
        rw [headerFields_eq]
        rfl
      rw [hcons, ih, List.filter_cons]
      split_ifs
      · rw [List.flatMap_cons]
      · rw [List.nil_append]

theorem parseQuery_values (P : PercentDecoder) (rawQuery : Str) :
    (parseQuery P rawQuery).map (fun p => Utf8.encode p.2) =
      ((rawQuery.splitOn '&').filter (fun part => !part.isEmpty)).map
          (fun part => Utf8.encode (decode P (queryValue part))) := by
  unfold parseQuery
  rw [List.map_map]
  apply List.map_congr_left
  intro part _
  rw [Function.comp_apply]
  unfold queryValue
  cases splitOnce '=' part with
  | none =>
      have hempty : decode P [] = [] := decode_of_not_mem P List.not_mem_nil
      simp only [hempty]
  | some kv => rfl

theorem inspectableHeaders_build (P : PercentDecoder) (headers : Headers) :
    buildInspectableHeaders P (headers.map (fun (k, v) => (toAsciiLowercase k, v))) =
      (headers.filter (fun header => isInspectedName header.1)).flatMap (fun header => headerFields P header.2) := by
  rw [buildInspectableHeaders_eq, List.filter_map, List.flatMap_map]
  congr 2
  funext header
  exact isInspectable_toAsciiLowercase header.1

theorem inspectableFields_build (P : PercentDecoder) (method host path rawQuery : Str) (headers : Headers)
    (body : Bytes) (bodyInspected : Bool) (sourceIp : IpAddr) :
    (Request.build P method host path rawQuery headers body bodyInspected sourceIp).inspectableFields =
      fieldsOf P path rawQuery headers body bodyInspected := by
  rw [Request.inspectableFields_eq]
  unfold Request.build fieldsOf
  simp only
  rw [parseQuery_values, inspectableHeaders_build]

/-- **The inspected fields of a request**, in order: the path, the values in the query, the
body if it is inspected, and the values of some headers, raw and decoded.  The iterator yields
them and then nothing, a visitor sees the same fields, and decoding all header values instead
of those with a percent sign makes no difference. -/
theorem Request.build_inspectable_fields (P : PercentDecoder) (method host path rawQuery : Str) (headers : Headers)
    (body : Bytes) (bodyInspected : Bool) (sourceIp : IpAddr) :
    let req := Request.build P method host path rawQuery headers body bodyInspected sourceIp
    let expected := fieldsOf P path rawQuery headers body bodyInspected
    (∀ fields, Collects (InspectableFields.nextInLoop req) InspectableFields.fresh fields ↔ fields = expected) ∧
      (∀ (β : Type) (visit : β → Bytes → β) (b b' : β),
        req.VisitInspectableFields visit b b' ↔ b' = expected.foldl visit b) ∧
      ∀ headers : Headers, buildInspectableHeaders P headers =
        (headers.filter (fun header => isInspectable header.1)).flatMap (fun header => headerFields P header.2) := by
  intro req expected
  have hfields : req.inspectableFields = expected :=
    inspectableFields_build P method host path rawQuery headers body bodyInspected sourceIp
  refine ⟨?_, ?_, buildInspectableHeaders_eq P⟩
  · intro fields
    rw [InspectableFields.collects_iff, hfields]
  · intro β visit b b'
    rw [req.visitInspectableFields_iff, hfields]

end PurpleWolf
