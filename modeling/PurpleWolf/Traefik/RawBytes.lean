import PurpleWolf.Core.Injection
import PurpleWolf.Traefik.HeaderTruncation

/-! # Raw bytes in the injection detector

The injection detector hands every inspected field to libinjection as bytes.  The body gets
there as the host delivered it.  Header values pass through a `String` on their way;
`rawBytes_iff` says when their bytes survive that: a value that is kept and is valid UTF-8
always does, any other value only if its bytes happen to stand in another field. -/

namespace PurpleWolf.Traefik

open Text

/-- Every value of an allow-listed header, and the body if it is not over the cap, stands
byte for byte in some field that is passed to `isSqli` and `isXss`. -/
structure RawBytes (cfg : Config) (host : Host) (M : HeaderMultimap) (req : Request) : Prop where
  body : (deliveredBody host.bodyAnswers).length ≤ min cfg.body.maxInspectBytes MAX_ALLOC →
    ∃ field ∈ Injection.scannedFields req, deliveredBody host.bodyAnswers <:+: field
  headers : ∀ e ∈ M.entries, isInspectable (toAsciiLowercase e.name) = true → ∀ v ∈ e.values,
    ∃ field ∈ Injection.scannedFields req, v <:+: field

/-- The value is among those taken of its header, and the header among those taken. -/
def Kept (M : HeaderMultimap) (e : HeaderEntry) (v : Bytes) : Prop :=
  e ∈ M.entries.take MAX_MULTI_VALUES ∧ v ∈ e.values.take MAX_MULTI_VALUES

/-- What the detectors are shown: the decoded path and query values, the body as far as it
was read, and what is retained of the inspected headers. -/
def inspectedTexts (P : PercentDecoder) (M : HeaderMultimap) (path rawQuery : Str) (body : Bytes) :
    List Bytes :=
  Utf8.encode (decode P path) :: (parseQuery P rawQuery).map (fun p => Utf8.encode p.2) ++
    ((if body.isEmpty then [] else [body]) ++ buildInspectableHeaders P (M.retained.take MAX_MULTI_VALUES))

section Request

variable (P : PercentDecoder) (cfg : Config) {host : Host} {M : HeaderMultimap}

theorem scannedFields_of_conforms (h : Conforms host M) (body : BodyRead) :
    Injection.scannedFields (buildRequest P cfg host body) =
      inspectedTexts P M (pathAndQuery host).1 (pathAndQuery host).2 body.bytes := by
  have hheaders : (buildRequest P cfg host body).headers = M.retained.take MAX_MULTI_VALUES := by
    rw [buildRequest_headers, requestHeaders_of_conforms h, List.map_take, lowercase_retained]
  have hinspected : (buildRequest P cfg host body).inspectableHeaders =
      buildInspectableHeaders P (M.retained.take MAX_MULTI_VALUES) := by
    rw [← hheaders]
    rfl
  unfold Injection.scannedFields inspectedTexts
  rw [Request.inspectableFields_eq, hinspected]
  congr 2
  show (if (!body.bytes.isEmpty) = true then [body.bytes] else []) = _
  cases body.bytes.isEmpty <;> rfl

theorem retainedText_mem_inspectedTexts {e : HeaderEntry} (he : e ∈ M.entries.take MAX_MULTI_VALUES)
    (hins : isInspectable (toAsciiLowercase e.name) = true) (path rawQuery : Str) (body : Bytes) :
    Utf8.encode (retainedText e.values) ∈ inspectedTexts P M path rawQuery body := by
  apply List.mem_append_right
  apply List.mem_append_right
  unfold buildInspectableHeaders HeaderMultimap.retained
  rw [← List.map_take]
  apply List.mem_flatMap.mpr
  refine ⟨_, List.mem_map.mpr ⟨e, he, rfl⟩, ?_⟩
  simp only
  rw [if_pos hins]
  exact List.mem_cons_self

theorem infix_retained {v : Bytes} {vs : List Bytes} (h : v ∈ vs.take MAX_MULTI_VALUES) (hv : Utf8.Valid v) :
    v <:+: Utf8.encode (retainedText vs) := by
  have hfound := foundIn_retained h
  unfold FoundIn at hfound
  rwa [Utf8.encode_decodeLossy hv] at hfound

/-- A body that is not over the cap is a field, unless it is empty. -/
theorem body_inspected (h : Conforms host M) {preserveAfterCap : Bool} {drained : Drained} {body : BodyRead}
    (hread : host.readRequestBody cfg.body.maxInspectBytes preserveAfterCap = some drained)
    (hok : drained.result = .ok body)
    (hle : (deliveredBody host.bodyAnswers).length ≤ min cfg.body.maxInspectBytes MAX_ALLOC) :
    ∃ field ∈ Injection.scannedFields (buildRequest P cfg host body),
      deliveredBody host.bodyAnswers <:+: field := by
  have hbytes := (readRequestBody_bytes hread hok).1
  rw [List.take_of_length_le hle] at hbytes
  rw [scannedFields_of_conforms P cfg h, ← hbytes]
  unfold inspectedTexts
  cases hempty : body.bytes with
  | nil => exact ⟨_, List.mem_cons_self, List.nil_infix⟩
  | cons b bs => exact ⟨b :: bs, by simp, List.infix_rfl⟩

/-- **When raw bytes are inspected.**  A conforming host delivers the headers `M` and a body
that is read without error.  Everything is inspected byte for byte exactly when every value
of an allow-listed header that is dropped or not valid UTF-8 happens to stand in some other
text that is inspected. -/
theorem rawBytes_iff (h : Conforms host M) {drained : Drained} {body : BodyRead}
    (hread : host.readRequestBody cfg.body.maxInspectBytes (cfg.body.overCap == .pass) = some drained)
    (hok : drained.result = .ok body) :
    RawBytes cfg host M (buildRequest P cfg host body) ↔
      ∀ e ∈ M.entries, isInspectable (toAsciiLowercase e.name) = true → ∀ v ∈ e.values,
        ¬ (Kept M e v ∧ Utf8.Valid v) →
          ∃ text ∈ inspectedTexts P M (pathAndQuery host).1 (pathAndQuery host).2 body.bytes, v <:+: text := by
  have hfields := scannedFields_of_conforms P cfg h body
  constructor
  · intro hraw e he hins v hv _
    rw [← hfields]
    exact hraw.headers e he hins v hv
  · intro hlost
    constructor
    · exact body_inspected P cfg h hread hok
    · intro e he hins v hv
      rw [hfields]
      by_cases hkept : Kept M e v ∧ Utf8.Valid v
      · obtain ⟨⟨he', hv'⟩, hvalid⟩ := hkept
        exact ⟨_, retainedText_mem_inspectedTexts P he' hins _ _ _, infix_retained hv' hvalid⟩
      · exact hlost e he hins v hv hkept

end Request

/-! ### A value that is not UTF-8 -/

/-- The host of a client that sends one header `x-a` and a body of one byte, which is not UTF-8. -/
def singleHost (value : Bytes) (noNul : (0 : UInt8) ∉ value) (le : (aggregate [value]).length ≤ MAX_ALLOC) : Host :=
  { (HeaderMultimap.single [value] (by simpa using noNul) (by simp) le).host with
    body := [(Vector.replicate _ 0xFF, 0x100000001)] }

theorem singleHost_conforms (value : Bytes) (noNul : (0 : UInt8) ∉ value)
    (le : (aggregate [value]).length ≤ MAX_ALLOC) :
    Conforms (singleHost value noNul le) (HeaderMultimap.single [value] (by simpa using noNul) (by simp) le) := by
  have h := (HeaderMultimap.single [value] (by simpa using noNul) (by simp) le).conforms
  exact ⟨h.names, h.values⟩

/-- The bytes of `é` in UTF-8 are inspected as they are, and so is the body. -/
theorem rawBytes_valid :
    RawBytes monitorAll (singleHost [0xC3, 0xA9] (by decide) (by decide))
      (HeaderMultimap.single [[0xC3, 0xA9]] (by decide) (by decide) (by decide))
      (buildRequest PercentDecoder.standard monitorAll (singleHost [0xC3, 0xA9] (by decide) (by decide))
        ⟨[0xFF], false⟩) := by
  have hread : ∃ drained, (singleHost [0xC3, 0xA9] (by decide) (by decide)).readRequestBody 1048576 true =
      some drained ∧ drained.result = .ok ⟨[0xFF], false⟩ := ⟨_, rfl, rfl⟩
  obtain ⟨drained, hread, hok⟩ := hread
  rw [rawBytes_iff PercentDecoder.standard monitorAll (singleHost_conforms _ _ _) hread hok]
  intro e he _ v hv hlost
  exfalso
  apply hlost
  rw [List.mem_singleton.mp he] at hv ⊢
  rw [List.mem_singleton.mp hv]
  exact ⟨⟨List.mem_singleton_self _, by decide⟩, by decide⟩

/-- The bytes of `é` in Latin-1 are replaced. -/
theorem rawBytes_latin1 :
    Conforms (singleHost [0xE9, 0x27] (by decide) (by decide))
        (HeaderMultimap.single [[0xE9, 0x27]] (by decide) (by decide) (by decide)) ∧
      (∃ drained, (singleHost [0xE9, 0x27] (by decide) (by decide)).readRequestBody 1048576 true =
        some drained ∧ drained.result = .ok ⟨[0xFF], false⟩) ∧
      ¬ RawBytes monitorAll (singleHost [0xE9, 0x27] (by decide) (by decide))
        (HeaderMultimap.single [[0xE9, 0x27]] (by decide) (by decide) (by decide))
        (buildRequest PercentDecoder.standard monitorAll (singleHost [0xE9, 0x27] (by decide) (by decide))
          ⟨[0xFF], false⟩) := by
  refine ⟨singleHost_conforms _ _ _, ⟨_, rfl, rfl⟩, ?_⟩
  intro h
  obtain ⟨field, hfield, hin⟩ := h.headers _ (List.mem_singleton_self _) (by decide) [0xE9, 0x27] (by decide)
  rw [scannedFields_of_conforms PercentDecoder.standard monitorAll (singleHost_conforms _ _ _)] at hfield
  have htexts : inspectedTexts PercentDecoder.standard
      (HeaderMultimap.single [[0xE9, 0x27]] (by decide) (by decide) (by decide)) [] [] [0xFF] =
      [[], [0xFF], [0xEF, 0xBF, 0xBD, 0x27]] := by decide +kernel
  rw [show pathAndQuery (singleHost [0xE9, 0x27] (by decide) (by decide)) = ([], []) from rfl] at hfield
  simp only [htexts, List.mem_cons, List.not_mem_nil, or_false] at hfield
  rcases hfield with rfl | rfl | rfl
  · exact absurd hin (by decide)
  · exact absurd hin (by decide)
  · exact absurd hin (by decide)

end PurpleWolf.Traefik
