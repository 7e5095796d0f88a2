import PurpleWolf.Core.Decoding
import PurpleWolf.Lib.Url

/-! # The URL that an HTTP enricher requests (`enrichers/http.rs`)

`buildEnrichUrl` puts the value of a label, percent-encoded, into a template.  The text goes
through the URL parser of the client, which resolves dot segments.  Dots are encoded, but the
parser takes an encoded dot for a dot.  So a value is confined to its segment unless it is
itself a dot segment (`confined_iff`).

The encoding is done by the `percent_encoding` crate: `PercentEncoder` is an encoding function with
its documented behaviour, and the model takes it as a parameter. -/

namespace PurpleWolf.Relay

open Text Url

/-! ### The code -/

/-- `AsciiSet::contains` for `URL_VALUE_ENCODE`: the controls and what has been added. -/
def URL_VALUE_ENCODE (c : Char) : Bool := c.toNat < 0x20 || c.toNat == 0x7F || c ∈ "%/\\?#&=@: .".toList

/-- `percent_encoding::utf8_percent_encode`: the bytes of the characters in the set and of those
beyond ASCII are escaped, and every other character stands for itself. -/
structure PercentEncoder where
  utf8PercentEncode : Str → (Char → Bool) → Str
  nil : ∀ set, utf8PercentEncode [] set = []
  cons : ∀ c s set, utf8PercentEncode (c :: s) set =
    percentEncodeChar (fun c => set c || 0x80 ≤ c.toNat) c ++ utf8PercentEncode s set

/-- The behaviour determines the function: here it is. -/
def PercentEncoder.standard : PercentEncoder where
  utf8PercentEncode s set := percentEncode (fun c => set c || 0x80 ≤ c.toNat) s
  nil _ := rfl
  cons _ _ _ := List.flatMap_cons

theorem PercentEncoder.eq (E : PercentEncoder) (s : Str) (set : Char → Bool) :
    E.utf8PercentEncode s set = percentEncode (fun c => set c || 0x80 ≤ c.toNat) s := by
  induction s with
  | nil => exact E.nil set
  | cons c s ih =>
      rw [E.cons, ih]
      rfl

def placeholder : Str := "\x7bvalue\x7d".toList

def buildEnrichUrl (E : PercentEncoder) (template value : Str) : Str :=
  replace placeholder (E.utf8PercentEncode value URL_VALUE_ENCODE) template

/-! ### Decoding -/

theorem encodeChar_digit (d : ℕ) (h : d < 16) :
    ∃ b, String.utf8EncodeChar (digitChar d).toUpper = [b] ∧ hexValue b = some d := by
  have hall : ∀ d < 16, (digitChar d).toUpper.toNat < 0x80 := by decide
  have hvalue : ∀ d < 16, hexValue (UInt8.ofNat (digitChar d).toUpper.toNat) = some d := by decide
  exact ⟨_, Utf8.encodeChar_ascii (hall d h), hvalue d h⟩

theorem encodes_escape (b : UInt8) : Encodes [b] (Utf8.encode (escape b)) := by
  have hb := b.toNat_lt
  obtain ⟨h, hh, hhi⟩ := encodeChar_digit (b.toNat / 16) (by omega)
  obtain ⟨l, hl, hlo⟩ := encodeChar_digit (b.toNat % 16) (by omega)
  have hbytes : Utf8.encode (escape b) = [0x25, h, l] := by
    simp only [escape, Utf8.encode, List.flatMap_cons, List.flatMap_nil, hh, hl]
    rfl
  rw [hbytes]
  exact Encodes.escape hhi hlo (by omega) Encodes.nil

theorem encodes_escapes (bs : Bytes) : Encodes bs (Utf8.encode (bs.flatMap escape)) := by
  induction bs with
  | nil => exact Encodes.nil
  | cons b bs ih =>
      rw [List.flatMap_cons, Utf8.encode_append]
      exact (encodes_escape b).append ih

/-- **Percent-encoding is taken back** by decoding if percent signs are encoded as well. -/
theorem encodes_percentEncode {set : Char → Bool} {s : Str} (h : '%' ∈ s → set '%' = true) :
    Encodes (Utf8.encode s) (Utf8.encode (percentEncode set s)) := by
  induction s with
  | nil => exact Encodes.nil
  | cons c s ih =>
      unfold percentEncode at ih ⊢
      rw [Utf8.encode_cons, List.flatMap_cons, Utf8.encode_append]
      refine Encodes.append ?_ (ih fun hs => h (List.mem_cons_of_mem _ hs))
      unfold percentEncodeChar
      split_ifs with hset
      · exact encodes_escapes _
      · have hc : c ≠ '%' := by
          rintro rfl
          exact hset (h List.mem_cons_self)
        rw [Utf8.encode_cons]
        have hplain : (0x25 : UInt8) ∉ String.utf8EncodeChar c := by
          intro hmem
          exact Utf8.ne_of_mem_encodeChar hmem '%' (by decide) hc rfl
        simpa using Encodes.of_not_mem hplain

/-! ### Dot segments -/

theorem encodes_singleDot {seg : Str} (h : SingleDot seg) : Encodes (Utf8.encode ".".toList) (Utf8.encode seg) := by
  simp only [SingleDot, dots, List.mem_cons, List.not_mem_nil, or_false] at h
  obtain rfl | rfl | rfl := h
  · exact Encodes.literal (by decide) Encodes.nil
  · exact Encodes.escape rfl rfl (by decide) Encodes.nil
  · exact Encodes.escape rfl rfl (by decide) Encodes.nil

theorem encodes_doubleDot {seg : Str} (h : DoubleDot seg) : Encodes (Utf8.encode "..".toList) (Utf8.encode seg) := by
  obtain ⟨a, ha, h⟩ := List.mem_flatMap.mp h
  obtain ⟨b, hb, rfl⟩ := List.mem_map.mp h
  rw [Utf8.encode_append]
  exact (encodes_singleDot ha).append (encodes_singleDot hb)

/-- What is a dot segment when it has been encoded was one before. -/
theorem eq_of_dot {set : Char → Bool} {s : Str} (hset : '%' ∈ s → set '%' = true)
    (h : DoubleDot (percentEncode set s) ∨ SingleDot (percentEncode set s)) : s = "..".toList ∨ s = ".".toList := by
  have hencodes := encodes_percentEncode hset
  obtain h | h := h
  · exact Or.inl (Utf8.encode_injective (hencodes.unique (encodes_doubleDot h)))
  · exact Or.inr (Utf8.encode_injective (hencodes.unique (encodes_singleDot h)))

variable {A : Type} (P : Parser A) (E : PercentEncoder)

/-- The segment that the parser makes of a value. -/
def valueSegment (value : Str) : Str := percentEncode P.pathSet (E.utf8PercentEncode value URL_VALUE_ENCODE)

theorem valueSegment_eq (value : Str) : valueSegment P E value =
    percentEncode (fun c => (URL_VALUE_ENCODE c || 0x80 ≤ c.toNat) || P.pathSet c) value := by
  unfold valueSegment
  rw [E.eq, percentEncode_percentEncode P.pathSet_escapeChar]

/-- Both encodings together are taken back at once. -/
theorem encodes_valueSegment (value : Str) : Encodes (Utf8.encode value) (Utf8.encode (valueSegment P E value)) := by
  rw [valueSegment_eq]
  exact encodes_percentEncode (fun _ => rfl)

theorem dot_valueSegment_iff (value : Str) :
    (DoubleDot (valueSegment P E value) ∨ SingleDot (valueSegment P E value)) ↔
      value = "..".toList ∨ value = ".".toList := by
  constructor
  · intro h
    rw [valueSegment_eq] at h
    exact eq_of_dot (fun _ => rfl) h
  · have hleft : ∀ s : Str, (∀ c ∈ s, c = '%' ∨ (toDigit 16 c).isSome) → percentEncode P.pathSet s = s :=
      fun s hs => percentEncode_of_forall fun c hc => P.pathSet_escapeChar c (hs c hc)
    rintro (rfl | rfl)
    · left
      have hvalue : valueSegment P E "..".toList = "%2E%2E".toList := by
        unfold valueSegment
        rw [E.eq]
        exact hleft "%2E%2E".toList (by decide)
      rw [hvalue]
      decide
    · right
      have hvalue : valueSegment P E ".".toList = "%2E".toList := by
        unfold valueSegment
        rw [E.eq]
        exact hleft "%2E".toList (by decide)
      rw [hvalue]
      decide

theorem isOpaque_value {value : Str} {c : Char} (h : c ∈ E.utf8PercentEncode value URL_VALUE_ENCODE) :
    isOpaque c = true := by
  rw [E.eq] at h
  obtain hescape | ⟨-, hset⟩ := mem_percentEncode h
  · exact isOpaque_of_escapeChar hescape
  · have hall : ∀ c : Char, c.toNat < 0x80 → URL_VALUE_ENCODE c = false → isOpaque c = true := forall_ascii (by decide)
    simp only [Bool.or_eq_false_iff, decide_eq_false_iff_not, not_le] at hset
    exact hall c hset.2 hset.1

/-! ### The placeholder -/

/-- A template in which `{value}` is a whole segment of the path and stands nowhere else.  No
dot segment after it climbs above it. -/
structure Template (P : Parser A) where
  pre : Str
  post : Str
  pre_once : ¬ placeholder <:+: pre
  post_once : ¬ placeholder <:+: post
  slot : Slot pre post
  stays : Stays 0 (slot.after.map (percentEncode P.pathSet))

/-- The URL differs from that of the template in one segment only, which stands for the
value. -/
structure Confined (decoder : PercentDecoder) (url₀ : Url A) (before after : List Str) (value : Str)
    (url : Url A) : Prop where
  scheme : url.scheme = url₀.scheme
  authority : url.authority = url₀.authority
  path : ∃ seg, url.path = before ++ seg :: after ∧ decoder.percentDecode (Utf8.encode seg) = Utf8.encode value
  query : url.query = url₀.query
  fragment : url.fragment = url₀.fragment

namespace Template

variable {P} (t : Template P)

def text : Str := t.pre ++ (placeholder ++ t.post)

theorem buildEnrichUrl_text (value : Str) :
    buildEnrichUrl E t.text value = t.pre ++ (E.utf8PercentEncode value URL_VALUE_ENCODE ++ t.post) := by
  have hbrace : '\x7b' ∉ "value\x7d".toList := by decide
  have hreplace : buildEnrichUrl E t.text value =
      t.pre ++ (E.utf8PercentEncode value URL_VALUE_ENCODE ++ buildEnrichUrl E t.post value) :=
    replace_append hbrace t.pre_once t.post
  have hpost : buildEnrichUrl E t.post value = t.post := replace_of_not_infix t.post_once
  rw [hreplace, hpost]

/-- The segments before the placeholder, and after it. -/
def before : List Str := (t.slot.before.map (percentEncode P.pathSet)).foldl push []

def after : List Str := resolve [] (t.slot.after.map (percentEncode P.pathSet))

theorem isOpaque_placeholder : ∀ c ∈ placeholder, isOpaque c = true := by decide

theorem resolve_placeholder (P : Parser A) (t : Template P) :
    resolve [] (t.slot.before.map (percentEncode P.pathSet) ++
      percentEncode P.pathSet placeholder :: t.slot.after.map (percentEncode P.pathSet)) =
        t.before ++ percentEncode P.pathSet placeholder :: t.after := by
  apply resolve_segment ?_ t.stays
  intro hdot
  have hno : '%' ∉ placeholder := by decide
  obtain h | h := eq_of_dot (fun hp => absurd hp hno) hdot
  · exact absurd h (by decide)
  · exact absurd h (by decide)

/-- **When a value is confined to its segment**, whatever decodes it: exactly if it is not a
dot segment itself. -/
theorem confined_iff (decoder : PercentDecoder) {url₀ : Url A} (h : P.parse t.text = some url₀) :
    ∃ before after, url₀.path = before ++ percentEncode P.pathSet placeholder :: after ∧
      ∀ value, ∃ url, P.parse (buildEnrichUrl E t.text value) = some url ∧
        (Confined decoder url₀ before after value url ↔ value ≠ ".".toList ∧ value ≠ "..".toList) := by
  rw [text, t.slot.parse_slot P isOpaque_placeholder, resolve_placeholder] at h
  obtain ⟨authority, hauthority, rfl⟩ := Option.map_eq_some_iff.mp h
  refine ⟨t.before, t.after, rfl, ?_⟩
  intro value
  rw [buildEnrichUrl_text, t.slot.parse_slot P (fun c hc => isOpaque_value E hc), hauthority, Option.map_some]
  refine ⟨_, rfl, ?_⟩
  by_cases hdot : DoubleDot (valueSegment P E value) ∨ SingleDot (valueSegment P E value)
  · have hvalue := (dot_valueSegment_iff P E value).mp hdot
    refine iff_of_false ?_ (by tauto)
    intro hconfined
    obtain ⟨seg, hpath, hdecode⟩ := hconfined.path
    have hne : seg ≠ [] := by
      rintro rfl
      rw [Utf8.encode_nil, decoder.nil] at hdecode
      obtain rfl | rfl := hvalue
      · exact absurd hdecode (by decide)
      · exact absurd hdecode (by decide)
    exact resolve_dot_ne hdot t.stays hne hpath
  · have hvalue := mt (dot_valueSegment_iff P E value).mpr hdot
    refine iff_of_true ?_ (by tauto)
    exact {
      scheme := rfl
      authority := rfl
      path := ⟨valueSegment P E value, resolve_segment hdot t.stays,
        percentDecode_encodes decoder (encodes_valueSegment P E value)⟩
      query := rfl
      fragment := rfl }

/-- `https://catalog.internal/tenants/{value}/labels` -/
def labels : Template Parser.standard where
  pre := "https://catalog.internal/tenants/".toList
  post := "/labels".toList
  pre_once := by decide
  post_once := by decide
  slot := {
    parts := ⟨.https, "catalog.internal".toList, "/tenants/".toList, none, none⟩
    cut_eq := by decide
    path := rfl
    query := rfl
    fragment := rfl
    post := rfl }
  stays := trivial

theorem confined_labels : ∃ url₀, Parser.standard.parse labels.text = some url₀ ∧
    ∃ before after, url₀.path = before ++ percentEncode Parser.standard.pathSet placeholder :: after ∧
      ∀ value, ∃ url, Parser.standard.parse (buildEnrichUrl .standard labels.text value) = some url ∧
        (Confined .standard url₀ before after value url ↔ value ≠ ".".toList ∧ value ≠ "..".toList) := by
  have hparse : Parser.standard.parse labels.text = some ⟨.https, "catalog.internal".toList,
      ["tenants".toList, "%7Bvalue%7D".toList, "labels".toList], none, none⟩ := by decide
  exact ⟨_, hparse, confined_iff .standard labels .standard hparse⟩

/-- Two dots take away the segment before as well. -/
theorem dots_traverse : ∃ url₀ url, Parser.standard.parse labels.text = some url₀ ∧
    Parser.standard.parse (buildEnrichUrl .standard labels.text "..".toList) = some url ∧
      url₀.path.length = 3 ∧ url.path = ["labels".toList] := by
  refine ⟨⟨.https, "catalog.internal".toList, ["tenants".toList, "%7Bvalue%7D".toList, "labels".toList], none, none⟩,
    ⟨.https, "catalog.internal".toList, ["labels".toList], none, none⟩, ?_, ?_, rfl, rfl⟩
  · decide
  · decide

end Template

end PurpleWolf.Relay
