import PurpleWolf.Core.Signatures

/-! # The query string under inspection

`parse_query` decodes a name and a value for every part of the query, but the iterator over
the inspected fields hands out the values only.  `queryInspected_iff` says for which
requests nothing escapes: those where every decoded name is repeated in something else that
is inspected.

A part without `=` has its whole text as its name and the empty text as its value. -/

namespace PurpleWolf

open Text Signatures

/-! ### Parts of a query -/

/-- The non-empty parts of a query string. -/
def queryParts (raw : Str) : List Str := (raw.splitOn '&').filter (fun p => !p.isEmpty)

/-- The decoded name of a part; the whole part when there is no `=`. -/
def partName (P : PercentDecoder) (part : Str) : Str :=
  decode P (((splitOnce '=' part).map Prod.fst).getD part)

/-- The decoded value of a part. -/
def partValue (P : PercentDecoder) (part : Str) : Str :=
  ((splitOnce '=' part).map (fun (_, v) => decode P v)).getD []

theorem parseQuery_eq (P : PercentDecoder) (raw : Str) :
    parseQuery P raw = (queryParts raw).map (fun p => (partName P p, partValue P p)) := by
  unfold parseQuery queryParts partName partValue
  apply List.map_congr_left
  intro p _
  cases splitOnce '=' p <;> rfl

/-! ### What is shown -/

/-- The text stands somewhere in the field. -/
def StandsIn (text : Str) (field : Bytes) : Prop := Utf8.encode text <:+: field

theorem standsIn_self (text : Str) : StandsIn text (Utf8.encode text) := List.infix_rfl

theorem StandsIn.occursIn {text : Str} {field : Bytes} {i : Fin patterns.length} (h : StandsIn text field)
    (hocc : OccursIn i (Utf8.encode text)) : OccursIn i field := by
  unfold OccursIn folded at hocc ⊢
  exact hocc.trans (h.map _)

/-- Every decoded component of the query is inspected. -/
structure QueryInspected (P : PercentDecoder) (A : AhoCorasick patterns) (rawQuery : Str) (req : Request) :
    Prop where
  names : ∀ part ∈ queryParts rawQuery, ∃ field ∈ req.inspectableFields, StandsIn (partName P part) field
  values : ∀ part ∈ queryParts rawQuery, ∃ field ∈ req.inspectableFields, StandsIn (partValue P part) field
  /-- A literal in some component is not overlooked. -/
  caught : ∀ part ∈ queryParts rawQuery, ∀ i,
    OccursIn i (Utf8.encode (partName P part)) ∨ OccursIn i (Utf8.encode (partValue P part)) →
      Signatures.inspect A req ≠ []

/-- A text is repeated in the decoded path, a decoded query value, the body when it was
read, or an allow-listed header, raw or decoded. -/
def Repeated (P : PercentDecoder) (path rawQuery : Str) (headers : Headers) (body : Bytes)
    (bodyInspected : Bool) (text : Str) : Prop :=
  StandsIn text (Utf8.encode (decode P path)) ∨
    (∃ part ∈ queryParts rawQuery, StandsIn text (Utf8.encode (partValue P part))) ∨
    (bodyInspected = true ∧ StandsIn text body) ∨
    ∃ h ∈ headers, isInspectable (toAsciiLowercase h.1) = true ∧
      (StandsIn text (Utf8.encode h.2) ∨ StandsIn text (Utf8.encode (decode P h.2)))

section Built

variable (P : PercentDecoder) (A : AhoCorasick patterns) (method host path rawQuery : Str) (headers : Headers)
  (body : Bytes) (bodyInspected : Bool) (sourceIp : IpAddr) (truncated : Bool)

theorem exists_mem_buildInspectableHeaders (p : Bytes → Prop) :
    (∃ field ∈ buildInspectableHeaders P (headers.map (fun (k, v) => (toAsciiLowercase k, v))), p field) ↔
      ∃ h ∈ headers, isInspectable (toAsciiLowercase h.1) = true ∧
        (p (Utf8.encode h.2) ∨ p (Utf8.encode (decode P h.2))) := by
  unfold buildInspectableHeaders
  constructor
  · rintro ⟨field, hfield, hp⟩
    obtain ⟨h', hh', hfield⟩ := List.mem_flatMap.mp hfield
    obtain ⟨h, hh, rfl⟩ := List.mem_map.mp hh'
    simp only at hfield
    split_ifs at hfield with hins hpercent hdiff
    · rw [List.mem_cons, List.mem_singleton] at hfield
      rcases hfield with rfl | rfl
      · exact ⟨h, hh, hins, Or.inl hp⟩
      · exact ⟨h, hh, hins, Or.inr hp⟩
    · rw [List.mem_singleton] at hfield
      exact ⟨h, hh, hins, Or.inl (hfield ▸ hp)⟩
    · rw [List.mem_singleton] at hfield
      exact ⟨h, hh, hins, Or.inl (hfield ▸ hp)⟩
    · exact absurd hfield List.not_mem_nil
  · rintro ⟨h, hh, hins, hp⟩
    have hmem : (toAsciiLowercase h.1, h.2) ∈ headers.map (fun (k, v) => (toAsciiLowercase k, v)) :=
      List.mem_map.mpr ⟨h, hh, rfl⟩
    by_cases hextra : '%' ∈ h.2 ∧ decode P h.2 ≠ h.2
    · rcases hp with hp | hp
      · refine ⟨_, List.mem_flatMap.mpr ⟨_, hmem, ?_⟩, hp⟩
        simp only [hins, if_true, List.mem_cons, true_or]
      · refine ⟨_, List.mem_flatMap.mpr ⟨_, hmem, ?_⟩, hp⟩
        simp only [hins, if_true, if_pos hextra.1, if_pos hextra.2, List.mem_cons, true_or, or_true]
    · have hsame : decode P h.2 = h.2 := by
        by_contra hne
        exact hne (decode_of_not_mem P (fun hc => hextra ⟨hc, hne⟩))
      rw [hsame, or_self] at hp
      refine ⟨_, List.mem_flatMap.mpr ⟨_, hmem, ?_⟩, hp⟩
      simp only [hins, if_true, List.mem_cons, true_or]

theorem exists_standsIn_iff (text : Str) :
    (∃ field ∈ ((Request.build P method host path rawQuery headers body bodyInspected
        sourceIp).withTruncatedBody truncated).inspectableFields, StandsIn text field) ↔
      Repeated P path rawQuery headers body bodyInspected text := by
  unfold Repeated
  rw [← exists_mem_buildInspectableHeaders P headers (StandsIn text), Request.inspectableFields_eq]
  show (∃ field ∈ Utf8.encode (decode P path) :: (parseQuery P rawQuery).map (fun p => Utf8.encode p.2) ++
    ((if bodyInspected then [body] else []) ++ buildInspectableHeaders P _), _) ↔ _
  have hbody : (∃ field ∈ (if bodyInspected then [body] else []), StandsIn text field) ↔
      bodyInspected = true ∧ StandsIn text body := by
    cases bodyInspected <;> simp
  rw [← hbody, parseQuery_eq]
  simp only [List.cons_append, List.mem_cons, List.mem_append, List.map_map, List.mem_map, or_and_right,
    exists_or, exists_eq_left, exists_exists_and_eq_and, Function.comp]

/-- **When the whole query is inspected**: exactly when every decoded name is repeated in
something that is inspected besides the names. -/
theorem queryInspected_iff :
    QueryInspected P A rawQuery ((Request.build P method host path rawQuery headers body bodyInspected
        sourceIp).withTruncatedBody truncated) ↔
      ∀ part ∈ queryParts rawQuery,
        Repeated P path rawQuery headers body bodyInspected (partName P part) := by
  have hstands := exists_standsIn_iff P method host path rawQuery headers body bodyInspected sourceIp truncated
  constructor
  · intro h part hpart
    exact (hstands _).mp (h.names part hpart)
  · intro h
    have hnames := fun part hpart => (hstands _).mpr (h part hpart)
    have hvalues := fun part (hpart : part ∈ queryParts rawQuery) =>
      (hstands (partValue P part)).mpr (Or.inr (Or.inl ⟨part, hpart, standsIn_self _⟩))
    constructor
    · exact hnames
    · exact hvalues
    · intro part hpart i hocc
      rcases hocc with hocc | hocc
      · obtain ⟨field, hfield, hin⟩ := hnames part hpart
        exact inspect_ne_nil A hfield (hin.occursIn hocc)
      · obtain ⟨field, hfield, hin⟩ := hvalues part hpart
        exact inspect_ne_nil A hfield (hin.occursIn hocc)

end Built

/-- A request with `../etc/passwd` as a parameter without `=`. -/
def bareTraversal : Request :=
  (Request.build PercentDecoder.standard "GET".toList "h".toList "/files".toList "..%2Fetc%2Fpasswd".toList [] []
    false (.v4 (Vector.replicate 4 1))).withTruncatedBody false

/-- It carries a signature literal, and the detector reports nothing. -/
theorem bareTraversal_escapes :
    Signatures.inspect (AhoCorasick.standard patterns patterns_ne_nil) bareTraversal = [] ∧
      ¬ QueryInspected PercentDecoder.standard (AhoCorasick.standard patterns patterns_ne_nil)
        "..%2Fetc%2Fpasswd".toList bareTraversal := by
  have hnone : Signatures.inspect (AhoCorasick.standard patterns patterns_ne_nil) bareTraversal = [] := by
    decide +kernel
  refine ⟨hnone, ?_⟩
  intro h
  have hocc : OccursIn ⟨0, by decide⟩
      (Utf8.encode (partName PercentDecoder.standard "..%2Fetc%2Fpasswd".toList)) := by decide +kernel
  exact h.caught _ (by decide +kernel) _ (Or.inl hocc) hnone

end PurpleWolf
