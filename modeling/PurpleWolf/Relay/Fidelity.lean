import PurpleWolf.Core.Audit
import PurpleWolf.Relay.JsonScan
import PurpleWolf.Relay.Pipeline

/-! # From the plugin's audit entry to the relay's envelope

The plugin writes an audit entry with `to_log_line`, Traefik decorates the line, and the
relay reads it back with `parse_line` and `process_one`.  `audit_line_relayed` says that
the event arrives as it was written, for any attacker-controlled text in it. -/

namespace PurpleWolf.Relay

open Json AuditEntry

/-! ### Decorated lines -/

/-- What may stand in front of the object: text without a brace or an escape, and complete
colour sequences. -/
inductive LogPiece where
  | text (s : Str) (noBrace : '\x7b' ∉ s) (noEscape : '\x1b' ∉ s)
  | sgr (params : Str) (digits : ∀ c ∈ params, c.isDigit ∨ c = ';')

namespace LogPiece

def render : LogPiece → Str
  | text s _ _ => s
  | sgr params _ => '\x1b' :: '[' :: params ++ ['m']

/-- What is left of a piece after stripping. -/
def plain : LogPiece → Str
  | text s _ _ => s
  | sgr _ _ => []

theorem noBrace_plain (p : LogPiece) : '\x7b' ∉ p.plain := by
  cases p with
  | text s noBrace _ => exact noBrace
  | sgr params _ => exact List.not_mem_nil

theorem isAlpha_of_isDigit {c : Char} (h : c.isDigit) : c.isAlpha = false := by
  have hdigit : c.val ≤ 57 := by
    change (decide (48 ≤ c.val) && decide (c.val ≤ 57)) = true at h
    rw [Bool.and_eq_true, decide_eq_true_eq, decide_eq_true_eq] at h
    exact h.2
  have hle : c.val.toNat ≤ 57 := UInt32.le_iff_toNat_le.mp hdigit
  rw [Bool.eq_false_iff]
  intro ha
  change (decide (65 ≤ c.val ∧ c.val ≤ 90) || (decide (97 ≤ c.val) && decide (c.val ≤ 122))) = true at ha
  rw [Bool.or_eq_true, Bool.and_eq_true, decide_eq_true_eq, decide_eq_true_eq] at ha
  rcases ha with ⟨hge, -⟩ | ⟨hge, -⟩
  · have : 65 ≤ c.val.toNat := UInt32.le_iff_toNat_le.mp hge
    omega
  · have : 97 ≤ c.val.toNat := UInt32.le_iff_toNat_le.mp hge
    omega

theorem strip_params {params : Str} (h : ∀ c ∈ params, c.isDigit ∨ c = ';') (t : Str) :
    stripAnsiFrom .body (params ++ 'm' :: t) = stripAnsiFrom .text t := by
  induction params with
  | nil => rfl
  | cons c params ih =>
      have hc : c.isAlpha = false := by
        rcases h c (by simp) with hd | rfl
        · exact isAlpha_of_isDigit hd
        · decide
      rw [List.cons_append, stripAnsiFrom, hc]
      exact ih (fun x hx => h x (by simp [hx]))

theorem strip_render (p : LogPiece) (t : Str) :
    stripAnsiFrom .text (p.render ++ t) = p.plain ++ stripAnsiFrom .text t := by
  cases p with
  | text s _ noEscape =>
      unfold render plain
      rw [stripAnsiFrom_append, stripAnsiFrom_text_eq noEscape, ansiAfter_text_eq noEscape]
  | sgr params digits =>
      unfold render plain
      simp only [List.cons_append, List.append_assoc, List.nil_append]
      rw [stripAnsiFrom, if_pos rfl, stripAnsiFrom, if_pos rfl, strip_params digits]

end LogPiece

/-- The text in front of the object. -/
def decoration (pieces : List LogPiece) : Str := pieces.flatMap LogPiece.render

theorem strip_decoration (pieces : List LogPiece) (t : Str) :
    stripAnsiFrom .text (decoration pieces ++ t) =
      pieces.flatMap LogPiece.plain ++ stripAnsiFrom .text t := by
  induction pieces with
  | nil => rfl
  | cons p pieces ih =>
      unfold decoration at ih ⊢
      rw [List.flatMap_cons, List.flatMap_cons, List.append_assoc, LogPiece.strip_render, ih,
        List.append_assoc]

/-! ### The line -/

variable (S : Json.Codec)

theorem toLogLine_printable (e : AuditEntry) : Printable (e.toLogLine S) := printable_compact S.toEscaper _

theorem toLogLine_noEscape (e : AuditEntry) : '\x1b' ∉ e.toLogLine S := by
  intro h
  exact absurd (toLogLine_printable S e _ h) (by decide)

theorem le_of_mem_toLogLine (e : AuditEntry) : ∀ b ∈ Utf8.encode (e.toLogLine S), 0x20 ≤ b.toNat := by
  intro b hb
  obtain ⟨c, hc, hbc⟩ := Utf8.mem_encode.mp hb
  have hprint := toLogLine_printable S e c hc
  by_cases hlt : b.toNat < 0x80
  · obtain ⟨-, hn⟩ := Utf8.ascii_of_mem_encodeChar hbc hlt
    omega
  · omega

/-- The line is stripped as a whole, the text around it on its own. -/
theorem stripAnsi_line (pieces : List LogPiece) (e : AuditEntry) (suffix : Str) :
    stripAnsi (decoration pieces ++ e.toLogLine S ++ suffix) =
      pieces.flatMap LogPiece.plain ++ e.toLogLine S ++ stripAnsiFrom .text suffix := by
  have hline := toLogLine_noEscape S e
  rw [stripAnsi_eq, List.append_assoc, strip_decoration, stripAnsiFrom_append,
    stripAnsiFrom_text_eq hline, ansiAfter_text_eq hline, List.append_assoc]

theorem sliceInclusive_middle (before middle after : Str) (h : middle ≠ []) :
    sliceInclusive (before ++ middle ++ after) (Utf8.encode before).length
      ((Utf8.encode before).length + (Utf8.encode middle).length - 1) = middle := by
  have hpos : 0 < (Utf8.encode middle).length := by
    cases middle with
    | nil => exact absurd rfl h
    | cons c s =>
        rw [Utf8.encode_cons, List.length_append]
        have : 0 < (String.utf8EncodeChar c).length := by simp [Char.utf8Size_pos]
        omega
  unfold sliceInclusive
  rw [Nat.sub_add_cancel (by omega), Utf8.encode_append, Utf8.encode_append,
    ← List.length_append, List.take_left, List.drop_left, Utf8.decodeLossy_encode]

theorem hasSignature_toJson (e : AuditEntry) : hasSignature e.toJson = true := by
  have hrules : e.toJson.get "would_block_rules".toList = some (.arr (e.wouldBlockRules.map .str)) := rfl
  have haction : e.toJson.get "action".toList = some (.str e.action) := rfl
  unfold hasSignature
  rw [hrules, haction]
  rcases e.action_known with ha | ha <;> rw [ha] <;> rfl

theorem compact_obj_mem (members : List (Str × Json)) :
    '\x7b' ∈ (Json.obj members).compact S.toEscaper := by
  unfold compact
  simp

/-- **The relay parses the line back** to the event that was written. -/
theorem parseLine_toLogLine (pieces : List LogPiece) (e : AuditEntry) (suffix : Str) :
    ∃ p, parseLine S (Utf8.encode (decoration pieces ++ e.toLogLine S ++ suffix)) = .ok p ∧
      p.event = e.toJson := by
  have hmem : '\x7b' ∈ e.toLogLine S := compact_obj_mem S _
  have hbrace : (0x7B : UInt8) ∈ Utf8.encode (decoration pieces ++ e.toLogLine S ++ suffix) :=
    Utf8.mem_encode.mpr ⟨'\x7b', by simp [hmem], by decide⟩
  have hplain : '\x7b' ∉ pieces.flatMap LogPiece.plain := by
    intro h
    obtain ⟨p, -, hp⟩ := List.mem_flatMap.mp h
    exact p.noBrace_plain hp
  have hfind : findJsonObject (Utf8.encode (pieces.flatMap LogPiece.plain ++ e.toLogLine S ++
      stripAnsiFrom .text suffix)) = some ((Utf8.encode (pieces.flatMap LogPiece.plain)).length,
        (Utf8.encode (pieces.flatMap LogPiece.plain)).length +
          (Utf8.encode (e.toLogLine S)).length - 1) :=
    findJsonObject_compact S.toEscaper _ (stripAnsiFrom .text suffix) _ hplain
  have hslice := sliceInclusive_middle (pieces.flatMap LogPiece.plain) (e.toLogLine S)
    (stripAnsiFrom .text suffix) (List.ne_nil_of_mem hmem)
  have hread : S.fromStr (e.toLogLine S) = some e.toJson := S.fromStr_compact _ (e.toJson_wellFormed _)
  unfold parseLine parseLineWith
  rw [Utf8.decode?_encode]
  simp only
  rw [if_neg (not_not.mpr hbrace), stripAnsi_line, hfind]
  simp only
  rw [hslice, hread]
  simp only
  rw [if_pos (hasSignature_toJson e)]
  exact ⟨_, rfl, rfl⟩

/-! ### The envelope -/

theorem collectStrings_notMem {k : Str} : ∀ (es : List (Sigma fun _ : Str => Str)) (out : Labels),
    k ∉ es.keys → (collectStrings (es.map fun e => (e.1, .str e.2)) out).lookup k = out.lookup k
  | [], _, _ => rfl
  | e :: es, out, h => by
      rw [List.keys_cons, List.mem_cons, not_or] at h
      rw [List.map_cons, collectStrings, collectStrings_notMem es _ h.2, AList.lookup_insert_ne h.1]

theorem lookup_collectStrings {k v : Str} : ∀ (es : List (Sigma fun _ : Str => Str)) (out : Labels),
    es.NodupKeys → ⟨k, v⟩ ∈ es →
    (collectStrings (es.map fun e => (e.1, .str e.2)) out).lookup k = some v
  | [], _, _, h => absurd h List.not_mem_nil
  | e :: es, out, hnd, h => by
      obtain ⟨hk, hnd⟩ := List.nodupKeys_cons.mp hnd
      rw [List.map_cons, collectStrings]
      rcases List.mem_cons.mp h with rfl | h
      · rw [collectStrings_notMem es _ hk, AList.lookup_insert]
      · exact lookup_collectStrings es _ hnd h

theorem get_labels (e : AuditEntry) (h : e.labels.entries ≠ []) :
    e.toJson.get "labels".toList = some (labelsJson e.labels) := by
  have hne : e.labels.entries.isEmpty = false := by simpa using h
  unfold toJson Json.get
  rw [hne]
  cases e.bodyTruncated <;> rfl

theorem lookup_takeLabels (e : AuditEntry) {k v : Str} (h : e.labels.lookup k = some v) :
    (takeLabels e.toJson).2.lookup k = some v := by
  have hmem : ⟨k, v⟩ ∈ e.labels.entries := AList.mem_lookup_iff.mp h
  unfold takeLabels
  rw [get_labels e (List.ne_nil_of_mem hmem)]
  exact lookup_collectStrings _ _ e.labels.nodupKeys hmem

/-- **An audit entry reaches the relay unchanged.**  Its log line is one line; whatever
stands around it, the relay reads the event back, and after any enrichment the envelope
carries the event without its labels and every label of the entry. -/
theorem audit_line_relayed (e : AuditEntry) (pieces : List LogPiece) (suffix : Str) :
    (∀ b ∈ Utf8.encode (e.toLogLine S), 0x20 ≤ b.toNat) ∧
      ∃ p, parseLine S (Utf8.encode (decoration pieces ++ e.toLogLine S ++ suffix)) = .ok p ∧
        p.event = e.toJson ∧
        ∀ (chain : List (Enricher × HttpOutcome)) (instanceId id : Str) (now : ℕ),
          ∃ envelope, processOne S chain instanceId id now
              (Utf8.encode (decoration pieces ++ e.toLogLine S ++ suffix)) = some envelope ∧
            envelope.event = e.toJson.erase "labels".toList ∧
            ∀ k v, e.labels.lookup k = some v → envelope.labels.lookup k = some v := by
  refine ⟨le_of_mem_toLogLine S e, ?_⟩
  obtain ⟨p, hp, hevent⟩ := parseLine_toLogLine S pieces e suffix
  refine ⟨p, hp, hevent, ?_⟩
  intro chain instanceId id now
  unfold processOne
  rw [hp]
  simp only
  rw [hevent]
  refine ⟨_, rfl, rfl, ?_⟩
  intro k v h
  exact lookup_enrichAll chain (lookup_takeLabels e h)

end PurpleWolf.Relay
