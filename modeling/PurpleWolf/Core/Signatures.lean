import PurpleWolf.Core.Detectors
import PurpleWolf.Lib.EarliestScan

/-! # The signature detector (`detectors/signatures.rs`)

The detector searches every inspected field for a table of literals, ignoring ASCII case,
and reports each table entry at most once.

The search is done by the `aho_corasick` crate, which is not part of the repository.
`AhoCorasick` is a matcher together with its documented behaviour, the standard
non-overlapping search of `EarliestScan`, and the model takes it as a parameter.

Because the search is non-overlapping, a literal can be hidden by another one that
overlaps it.  `inspect_perm_iff` says for which requests that never matters. -/

namespace PurpleWolf

open Text EarliestScan

/-- One table entry. -/
structure Signature where
  literal : Str
  rule : Str
  severity : Severity

namespace Signatures

def SIGNATURES : List Signature := [
  ⟨"../".toList, "path_traversal".toList, .high⟩,
  ⟨"..\\".toList, "path_traversal".toList, .high⟩,
  ⟨"/etc/passwd".toList, "lfi".toList, .critical⟩,
  ⟨"/etc/shadow".toList, "lfi".toList, .critical⟩,
  ⟨"/proc/self/environ".toList, "lfi".toList, .critical⟩,
  ⟨"/web-inf/".toList, "lfi".toList, .high⟩,
  ⟨"$(".toList, "rce_subshell".toList, .critical⟩,
  ⟨"`".toList, "rce_backtick".toList, .high⟩,
  ⟨"/bin/sh".toList, "rce_shell".toList, .critical⟩,
  ⟨";wget".toList, "rce_cmd".toList, .critical⟩,
  ⟨";curl".toList, "rce_cmd".toList, .critical⟩,
  ⟨";bash".toList, "rce_cmd".toList, .critical⟩,
  ⟨";nc ".toList, "rce_cmd".toList, .critical⟩,
  ⟨"|bash".toList, "rce_cmd".toList, .critical⟩,
  ⟨"|sh ".toList, "rce_cmd".toList, .critical⟩,
  ⟨"$\x7bjndi:".toList, "jndi_lookup".toList, .critical⟩,
  ⟨"php://".toList, "php_wrapper".toList, .high⟩,
  ⟨"phar://".toList, "php_wrapper".toList, .high⟩,
  ⟨"expect://".toList, "php_wrapper".toList, .critical⟩,
  ⟨"xp_cmdshell".toList, "rce_sql".toList, .critical⟩,
  ⟨"sqlmap".toList, "scanner_ua".toList, .medium⟩,
  ⟨"nikto".toList, "scanner_ua".toList, .medium⟩,
  ⟨"nuclei".toList, "scanner_ua".toList, .medium⟩]

/-! ### The matcher -/

/-- Bytes up to ASCII case. -/
def folded (bs : Bytes) : Bytes := bs.map byteToAsciiLowercase

/-- The literals of the table, as the matcher compares them. -/
def patterns : List Bytes := SIGNATURES.map (fun s => folded (Utf8.encode s.literal))

/-- `aho_corasick::AhoCorasick`, built for `pats` with `ascii_case_insensitive(true)`. -/
structure AhoCorasick (pats : List Bytes) where
  findIter : Bytes → List (Match pats.length)
  earliest : ∀ field, Scan pats (folded field) 0 (findIter field)

/-- The search computed position by position. -/
def AhoCorasick.standard (pats : List Bytes) (hne : ∀ p ∈ pats, p ≠ []) : AhoCorasick pats where
  findIter field := scan pats (folded field)
  earliest _ := scan_scans hne

/-! ### The detector -/

/-- The table entry a pattern index stands for. -/
def entry (i : Fin patterns.length) : Signature := SIGNATURES.get (i.cast (by simp [patterns]))

def verdict (s : Signature) : Verdict where
  group := .signatures
  rule := s.rule
  severity := s.severity
  detail := "matched signature `".toList ++ s.literal ++ "`".toList

/-- The loop over the matches: a pattern already `matched` is skipped. -/
def report {n : ℕ} : (Fin n → Bool) → List (Match n) → List (Fin n)
  | _, [] => []
  | matched, m :: ms =>
      if matched m.pattern then report matched ms
      else m.pattern :: report (Function.update matched m.pattern true) ms

/-- The entries reported for a request, in the order of discovery. -/
def reported (A : AhoCorasick patterns) (req : Request) : List (Fin patterns.length) :=
  report (fun _ => false) (req.inspectableFields.flatMap A.findIter)

/-- `SignatureDetector::inspect`. -/
def inspect (A : AhoCorasick patterns) (req : Request) : List Verdict :=
  (reported A req).map (fun i => verdict (entry i))

def detector {Env : Type} (A : AhoCorasick patterns) : Detector Env where
  group := .signatures
  inspect req env := (inspect A req, env)

theorem group_of_mem {A : AhoCorasick patterns} {req : Request} {v : Verdict} (h : v ∈ inspect A req) :
    v.group = .signatures := by
  obtain ⟨i, -, rfl⟩ := List.mem_map.mp h
  rfl

theorem report_spec {n : ℕ} (ms : List (Match n)) : ∀ matched : Fin n → Bool,
    (report matched ms).Nodup ∧
      ∀ i, i ∈ report matched ms ↔ matched i = false ∧ ∃ m ∈ ms, m.pattern = i := by
  induction ms with
  | nil => simp [report]
  | cons m ms ih =>
      intro matched
      unfold report
      split_ifs with hm
      · obtain ⟨hnd, hmem⟩ := ih matched
        refine ⟨hnd, ?_⟩
        intro i
        rw [hmem]
        simp only [List.mem_cons, exists_eq_or_imp]
        refine and_congr_right fun hi => ?_
        have hne : m.pattern ≠ i := fun e => by rw [e, hi] at hm; cases hm
        simp [hne]
      · obtain ⟨hnd, hmem⟩ := ih (Function.update matched m.pattern true)
        refine ⟨List.nodup_cons.mpr ⟨by simp [hmem], hnd⟩, ?_⟩
        intro i
        rw [List.mem_cons, hmem]
        by_cases hi : i = m.pattern
        · subst hi
          simp [Bool.eq_false_iff.mpr hm]
        · rw [Function.update_of_ne hi]
          simp [hi, Ne.symm hi]

/-! ### The table -/

theorem patterns_ne_nil : ∀ p ∈ patterns, p ≠ [] := by decide

/-- No literal is a suffix of another, so occurrences never tie. -/
theorem patterns_suffix : ∀ i j : Fin patterns.length, patterns[i] <:+ patterns[j] → i = j := by
  decide +kernel

theorem literals_nodup : (SIGNATURES.map Signature.literal).Nodup := by decide

theorem length_patterns : patterns.length = SIGNATURES.length := List.length_map _

theorem verdict_entry_injective : Function.Injective (fun i => verdict (entry i)) := by
  intro i j h
  have hlit : (entry i).literal = (entry j).literal := by
    have := congrArg Verdict.detail h
    simpa [verdict] using this
  have hget : ∀ k : Fin patterns.length,
      (SIGNATURES.map Signature.literal).get (k.cast (by rw [length_patterns, List.length_map])) =
        (entry k).literal := by
    intro k
    simp [entry]
  have := List.nodup_iff_injective_get.mp literals_nodup (((hget i).trans hlit).trans (hget j).symm)
  exact Fin.ext (Fin.ext_iff.mp this)

/-! ### Completeness of the report -/

/-- The literal of entry `i` stands somewhere in a field. -/
def OccursIn (i : Fin patterns.length) (field : Bytes) : Prop := patterns[i] <:+: folded field

instance (i : Fin patterns.length) (field : Bytes) : Decidable (OccursIn i field) :=
  inferInstanceAs (Decidable (_ <:+: _))

/-- The literal of entry `i` stands somewhere in a field and is not cut there. -/
def VisibleIn (i : Fin patterns.length) (field : Bytes) : Prop :=
  ∃ m : Match patterns.length, m.pattern = i ∧ Visible patterns (folded field) m

/-- One verdict for every entry whose literal occurs in some inspected field. -/
def expected (req : Request) : List Verdict :=
  ((List.finRange patterns.length).filter (fun i => ∃ f ∈ req.inspectableFields, OccursIn i f)).map
    (fun i => verdict (entry i))

theorem VisibleIn.occursIn {i : Fin patterns.length} {field : Bytes} (h : VisibleIn i field) :
    OccursIn i field := by
  obtain ⟨m, rfl, hm⟩ := h
  unfold Visible at hm
  exact hm.1.stands.isInfix.trans (List.drop_suffix _ _).isInfix

theorem mem_reported (A : AhoCorasick patterns) (req : Request) (i : Fin patterns.length) :
    i ∈ reported A req ↔ ∃ f ∈ req.inspectableFields, VisibleIn i f := by
  unfold reported
  rw [(report_spec _ _).2 i]
  have hvis := fun f m => mem_iff_visible patterns_ne_nil patterns_suffix (A.earliest f) m
  constructor
  · rintro ⟨-, m, hm, rfl⟩
    obtain ⟨f, hf, hmf⟩ := List.mem_flatMap.mp hm
    exact ⟨f, hf, m, rfl, (hvis f m).mp hmf⟩
  · rintro ⟨f, hf, m, rfl, hm⟩
    exact ⟨rfl, m, List.mem_flatMap.mpr ⟨f, hf, (hvis f m).mpr hm⟩, rfl⟩

theorem OccursIn.occurs {i : Fin patterns.length} {field : Bytes} (h : OccursIn i field) :
    ∃ m : Match patterns.length, m.pattern = i ∧ Occurs patterns (folded field) m := by
  obtain ⟨before, after, h⟩ := h
  refine ⟨⟨i, before.length, before.length + patterns[i].length⟩, rfl, ?_, rfl⟩
  rw [← h, List.append_assoc, List.drop_left]
  exact List.prefix_append _ _

/-- A literal that occurs may be hidden by another one, but then that one is reported. -/
theorem inspect_ne_nil (A : AhoCorasick patterns) {req : Request} {field : Bytes}
    (hfield : field ∈ req.inspectableFields) {i : Fin patterns.length} (h : OccursIn i field) :
    inspect A req ≠ [] := by
  obtain ⟨m, rfl, hm⟩ := h.occurs
  have hfound : ∃ m', m' ∈ A.findIter field := by
    rcases (A.earliest field).complete patterns_suffix m hm (Nat.zero_le _) with hin | ⟨m', hin, -⟩
    · exact ⟨m, hin⟩
    · exact ⟨m', hin⟩
  obtain ⟨m', hin⟩ := hfound
  have hreported : m'.pattern ∈ reported A req := by
    unfold reported
    rw [(report_spec _ _).2]
    exact ⟨rfl, m', List.mem_flatMap.mpr ⟨field, hfield, hin⟩, rfl⟩
  unfold inspect
  rw [Ne, List.map_eq_nil_iff]
  exact List.ne_nil_of_mem hreported

/-- **When the report is complete.**  The verdicts are one for each entry whose literal
occurs, exactly when every literal that occurs is visible in some field. -/
theorem inspect_perm_iff (A : AhoCorasick patterns) (req : Request) :
    (inspect A req).Perm (expected req) ↔
      ∀ i, (∃ f ∈ req.inspectableFields, OccursIn i f) → ∃ f ∈ req.inspectableFields, VisibleIn i f := by
  have hnd : (reported A req).Nodup := (report_spec _ _).1
  have hnd' : ((List.finRange patterns.length).filter
      (fun i => ∃ f ∈ req.inspectableFields, OccursIn i f)).Nodup := (List.nodup_finRange _).filter _
  unfold inspect expected
  rw [List.map_perm_map_iff verdict_entry_injective, List.perm_ext_iff_of_nodup hnd hnd']
  refine forall_congr' fun i => ?_
  rw [mem_reported, List.mem_filter]
  simp only [List.mem_finRange, true_and, decide_eq_true_eq]
  constructor
  · exact fun h => h.mpr
  · intro h
    refine ⟨?_, h⟩
    rintro ⟨f, hf, hvis⟩
    exact ⟨f, hf, hvis.occursIn⟩

/-- A request whose query value reads `../etc/passwd`. -/
def traversalRequest : Request :=
  Request.build PercentDecoder.standard "GET".toList "h".toList "/files".toList "f=../etc/passwd".toList [] []
    false (.v4 #v[1, 2, 3, 4])

/-- The slash of `/etc/passwd` is spent on `../`: the critical entry is not reported. -/
theorem inspect_hides_lfi :
    ¬ (inspect (AhoCorasick.standard patterns patterns_ne_nil) traversalRequest).Perm
        (expected traversalRequest) ∧
      (inspect (AhoCorasick.standard patterns patterns_ne_nil) traversalRequest).map Verdict.rule =
        ["path_traversal".toList] ∧
      (expected traversalRequest).map Verdict.rule = ["path_traversal".toList, "lfi".toList] := by
  have hi : (inspect (AhoCorasick.standard patterns patterns_ne_nil) traversalRequest).map Verdict.rule =
      ["path_traversal".toList] := by decide +kernel
  have he : (expected traversalRequest).map Verdict.rule = ["path_traversal".toList, "lfi".toList] := by
    decide +kernel
  refine ⟨?_, hi, he⟩
  intro h
  have := (h.map Verdict.rule).length_eq
  rw [hi, he] at this
  cases this

end Signatures

end PurpleWolf
