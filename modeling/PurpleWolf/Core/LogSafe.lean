import PurpleWolf.Core.Audit
import PurpleWolf.Core.Injection
import PurpleWolf.Core.Reputation
import PurpleWolf.Core.Structural
import PurpleWolf.Core.Signatures
import PurpleWolf.Lib.IpDisplay

/-! # Details that are safe to log

The detail of a verdict goes into the audit log, so it should hold no ASCII control character
and be short whatever the request is: it is `LogSafe`.  The injection detector cuts and scrubs
what it quotes (`truncateBytes`); the structural detector quotes the method as it is.
`detailsSafe_iff` says for which requests all details are safe. -/

namespace PurpleWolf

open Text

/-! ### Safe text -/

def IsAsciiControl (c : Char) : Prop := c.toNat < 0x20 ∨ c = '\x7f'

instance (c : Char) : Decidable (IsAsciiControl c) := inferInstanceAs (Decidable (_ ∨ _))

/-- No control character, and at most `n` bytes. -/
structure LogSafe (n : ℕ) (s : Str) : Prop where
  printable : ∀ c ∈ s, ¬ IsAsciiControl c
  short : strLen s ≤ n

theorem length_le_strLen (s : Str) : s.length ≤ strLen s := by
  induction s with
  | nil => exact le_rfl
  | cons c s ih =>
      have hc := c.utf8Size_pos
      rw [strLen_cons, List.length_cons]
      omega

namespace LogSafe

variable {m n : ℕ} {s t : Str}

theorem mono (h : LogSafe m s) (hle : m ≤ n) : LogSafe n s := ⟨h.printable, h.short.trans hle⟩

theorem append (hs : LogSafe m s) (ht : LogSafe n t) : LogSafe (m + n) (s ++ t) where
  printable c hc := (List.mem_append.mp hc).elim (hs.printable c) (ht.printable c)
  short := by
    rw [strLen_append]
    exact Nat.add_le_add hs.short ht.short

theorem of_length (hprintable : ∀ c ∈ s, ¬ IsAsciiControl c) (hlength : s.length ≤ n) : LogSafe (4 * n) s :=
  ⟨hprintable, (strLen_le s).trans (Nat.mul_le_mul_left 4 hlength)⟩

theorem decimal {k : ℕ} (hk : 0 < k) (hn : n < 10 ^ k) : LogSafe (4 * k) (Text.decimal n) := by
  apply of_length
  · rintro c hc (hlt | rfl)
    · have hdigit := mem_decimal hc
      omega
    · exact absurd (mem_decimal hc).2 (by decide)
  · unfold Text.decimal
    rw [numeral_eq, List.length_map]
    exact length_shownDigits_le (by decide) hk hn

theorem display (ip : IpAddr) : LogSafe 168 ip.display := by
  have haddress : ∀ c, IpAddr.AddressChar c → ¬ IsAsciiControl c := by
    rintro c (hdigit | rfl | rfl)
    · have hlt := toNat_lt_of_toDigit hdigit
      revert hdigit
      exact forall_ascii (p := fun c => (toDigit 16 c).isSome → ¬ IsAsciiControl c) (by decide) c hlt
    · decide
    · decide
  apply of_length (n := 42)
  · intro c hc
    exact haddress c (IpAddr.addressChar_of_parse (IpAddr.parse_display ip) c hc)
  · exact IpAddr.length_display_le ip

/-- A preview of a field is safe, whatever the field holds. -/
theorem truncateBytes (field : Bytes) : LogSafe 320 (Injection.truncateBytes field) := by
  apply of_length (n := 80)
  · intro c hc
    unfold Injection.truncateBytes at hc
    obtain ⟨d, -, rfl⟩ := List.mem_map.mp hc
    split_ifs with hcontrol
    · decide
    · exact hcontrol
  · unfold Injection.truncateBytes
    rw [List.length_map]
    exact List.length_take_le 80 _

end LogSafe

/-! ### The detectors -/

/-- No detail needs to be longer than this. -/
def DETAIL_BOUND : ℕ := 347

theorem Injection.logSafe_of_mem {L : Libinjection} {req : Request} {v : Verdict} (h : v ∈ inspect L req) :
    LogSafe DETAIL_BOUND v.detail := by
  have hfound : ∀ place field, LogSafe 27 place → LogSafe DETAIL_BOUND (place ++ Injection.truncateBytes field) :=
    fun _ field hplace => hplace.append (LogSafe.truncateBytes field)
  have hsqli : LogSafe 27 "SQLi in field: ".toList := ⟨by decide, by decide⟩
  have hxss : LogSafe 27 "XSS in field: ".toList := ⟨by decide, by decide⟩
  have hsuffix : LogSafe 27 "SQLi in User-Agent suffix: ".toList := ⟨by decide, by decide⟩
  unfold inspect at h
  obtain h | h := List.mem_append.mp h
  · obtain ⟨field, -, h⟩ := List.mem_flatMap.mp h
    unfold inspectField at h
    obtain h | h := List.mem_append.mp h
    · split_ifs at h
      · rw [List.mem_singleton.mp h]
        exact hfound _ field hsqli
      · cases h
    · split_ifs at h
      · rw [List.mem_singleton.mp h]
        exact hfound _ field hxss
      · cases h
  · unfold probeUserAgent at h
    split_ifs at h
    · cases h
    · split at h
      · cases h
      · simp only at h
        split at h
        · cases h
        · rw [List.mem_singleton.mp h]
          exact hfound _ _ hsuffix

theorem Signatures.logSafe_of_mem {A : AhoCorasick patterns} {req : Request} {v : Verdict} (h : v ∈ inspect A req) :
    LogSafe DETAIL_BOUND v.detail := by
  have htable : ∀ s ∈ SIGNATURES, (∀ c ∈ s.literal, ¬ IsAsciiControl c) ∧ strLen s.literal ≤ 20 := by decide
  obtain ⟨i, -, rfl⟩ := List.mem_map.mp h
  obtain ⟨hprintable, hshort⟩ := htable (entry i) (List.get_mem _ _)
  have hbefore : LogSafe 19 "matched signature `".toList := ⟨by decide, by decide⟩
  have hafter : LogSafe 1 "`".toList := ⟨by decide, by decide⟩
  exact ((hbefore.append ⟨hprintable, hshort⟩).append hafter).mono (by decide)

theorem Reputation.logSafe_of_mem {T : Target} {denyList : DenyList} {req : Request} {env : Env T} {v : Verdict}
    (h : v ∈ (inspect denyList req env).1) : LogSafe DETAIL_BOUND v.detail := by
  have hbefore : LogSafe 10 "source IP ".toList := ⟨by decide, by decide⟩
  have hdenied : LogSafe 20 " on deny list".toList := ⟨by decide, by decide⟩
  have hlimited : LogSafe 20 " exceeded rate quota".toList := ⟨by decide, by decide⟩
  unfold inspect at h
  obtain h | h := List.mem_append.mp h
  · split_ifs at h
    · rw [List.mem_singleton.mp h]
      exact ((hbefore.append (LogSafe.display _)).append hdenied).mono (by decide)
    · cases h
  · split_ifs at h
    · cases h
    · rw [List.mem_singleton.mp h]
      exact ((hbefore.append (LogSafe.display _)).append hlimited).mono (by decide)

namespace Structural

/-- The method of the request may stand in a detail. -/
def MethodSafe (n : ℕ) (req : Request) : Prop :=
  req.method ∈ ALLOWED_METHODS ∨ (∀ c ∈ req.method, ¬ IsAsciiControl c) ∧ strLen req.method + 26 ≤ n

theorem logSafe_method_iff {n : ℕ} (method : Str) :
    LogSafe n ("method `".toList ++ method ++ "` not in allowlist".toList) ↔
      (∀ c ∈ method, ¬ IsAsciiControl c) ∧ strLen method + 26 ≤ n := by
  have hbefore : LogSafe 8 "method `".toList := ⟨by decide, by decide⟩
  have hafter : LogSafe 18 "` not in allowlist".toList := ⟨by decide, by decide⟩
  have hlength : strLen ("method `".toList ++ method ++ "` not in allowlist".toList) = strLen method + 26 := by
    have hbefore' : strLen "method `".toList = 8 := by decide
    have hafter' : strLen "` not in allowlist".toList = 18 := by decide
    rw [strLen_append, strLen_append, hbefore', hafter']
    omega
  constructor
  · intro h
    refine ⟨?_, hlength ▸ h.short⟩
    intro c hc
    exact h.printable c (List.mem_append_left _ (List.mem_append_right _ hc))
  · rintro ⟨hprintable, hshort⟩
    have hall := (hbefore.append ⟨hprintable, le_rfl⟩).append hafter
    exact ⟨hall.printable, hlength ▸ hshort⟩

theorem logSafe_methodNotAllowed_iff {n : ℕ} {req : Request} :
    (∀ v ∈ methodNotAllowed req, LogSafe n v.detail) ↔ MethodSafe n req := by
  unfold methodNotAllowed MethodSafe
  rw [← logSafe_method_iff]
  split_ifs with hallowed
  · exact iff_of_true nofun (Or.inl hallowed)
  · rw [List.forall_mem_singleton]
    exact (or_iff_right hallowed).symm

theorem logSafe_iff {n : ℕ} (hn : DETAIL_BOUND ≤ n) {req : Request} (hbytes : req.headerBytes < 2 ^ 64)
    (hcount : req.headers.length < 2 ^ 64) : (∀ v ∈ inspect req, LogSafe n v.detail) ↔ MethodSafe n req := by
  have hfixed : ∀ {p : Prop} [Decidable p] {rule detail : Str}, LogSafe DETAIL_BOUND detail →
      ∀ v ∈ (if p then [verdict rule detail] else []), LogSafe n v.detail := by
    intro p _ rule detail hdetail v hv
    split_ifs at hv
    · rw [List.mem_singleton.mp hv]
      exact hdetail.mono hn
    · cases hv
  have hnumber : ∀ {k : ℕ}, k < 2 ^ 64 → LogSafe 80 (decimal k) := by
    intro k hk
    exact LogSafe.decimal (k := 20) (by decide) (by omega)
  have hlarge : ∀ v ∈ headersTooLarge req, LogSafe n v.detail := by
    have hmiddle : LogSafe 22 " header bytes exceeds ".toList := ⟨by decide, by decide⟩
    exact hfixed ((((hnumber hbytes).append hmiddle).append (hnumber (by decide))).mono (by decide))
  have hmany : ∀ v ∈ tooManyHeaders req, LogSafe n v.detail := by
    have hmiddle : LogSafe 17 " headers exceeds ".toList := ⟨by decide, by decide⟩
    exact hfixed ((((hnumber hcount).append hmiddle).append (hnumber (by decide))).mono (by decide))
  have hcontrol : ∀ v ∈ controlBytes req, LogSafe n v.detail := by
    have hnul : LogSafe DETAIL_BOUND "NUL byte in request path or query".toList := ⟨by decide, by decide⟩
    have hcrlf : LogSafe DETAIL_BOUND "CR/LF in request path or query".toList := ⟨by decide, by decide⟩
    intro v hv
    unfold controlBytes at hv
    exact (List.mem_append.mp hv).elim (hfixed hnul v) (hfixed hcrlf v)
  unfold inspect
  rw [← logSafe_methodNotAllowed_iff]
  simp only [List.mem_append]
  constructor
  · intro h v hv
    exact h v (Or.inl (Or.inl (Or.inl hv)))
  · rintro h v (((hv | hv) | hv) | hv)
    · exact h v hv
    · exact hlarge v hv
    · exact hmany v hv
    · exact hcontrol v hv

end Structural

/-! ### All details -/

/-- The four detectors. -/
def builtins (T : Target) (L : Libinjection) (A : Signatures.AhoCorasick Signatures.patterns)
    (denyList : Reputation.DenyList) : List (Detector (Reputation.Env T)) :=
  [Injection.detector L, Signatures.detector A, Structural.detector, Reputation.detector denyList]

/-- All details on a request are safe, and so is the one that is audited. -/
structure DetailsSafe (n : ℕ) (req : Request) : Prop where
  detail : ∀ T L A denyList, ∀ d ∈ builtins T L A denyList, ∀ env, ∀ v ∈ (d.inspect req env).1, LogSafe n v.detail
  blockedDetail : ∀ T L A denyList enabled env global groupMode labels s,
    (AuditEntry.fromWithLabels req
      (Policy.decide (Engine.inspect ⟨builtins T L A denyList⟩ req enabled env).1 global groupMode)
      labels).blockedDetail =
        some s → LogSafe n s

theorem DetailsSafe.methodSafe {n : ℕ} {req : Request} (h : DetailsSafe n req) : Structural.MethodSafe n req := by
  have hdetail := h.detail .native64 ⟨fun _ => false, fun _ => false⟩
    (.standard Signatures.patterns Signatures.patterns_ne_nil) (.new []) Structural.detector
    (by simp [builtins]) ⟨.new 0 ⟨0, Nat.zero_le _⟩, 0⟩
  apply Structural.logSafe_methodNotAllowed_iff.mp
  intro v hv
  exact hdetail v (List.mem_append_left _ (List.mem_append_left _ (List.mem_append_left _ hv)))

/-- What an engine reports is what its detectors report. -/
theorem Engine.exists_of_mem_reports {Env : Type} {req : Request} {v : Verdict} :
    ∀ {ds : List (Detector Env)} {env : Env}, v ∈ (reports req ds env).1.flatMap Prod.snd →
      ∃ d ∈ ds, ∃ env', v ∈ (d.inspect req env').1
  | [], _, h => by cases h
  | d :: ds, env, h => by
      rw [reports, List.flatMap_cons] at h
      obtain h | h := List.mem_append.mp h
      · exact ⟨d, List.mem_cons_self, env, h⟩
      · obtain ⟨d', hd', hv⟩ := exists_of_mem_reports h
        exact ⟨d', List.mem_cons_of_mem d hd', hv⟩

theorem exists_of_blockedDetail {req : Request} {verdicts : List Verdict} {global : Mode}
    {groupMode : Group → GroupMode} {labels : Labels} {s : Str}
    (h : (AuditEntry.fromWithLabels req (Policy.decide verdicts global groupMode) labels).blockedDetail = some s) :
    ∃ v ∈ verdicts, v.detail = s := by
  obtain ⟨v, hv, hdetail⟩ := Option.map_eq_some_iff.mp h
  obtain ⟨before, after, hsplit, -⟩ := (Policy.decide_resolves global groupMode verdicts).worst v hv
  have henforced : v ∈ Policy.enforced global groupMode verdicts := by
    rw [hsplit]
    exact List.mem_append_right _ List.mem_cons_self
  exact ⟨v, (List.mem_filter.mp henforced).1, hdetail⟩

/-- **When the details are safe**: for a bound that is not too small, just if the method is
allowed, or holds no control character and is short enough. -/
theorem detailsSafe_iff {n : ℕ} (hn : DETAIL_BOUND ≤ n) {req : Request} (hbytes : req.headerBytes < 2 ^ 64)
    (hcount : req.headers.length < 2 ^ 64) :
    DetailsSafe n req ↔ req.method ∈ Structural.ALLOWED_METHODS ∨
      (∀ c ∈ req.method, ¬ IsAsciiControl c) ∧ strLen req.method + 26 ≤ n := by
  constructor
  · exact DetailsSafe.methodSafe
  · intro hmethod
    have hall : ∀ T L A denyList, ∀ d ∈ builtins T L A denyList, ∀ env, ∀ v ∈ (d.inspect req env).1,
        LogSafe n v.detail := by
      intro T L A denyList d hd env v hv
      unfold builtins at hd
      simp only [List.mem_cons, List.not_mem_nil, or_false] at hd
      obtain rfl | rfl | rfl | rfl := hd
      · exact (Injection.logSafe_of_mem hv).mono hn
      · exact (Signatures.logSafe_of_mem hv).mono hn
      · exact (Structural.logSafe_iff hn hbytes hcount).mpr hmethod v hv
      · exact (Reputation.logSafe_of_mem hv).mono hn
    refine ⟨hall, ?_⟩
    intro T L A denyList enabled env global groupMode labels s hs
    obtain ⟨v, hv, rfl⟩ := exists_of_blockedDetail hs
    obtain ⟨d, hd, env', hv⟩ := Engine.exists_of_mem_reports hv
    exact hall T L A denyList d (List.mem_filter.mp hd).1 env' v hv

/-- A request with a method and nothing else. -/
def requestWith (method : Str) : Request :=
  Request.build .standard method "h".toList "/".toList [] [] [] false (.v4 #v[192, 0, 2, 1])

/-- A short method of letters is quoted safely. -/
theorem detailsSafe_iff_purge : DetailsSafe DETAIL_BOUND (requestWith "PURGE".toList) ↔
    (requestWith "PURGE".toList).method ∈ Structural.ALLOWED_METHODS ∨
      (∀ c ∈ (requestWith "PURGE".toList).method, ¬ IsAsciiControl c) ∧
        strLen (requestWith "PURGE".toList).method + 26 ≤ DETAIL_BOUND :=
  detailsSafe_iff le_rfl (by decide) (by decide)

/-- A line break in the method goes into the detail, and so does any number of letters. -/
theorem not_detailsSafe :
    (∀ n, ¬ DetailsSafe n (requestWith "X\nY".toList)) ∧
      ∀ n, (∀ c ∈ (requestWith (List.replicate n 'A')).method, ¬ IsAsciiControl c) ∧
        ¬ DetailsSafe n (requestWith (List.replicate n 'A')) := by
  refine ⟨?_, ?_⟩
  · intro n h
    obtain hallowed | ⟨hprintable, -⟩ := h.methodSafe
    · exact absurd hallowed (by decide)
    · exact absurd (hprintable '\n' (by decide)) (by decide)
  · intro n
    have hmethod : (requestWith (List.replicate n 'A')).method = List.replicate n 'A' := by
      show toAsciiUppercase (List.replicate n 'A') = List.replicate n 'A'
      unfold toAsciiUppercase
      rw [List.map_replicate]
      rfl
    rw [hmethod]
    constructor
    · intro c hc
      rw [List.eq_of_mem_replicate hc]
      decide
    · intro h
      have hother : ∀ method ∈ Structural.ALLOWED_METHODS, method.any (fun c => c != 'A') = true := by decide
      have hlength := length_le_strLen (List.replicate n 'A')
      rw [List.length_replicate] at hlength
      have hsafe := h.methodSafe
      unfold Structural.MethodSafe at hsafe
      rw [hmethod] at hsafe
      obtain hallowed | ⟨-, hshort⟩ := hsafe
      · obtain ⟨c, hc, hne⟩ := List.any_eq_true.mp (hother _ hallowed)
        rw [List.eq_of_mem_replicate hc] at hne
        exact absurd hne (by decide)
      · omega

end PurpleWolf
