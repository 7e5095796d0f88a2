import PurpleWolf.Libinjection.Sqli
import PurpleWolf.Libinjection.SqliFolding

/-! # The SQL injection detector always answers

From the tokens that folding leaves to the answer.

* **The fingerprint.**  It has at most five types and fits the two buffers of eight bytes.  A
  fingerprint of two or three types stands for as many tokens, which is what the exceptions for
  them rely on when they read these tokens.
* **The byte behind the number.**  The exception for a number and a comment reads one or two
  bytes of the input behind the length of the number; `Folded.plain` is why they are there.
* **The answer.**  It is `TRUE` exactly if one of the readings that are tried is reported. -/

namespace PurpleWolf.Sqli

open Memory Html5 Xss

/-- What a reading of `s` leaves behind. -/
structure Reading.Good (s : Bytes) (r : Reading) : Prop where
  input : r.sf.s = s
  short : r.fingerprint.length ≤ MAX_TOKENS
  live : .none ∉ r.fingerprint
  types : r.fingerprint = [.evil] ∨ .evil ∉ r.fingerprint ∧ r.fingerprint = r.toks.map Token.type
  order : r.toks.Pairwise fun t t' => t.pos ≤ t'.pos
  inside : ∀ t ∈ r.toks, t.pos ≤ s.length
  counted : r.toks.length ≤ r.sf.tokens
  plain : ∀ t t', r.toks = [t, t'] → t'.type = .comment → r.sf.tokens ≤ 2 → t'.char 0 ≠ chr '#' →
    t.val.length + 2 ≤ s.length

theorem markTickComment_cases (toks : List Token) : markTickComment toks = toks ∨
    2 < toks.length ∧ ∃ last, toks[toks.length - 1]? = some last ∧ last.type = .bareword ∧
      markTickComment toks = toks.set (toks.length - 1) (last.withType .comment) := by
  unfold markTickComment
  rw [List.getLast?_eq_getElem?]
  cases hlast : toks[toks.length - 1]? with
  | none => exact Or.inl rfl
  | some last =>
      dsimp only
      split_ifs with h
      · obtain ⟨hlen, htick⟩ := h
        simp only [Token.isTickComment, Bool.and_eq_true, decide_eq_true_eq] at htick
        exact Or.inr ⟨hlen, last, rfl, htick.1.1.1, rfl⟩
      · exact Or.inl rfl

theorem length_markTickComment (toks : List Token) : (markTickComment toks).length = toks.length := by
  rcases markTickComment_cases toks with h | ⟨-, last, -, -, h⟩
  · rw [h]
  · rw [h, List.length_set]

theorem mem_markTickComment {toks : List Token} {t : Token} (h : t ∈ markTickComment toks) :
    ∃ t' ∈ toks, t.pos = t'.pos ∧ (t.type = t'.type ∨ t.type = .comment) := by
  rcases markTickComment_cases toks with heq | ⟨-, last, hlast, -, heq⟩
  · rw [heq] at h
    exact ⟨t, h, rfl, Or.inl rfl⟩
  · rw [heq] at h
    rcases List.mem_or_eq_of_mem_set h with ht | rfl
    · exact ⟨t, ht, rfl, Or.inl rfl⟩
    · exact ⟨last, List.mem_of_getElem? hlast, rfl, Or.inr rfl⟩

theorem map_pos_markTickComment (toks : List Token) : (markTickComment toks).map Token.pos = toks.map Token.pos := by
  rcases markTickComment_cases toks with h | ⟨-, last, hlast, -, h⟩
  · rw [h]
  · obtain ⟨hlt, rfl⟩ := List.getElem?_eq_some_iff.mp hlast
    rw [h, List.map_set]
    apply List.ext_getElem?
    intro i
    rw [List.getElem?_set]
    split_ifs with hi hin
    · rw [← hi, List.getElem?_map, List.getElem?_eq_getElem hlt]
      rfl
    · rw [← hi, List.getElem?_eq_none (Nat.not_lt.mp hin)]
    · rfl

theorem evil_mem_markTickComment {toks : List Token} {t : Token} (ht : t ∈ toks) (h : t.type = .evil) :
    .evil ∈ (markTickComment toks).map Token.type := by
  rw [← h]
  rcases markTickComment_cases toks with heq | ⟨-, last, hlast, htype, heq⟩
  · rw [heq]
    exact List.mem_map_of_mem ht
  · obtain ⟨i, hi⟩ := List.mem_iff_getElem?.mp ht
    have hne : toks.length - 1 ≠ i := by
      rintro rfl
      rw [hlast] at hi
      rw [Option.some.inj hi, h] at htype
      cases htype
    rw [heq]
    refine List.mem_map_of_mem (List.mem_of_getElem? (i := i) ?_)
    rw [List.getElem?_set_ne hne, hi]

section

variable (signedChar : Bool) (T : KeywordTable)

/-- The fingerprint fits its buffer. -/
theorem exists_fingerprint {s : Bytes} (flags : Flags) (hs : s ≠ []) :
    ∃ r, fingerprint signedChar T s flags = some r ∧ r.Good s := by
  obtain ⟨sf, toks, hfold, folded⟩ := SqliState.exists_fold signedChar T flags hs
  have hlength := length_markTickComment toks
  have hlive : ∀ type ∈ (markTickComment toks).map Token.type, type ≠ .none := by
    intro type htype
    obtain ⟨t, ht, rfl⟩ := List.mem_map.mp htype
    obtain ⟨t', ht', -, hsame | hcomment⟩ := mem_markTickComment ht
    · rw [hsame]
      exact folded.live t' ht'
    · rw [hcomment]
      decide
  have hshort := folded.short
  have htypes : ((markTickComment toks).map Token.type).takeWhile (· ≠ .none) = (markTickComment toks).map Token.type :=
    List.takeWhile_eq_self_iff.mpr fun type htype => decide_eq_true (hlive type htype)
  unfold fingerprint
  simp only [hfold, Option.bind_eq_bind, Option.bind_some, htypes]
  rw [if_neg (by rw [hlength]; unfold FINGERPRINT_SIZE; unfold MAX_TOKENS at hshort; omega)]
  refine ⟨_, rfl, folded.input, ?_, ?_, ?_, ?_, fun t ht => ?_, ?_, fun t t' heq => ?_⟩
  · dsimp only
    split_ifs with hevil
    · decide
    · rcases hshort with h | ⟨-, t, ht, h⟩
      · rw [List.length_map, hlength]
        exact h
      · exact absurd (evil_mem_markTickComment ht h) hevil
  · dsimp only
    split_ifs
    · decide
    · exact fun h => hlive _ h rfl
  · dsimp only
    split_ifs with hevil
    · exact Or.inl rfl
    · exact Or.inr ⟨hevil, rfl⟩
  · have horder := List.pairwise_map.mpr folded.order
    rw [← map_pos_markTickComment] at horder
    exact List.pairwise_map.mp horder
  · obtain ⟨t', ht', hpos, -⟩ := mem_markTickComment ht
    rw [hpos]
    exact folded.inside t' ht'
  · dsimp only
    rw [hlength]
    exact folded.counted
  · dsimp only at heq
    rcases markTickComment_cases toks with h | ⟨hlen, -⟩
    · rw [h] at heq
      exact folded.plain t t' heq
    · rw [← hlength, heq] at hlen
      simp at hlen

namespace Reading

variable {s : Bytes} {r : Reading}

/-- The look-up is in the table of the fingerprints, in upper case behind a `0`. -/
theorem blacklist_eq (good : Good s r) : r.blacklist signedChar T =
    some (decide (r.fingerprint ≠ [] ∧
      T.typeOf (chr '0' :: r.fingerprint.map fun type => upcase type.code) = .fingerprint)) := by
  have hshort := good.short
  unfold MAX_TOKENS at hshort
  unfold blacklist
  by_cases hempty : r.fingerprint = []
  · rw [if_pos (by rw [hempty]; decide)]
    simp [hempty]
  · have hpos := List.length_pos_iff.mpr hempty
    rw [if_neg (by omega), if_neg (by unfold FINGERPRINT_SIZE; omega), isKeyword_eq]
    simp [hempty]

theorem exists_ite {c : Prop} [Decidable c] {t e : Option Bool} (ht : c → ∃ b, t = some b)
    (he : ¬c → ∃ b, e = some b) : ∃ b, (if c then t else e) = some b := by
  split_ifs with h
  · exact ht h
  · exact he h

theorem Good.toks_of_length (good : Good s r) {n : ℕ} (hn : 1 < n) (hlen : r.fingerprint.length = n) :
    r.toks.length = n := by
  rcases good.types with h | ⟨-, h⟩
  · rw [h] at hlen
    exact absurd hn (by rw [← hlen]; decide)
  · rw [← hlen, h, List.length_map]

theorem exists_notWhitelistTwo (good : Good s r) (hlen : r.fingerprint.length = 2) :
    ∃ b, r.notWhitelistTwo signedChar = some b := by
  obtain ⟨t0, t1, htoks⟩ := List.length_eq_two.mp (good.toks_of_length (by decide) hlen)
  have hplain := good.plain t0 t1 htoks
  unfold notWhitelistTwo
  simp only [htoks, List.getElem?_cons_zero, List.getElem?_cons_succ, Option.bind_eq_bind, Option.bind_some]
  refine exists_ite (fun _ => ⟨_, rfl⟩) fun _ => exists_ite (fun _ => ⟨_, rfl⟩) fun hhash =>
    exists_ite (fun _ => ⟨_, rfl⟩) fun _ => exists_ite (fun _ => ⟨_, rfl⟩) fun _ =>
    exists_ite (fun hcomment => exists_ite (fun _ => ⟨_, rfl⟩) fun htokens => ?_) fun _ => ⟨_, rfl⟩
  have hin := hplain hcomment.2 (by omega) hhash
  rw [← good.input] at hin
  have hnumber : t0.val.length < r.sf.len := by unfold SqliState.len; omega
  obtain ⟨ch, hch⟩ := SqliState.getElem?_of_lt hnumber
  have hnext : ∀ c, ∃ b, r.sf.charIs (t0.val.length + 1) c = some b := fun c =>
    SqliState.charIs_of_lt c (by unfold SqliState.len; omega)
  rw [hch, Option.bind_some]
  refine exists_ite (fun _ => ⟨_, rfl⟩) fun _ => ?_
  obtain ⟨b, hb⟩ := SqliState.exists_andAlso (c := ch = CHAR_SLASH) fun _ => hnext (chr '*')
  rw [hb, Option.bind_some]
  exact exists_ite (fun _ => ⟨_, rfl⟩) fun _ => SqliState.exists_andAlso fun _ => hnext CHAR_DASH

theorem exists_notWhitelistThree (good : Good s r) (hlen : r.fingerprint.length = 3) :
    ∃ b, r.notWhitelistThree signedChar = some b := by
  obtain ⟨t0, t1, t2, htoks⟩ := List.length_eq_three.mp (good.toks_of_length (by decide) hlen)
  unfold notWhitelistThree
  simp only [htoks, List.getElem?_cons_zero, List.getElem?_cons_succ, Option.bind_eq_bind, Option.bind_some]
  exact exists_ite (fun _ => ⟨_, rfl⟩) fun _ => exists_ite (fun _ => ⟨_, rfl⟩) fun _ =>
    exists_ite (fun _ => ⟨_, rfl⟩) fun _ => ⟨_, rfl⟩

theorem exists_notWhitelist (good : Good s r) : ∃ b, r.notWhitelist signedChar = some b := by
  have hall : 0 + r.sf.len ≤ r.sf.s.length := (Nat.zero_add _).le
  obtain ⟨found, hfound, -⟩ := memmem_of_le (ascii "sp_password") hall
  unfold notWhitelist
  obtain ⟨b, hb⟩ := SqliState.exists_andAlso (c := 1 < r.fingerprint.length ∧ r.fingerprint.getLast? = some .comment)
    (t := (memmem r.sf.s 0 r.sf.len (ascii "sp_password")).bind fun found => some found.isSome)
    fun _ => ⟨_, by rw [hfound]; rfl⟩
  simp only [Option.bind_eq_bind]
  rw [hb, Option.bind_some]
  exact exists_ite (fun _ => ⟨_, rfl⟩) fun _ =>
    exists_ite (exists_notWhitelistTwo signedChar good) fun _ =>
    exists_ite (exists_notWhitelistThree signedChar good) fun _ => ⟨_, rfl⟩

/-- There are no exceptions for more than three tokens. -/
theorem notWhitelist_of_long (good : Good s r) (hlen : 3 < r.fingerprint.length) :
    r.notWhitelist signedChar = some true := by
  obtain ⟨b, hb⟩ := exists_notWhitelist signedChar good
  rw [hb]
  unfold notWhitelist at hb
  obtain ⟨found, -, hb⟩ := Option.bind_eq_some_iff.mp hb
  split_ifs at hb
  · exact hb.symm
  · omega
  · omega
  · exact hb.symm

theorem exists_check (good : Good s r) : ∃ b, r.check signedChar T = some b := by
  unfold check
  rw [blacklist_eq signedChar T good]
  exact exists_ite (fun _ => exists_notWhitelist signedChar good) fun _ => ⟨_, rfl⟩

end Reading

theorem fingerprint_nil (flags : Flags) :
    fingerprint signedChar T [] flags = some ⟨SqliState.init [] flags, [], []⟩ := by
  cases flags
  rfl

/-- **The fingerprint of an input.**  Whatever the input is and however it is read, the fingerprint
has at most five types, none of which is empty; it is the evil one alone, or the types of the tokens
that are left, which stand in the order of the input.  What is reported has its fingerprint in the
table, in upper case behind a `0`. -/
theorem fingerprint_spec (s : Bytes) (flags : Flags) :
    ∃ r, fingerprint signedChar T s flags = some r ∧ r.sf.s = s ∧
      r.fingerprint.length ≤ MAX_TOKENS ∧ .none ∉ r.fingerprint ∧
      (r.fingerprint = [.evil] ∨ .evil ∉ r.fingerprint ∧ r.fingerprint = r.toks.map Token.type) ∧
      (r.toks.Pairwise fun t t' => t.pos ≤ t'.pos) ∧ (∀ t ∈ r.toks, t.pos ≤ s.length) ∧
      (r.check signedChar T = some true →
        T.typeOf (chr '0' :: r.fingerprint.map fun type => upcase type.code) = .fingerprint) := by
  have hgood : ∃ r, fingerprint signedChar T s flags = some r ∧ r.Good s := by
    by_cases hs : s = []
    · subst hs
      refine ⟨_, fingerprint_nil signedChar T flags, rfl, Nat.zero_le _, List.not_mem_nil, ?_, List.Pairwise.nil, ?_,
        Nat.zero_le _, fun t t' h => by cases h⟩
      · exact Or.inr ⟨List.not_mem_nil, rfl⟩
      · exact fun t ht => absurd ht List.not_mem_nil
    · exact exists_fingerprint signedChar T flags hs
  obtain ⟨r, hr, good⟩ := hgood
  refine ⟨r, hr, good.input, good.short, good.live, good.types, good.order, good.inside, fun hcheck => ?_⟩
  by_contra hlookup
  unfold Reading.check at hcheck
  rw [Reading.blacklist_eq signedChar T good, decide_eq_false (fun h => hlookup h.2)] at hcheck
  cases hcheck

/-! ### The readings that are tried -/

/-- The readings of the input that are tried until one is reported.  The ANSI readings are as the
input stands and behind a single quote it has; MySQL's follow where there is a comment that it reads
in another way; behind a double quote only MySQL's is tried. -/
inductive Tried (s : Bytes) : Flags → Prop
  | asIs : Tried s ⟨.none, false⟩
  | single (h : CHAR_SINGLE ∈ s) : Tried s ⟨.single, false⟩
  | double (h : CHAR_DOUBLE ∈ s) : Tried s ⟨.double, true⟩
  | mysql (quote : Quote) (h : Tried s ⟨quote, false⟩) (r : Reading)
      (hr : fingerprint signedChar T s ⟨quote, false⟩ = some r) (hmysql : r.reparseAsMysql = true) :
      Tried s ⟨quote, true⟩

/-- The reading is reported. -/
def Reported (s : Bytes) (flags : Flags) : Prop := ∃ r, checkAs signedChar T s flags = some (r, true)

theorem exists_checkAs {s : Bytes} (flags : Flags) (hs : s ≠ []) :
    ∃ r b, checkAs signedChar T s flags = some (r, b) ∧ fingerprint signedChar T s flags = some r := by
  obtain ⟨r, hr, good⟩ := exists_fingerprint signedChar T flags hs
  obtain ⟨b, hb⟩ := r.exists_check signedChar T good
  exact ⟨r, b, by unfold checkAs; simp only [hr, hb, Option.bind_eq_bind, Option.bind_some], hr⟩

theorem reported_iff {s : Bytes} {flags : Flags} {r : Reading} {b : Bool}
    (h : checkAs signedChar T s flags = some (r, b)) : Reported signedChar T s flags ↔ b = true := by
  unfold Reported
  rw [h]
  constructor
  · rintro ⟨r', hr'⟩
    exact (Prod.mk.inj (Option.some.inj hr')).2
  · rintro rfl
    exact ⟨r, rfl⟩

theorem reported_iff_check {s : Bytes} {flags : Flags} {r : Reading} (hr : fingerprint signedChar T s flags = some r) :
    Reported signedChar T s flags ↔ r.check signedChar T = some true := by
  unfold Reported checkAs
  simp only [hr, Option.bind_eq_bind, Option.bind_some]
  cases r.check signedChar T with
  | none => simp
  | some b => simp

/-- Behind a quote, the answer is whether the ANSI reading is reported, or MySQL's where it is tried. -/
theorem exists_isSqliBehind {s : Bytes} {quote : Quote} (hs : s ≠ []) (htried : Tried signedChar T s ⟨quote, false⟩)
    (hdouble : quote ≠ .double) : ∃ b, isSqliBehind signedChar T s quote = some b ∧
      (b = true ↔ ∃ mysql, Tried signedChar T s ⟨quote, mysql⟩ ∧ Reported signedChar T s ⟨quote, mysql⟩) := by
  obtain ⟨r, b, hansi, hr⟩ := exists_checkAs signedChar T ⟨quote, false⟩ hs
  have hansi_iff := reported_iff signedChar T hansi
  obtain ⟨r', b', hmysql, -⟩ := exists_checkAs signedChar T ⟨quote, true⟩ hs
  have hmysql_iff := reported_iff signedChar T hmysql
  unfold isSqliBehind
  simp only [hansi, hmysql, Option.bind_eq_bind, Option.bind_some, Option.map_some]
  cases hb : b with
  | true => exact ⟨true, if_pos rfl, iff_of_true rfl ⟨false, htried, hansi_iff.mpr hb⟩⟩
  | false =>
      rw [if_neg (by decide)]
      cases hreparse : r.reparseAsMysql with
      | true =>
          refine ⟨b', if_pos rfl, fun h => ⟨true, .mysql quote htried r hr hreparse, hmysql_iff.mpr h⟩, ?_⟩
          rintro ⟨mysql, -, hreported⟩
          cases mysql with
          | true => exact hmysql_iff.mp hreported
          | false => exact absurd (hansi_iff.mp hreported) (by rw [hb]; decide)
      | false =>
          refine ⟨false, if_neg (by decide), iff_of_false (by decide) ?_⟩
          rintro ⟨mysql, htried', hreported⟩
          cases mysql with
          | false => exact absurd (hansi_iff.mp hreported) (by rw [hb]; decide)
          | true =>
              cases htried' with
              | double h => exact hdouble rfl
              | mysql _ _ r₁ hr₁ h₁ =>
                  rw [hr] at hr₁
                  rw [← Option.some.inj hr₁, hreparse] at h₁
                  cases h₁

theorem exists_memchr (s : Bytes) (c : UInt8) : ∃ found, memchr s 0 c = some found ∧ (found.isSome = true ↔ c ∈ s) := by
  obtain ⟨found, hfound⟩ := memchr_of_le c (Nat.zero_le s.length)
  refine ⟨found, hfound, ?_⟩
  cases found with
  | none => exact iff_of_false (by decide) (memchr_eq_none hfound)
  | some i => exact iff_of_true rfl (List.mem_of_getElem? (memchr_eq_some hfound).2.2)

theorem exists_libinjectionIsSqli (s : Bytes) : ∃ b, libinjectionIsSqli signedChar T s = some b ∧
    (b = true ↔ s ≠ [] ∧ ∃ flags, Tried signedChar T s flags ∧ Reported signedChar T s flags) := by
  by_cases hs : s = []
  · subst hs
    exact ⟨false, rfl, iff_of_false (by decide) fun h => h.1 rfl⟩
  obtain ⟨b0, hasIs, hasIs_iff⟩ := exists_isSqliBehind signedChar T hs .asIs (by decide)
  obtain ⟨single, hsingle, hsingle_iff⟩ := exists_memchr s CHAR_SINGLE
  obtain ⟨double, hdouble, hdouble_iff⟩ := exists_memchr s CHAR_DOUBLE
  obtain ⟨r2, b2, hlast, -⟩ := exists_checkAs signedChar T ⟨.double, true⟩ hs
  have hlast_iff := reported_iff signedChar T hlast
  obtain ⟨b1, hbehind, hbehind_iff⟩ : ∃ b1, andAlso single.isSome (isSqliBehind signedChar T s .single) = some b1 ∧
      (b1 = true ↔ ∃ mysql, Tried signedChar T s ⟨.single, mysql⟩ ∧ Reported signedChar T s ⟨.single, mysql⟩) := by
    by_cases hmem : CHAR_SINGLE ∈ s
    · rw [hsingle_iff.mpr hmem]
      exact exists_isSqliBehind signedChar T hs (.single hmem) (by decide)
    · refine ⟨false, if_neg fun h => hmem (hsingle_iff.mp h), iff_of_false (by decide) ?_⟩
      rintro ⟨mysql, htried, -⟩
      cases htried with
      | single h => exact hmem h
      | mysql _ h => cases h with | single h => exact hmem h
  have hdoubled : ∀ mysql, Tried signedChar T s ⟨.double, mysql⟩ → CHAR_DOUBLE ∈ s ∧ mysql = true := by
    intro mysql htried
    cases htried with
    | double h => exact ⟨h, rfl⟩
    | mysql _ h => cases h
  have hlen : s.length ≠ 0 := fun h => hs (List.eq_nil_of_length_eq_zero h)
  have hlastAnswer : ∃ b,
      (if double.isSome then (checkAs signedChar T s ⟨.double, true⟩).map Prod.snd else some false) =
      some b ∧ (b = true ↔ CHAR_DOUBLE ∈ s ∧ Reported signedChar T s ⟨.double, true⟩) := by
    rw [hlast]
    by_cases hmem : CHAR_DOUBLE ∈ s
    · exact ⟨b2, if_pos (hdouble_iff.mpr hmem), fun h => ⟨hmem, hlast_iff.mpr h⟩, fun h => hlast_iff.mp h.2⟩
    · exact ⟨false, if_neg fun h => hmem (hdouble_iff.mp h), iff_of_false (by decide) fun h => hmem h.1⟩
  obtain ⟨b3, hb3, hb3_iff⟩ := hlastAnswer
  refine ⟨b0 || (b1 || b3), ?_, ?_⟩
  · unfold libinjectionIsSqli
    rw [if_neg hlen, hasIs, hsingle, hdouble]
    simp only [Option.bind_eq_bind, Option.bind_some, hbehind, hb3]
    cases b0
    · cases b1
      · rfl
      · rfl
    · rfl
  · rw [Bool.or_eq_true, Bool.or_eq_true, hasIs_iff, hbehind_iff, hb3_iff]
    constructor
    · rintro (⟨mysql, htried, hreported⟩ | ⟨mysql, htried, hreported⟩ | ⟨hmem, hreported⟩)
      · exact ⟨hs, _, htried, hreported⟩
      · exact ⟨hs, _, htried, hreported⟩
      · exact ⟨hs, _, .double hmem, hreported⟩
    · rintro ⟨-, ⟨quote, mysql⟩, htried, hreported⟩
      cases quote with
      | none => exact Or.inl ⟨mysql, htried, hreported⟩
      | single => exact Or.inr (Or.inl ⟨mysql, htried, hreported⟩)
      | double =>
          obtain ⟨hmem, rfl⟩ := hdoubled mysql htried
          exact Or.inr (Or.inr ⟨hmem, hreported⟩)

theorem isSqli_iff (s : Bytes) : isSqli signedChar T s = true ↔
    s ≠ [] ∧ ∃ flags, Tried signedChar T s flags ∧ Reported signedChar T s flags := by
  obtain ⟨b, hb, hiff⟩ := exists_libinjectionIsSqli signedChar T s
  rw [← hiff]
  unfold isSqli
  rw [hb, decide_eq_true_iff, Option.some.injEq]

/-- **The detector answers.**  Whatever the input, the table and the target's `char` are,
`libinjection_is_sqli` returns without a read outside of the input or of the tokens, without a write
behind the fingerprint, and in a bounded number of steps.  The answer is `TRUE` where one of the
readings that are tried of an input is reported, and `FALSE` where each of them is passed. -/
theorem libinjectionIsSqli_answers (s : Bytes) :
    (libinjectionIsSqli signedChar T s = some true ∧ isSqli signedChar T s = true ∧
        ∃ flags, Tried signedChar T s flags ∧ ∃ r, checkAs signedChar T s flags = some (r, true)) ∨
      (libinjectionIsSqli signedChar T s = some false ∧ isSqli signedChar T s = false ∧
        ∀ flags, Tried signedChar T s flags → ∃ r, checkAs signedChar T s flags = some (r, false)) := by
  obtain ⟨b, hb, hiff⟩ := exists_libinjectionIsSqli signedChar T s
  have hanswer := isSqli_iff signedChar T s
  rw [← hiff] at hanswer
  cases b with
  | true =>
      obtain ⟨-, flags, htried, hreported⟩ := hiff.mp rfl
      exact Or.inl ⟨hb, hanswer.mpr rfl, flags, htried, hreported⟩
  | false =>
      refine Or.inr ⟨hb, Bool.eq_false_iff.mpr (fun h => by cases hanswer.mp h), fun flags htried => ?_⟩
      by_cases hs : s = []
      · subst hs
        refine ⟨⟨.init [] flags, [], []⟩, ?_⟩
        unfold checkAs
        rw [fingerprint_nil]
        rfl
      · obtain ⟨r, b, hr, -⟩ := exists_checkAs signedChar T flags hs
        cases b with
        | true => exact absurd (hiff.mpr ⟨hs, flags, htried, r, hr⟩) (by decide)
        | false => exact ⟨r, hr⟩

end

end PurpleWolf.Sqli
