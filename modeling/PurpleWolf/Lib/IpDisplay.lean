import PurpleWolf.Lib.IpAddr

/-! # The display of an address is read back

`IpAddr::to_string` writes one of the texts that `str::parse` reads as the address
(`parse_display`), so different addresses have different texts.

* An IPv4 address is read number by number.
* For an IPv6 address the parser first looks for an IPv4 address, here and before each
  group, and finds none: hexadecimal digits are followed by a colon or by the end of the
  text, not by a dot (`readIpv4Addr_eq_none`).  Groups are read up to the end of the text or
  to `::` (`readGroups_separated`), and the groups that `::` stands for are the zeros that
  the display left out (`longestZeros_isRun`). -/

namespace PurpleWolf.IpAddr

open Text

/-! ### Numbers -/

theorem readNumber_numeral {radix maxDigits bound n : ℕ} (hradix : 1 < radix) (hradix' : radix ≤ 16)
    (hmax : 0 < maxDigits) (hn : n < bound) (hbound : bound ≤ radix ^ maxDigits) (allowZeroPrefix : Bool)
    {s : List Char} (hs : ∀ c t, s = c :: t → toDigit radix c = none) :
    readNumber radix maxDigits bound allowZeroPrefix (numeral radix n ++ s) = some (n, s) := by
  have hread : readDigits radix (numeral radix n ++ s) = (shownDigits radix n, s) := by
    rw [numeral_eq, readDigits_map hradix' (shownDigits_lt hradix n) hs]
  have hvalue : (shownDigits radix n).foldl (fun n d => n * radix + d) 0 = n := by
    rw [foldl_digits, ofDigits_shownDigits]
  have hlength := length_shownDigits_le hradix hmax (hn.trans_le hbound)
  have hfits : ¬ (shownDigits radix n = [] ∨ maxDigits < (shownDigits radix n).length ∨ bound ≤ n) := by
    rintro (hnil | hlong | hlarge)
    · exact shownDigits_ne_nil radix n hnil
    · omega
    · omega
  have hprefix : ¬ (!allowZeroPrefix && (shownDigits radix n).head? == some 0 &&
      1 < (shownDigits radix n).length) = true := by
    intro h
    simp only [Bool.and_eq_true, beq_iff_eq, decide_eq_true_eq] at h
    have hone := length_shownDigits_of_zero h.1.2
    omega
  unfold readNumber
  rw [hread]
  simp only
  rw [hvalue, if_neg hfits, if_neg hprefix]

/-! ### IPv4 -/

theorem displayV4_append (a b c d : UInt8) (s : List Char) : displayV4 #v[a, b, c, d] ++ s =
    decimal a.toNat ++ '.' :: (decimal b.toNat ++ '.' :: (decimal c.toNat ++ '.' :: (decimal d.toNat ++ s))) := by
  have htext : displayV4 #v[a, b, c, d] =
      ['.'].intercalate [decimal a.toNat, decimal b.toNat, decimal c.toNat, decimal d.toNat] := rfl
  rw [htext]
  simp only [List.intercalate_cons_cons, List.intercalate_singleton, List.append_assoc, List.cons_append,
    List.nil_append]

theorem readIpv4Addr_displayV4 (o : Vector UInt8 4) {s : List Char} (hs : ∀ c t, s = c :: t → toDigit 10 c = none) :
    readIpv4Addr (displayV4 o ++ s) = some (o, s) := by
  have hgroup : ∀ (b : UInt8) (s : List Char), (∀ c t, s = c :: t → toDigit 10 c = none) →
      readNumber 10 3 256 false (decimal b.toNat ++ s) = some (b.toNat, s) :=
    fun b s hs => readNumber_numeral (by decide) (by decide) (by decide) b.toNat_lt (by decide) false hs
  have hdot : ∀ r c t, '.' :: r = c :: t → toDigit 10 c = none := by
    rintro r c t ⟨⟩
    decide
  obtain ⟨a, b, c, d, rfl⟩ : ∃ a b c d, o = #v[a, b, c, d] := by
    refine ⟨o[0], o[1], o[2], o[3], ?_⟩
    ext i hi
    interval_cases i <;> rfl
  have hnext : ∀ (index : ℕ) (b : UInt8) (s : List Char), (∀ c t, s = c :: t → toDigit 10 c = none) →
      readSeparator '.' (index + 1) (readNumber 10 3 256 false) ('.' :: (decimal b.toNat ++ s)) =
      some (b.toNat, s) := by
    intro index b s hs
    exact hgroup b s hs
  have hfirst : readSeparator '.' 0 (readNumber 10 3 256 false) (displayV4 #v[a, b, c, d] ++ s) = some (a.toNat,
      '.' :: (decimal b.toNat ++ '.' :: (decimal c.toNat ++ '.' :: (decimal d.toNat ++ s)))) := by
    rw [displayV4_append]
    exact hgroup a _ (hdot _)
  unfold readIpv4Addr
  simp only [Option.bind_eq_bind]
  rw [hfirst, Option.bind_some, hnext 0 b _ (hdot _), Option.bind_some, hnext 1 c _ (hdot _), Option.bind_some,
    hnext 2 d _ hs, Option.bind_some]
  simp only [UInt8.ofNat_toNat]

theorem readIpv4Addr_eq_none {s : List Char} (h : ∀ t, (readDigits 10 s).2 ≠ '.' :: t) : readIpv4Addr s = none := by
  cases hread : readIpv4Addr s with
  | none => rfl
  | some r =>
      obtain ⟨o, rest⟩ := r
      unfold readIpv4Addr at hread
      simp only [Option.bind_eq_bind, Option.bind_eq_some_iff, Prod.exists] at hread
      obtain ⟨a, s₁, ha, b, s₂, hb, -⟩ := hread
      have hs₁ : s₁ = (readDigits 10 s).2 := by
        unfold readSeparator readNumber at ha
        simp only [if_pos] at ha
        split_ifs at ha
        cases ha
        rfl
      unfold readSeparator at hb
      rw [if_neg (by decide)] at hb
      obtain ⟨t, ht, -⟩ := Option.bind_eq_some_iff.mp hb
      cases hs : s₁ with
      | nil =>
          rw [hs] at ht
          cases ht
      | cons d s' =>
          rw [hs, readGivenChar] at ht
          split_ifs at ht with hd
          exact absurd (hs₁.symm.trans (hd ▸ hs)) (h s')

/-! ### Groups -/

/-- The text is over, or a colon follows. -/
def EndOrColon (s : List Char) : Prop := s = [] ∨ ∃ r, s = ':' :: r

/-- The text is over, or the zeros that are left out follow. -/
def EndOrGap (s : List Char) : Prop := s = [] ∨ ∃ r, s = ':' :: ':' :: r

theorem EndOrGap.endOrColon {s : List Char} (h : EndOrGap s) : EndOrColon s := by
  obtain rfl | ⟨r, rfl⟩ := h
  · exact Or.inl rfl
  · exact Or.inr ⟨':' :: r, rfl⟩

theorem EndOrColon.toDigit {radix : ℕ} (hradix : radix ≤ 16) {s : List Char} (h : EndOrColon s) (c : Char)
    (t : List Char) (hs : s = c :: t) : toDigit radix c = none := by
  have hcolon : ∀ radix ≤ 16, Text.toDigit radix ':' = none := by decide
  obtain rfl | ⟨r, rfl⟩ := h
  · cases hs
  · cases hs
    exact hcolon radix hradix

theorem not_dot_of_mem_numeral {n : ℕ} {c : Char} (h : c ∈ numeral 16 n) : c ≠ '.' := by
  have hdigit : ∀ d < 16, digitChar d ≠ '.' := by decide
  rw [numeral_eq] at h
  obtain ⟨d, hd, rfl⟩ := List.mem_map.mp h
  exact hdigit d (shownDigits_lt (by decide) n d hd)

/-- Up to the colon there is no dot, so there is no IPv4 address. -/
theorem readIpv4Addr_of_endOrColon {u r : List Char} (hu : ∀ c ∈ u, c ≠ '.') (hr : EndOrColon r) :
    readIpv4Addr (u ++ r) = none := by
  apply readIpv4Addr_eq_none
  induction u with
  | nil =>
      intro t
      obtain rfl | ⟨r, rfl⟩ := hr
      · exact nofun
      · have hcolon : readDigits 10 (':' :: r) = ([], ':' :: r) := rfl
        rw [List.nil_append, hcolon]
        intro h
        exact absurd (List.cons.inj h).1 (by decide)
  | cons c u ih =>
      intro t
      rw [List.cons_append, readDigits]
      cases toDigit 10 c with
      | none =>
          intro h
          exact hu c List.mem_cons_self (List.cons.inj h).1
      | some d => exact ih (fun x hx => hu x (List.mem_cons_of_mem c hx)) t

/-- The separator that is read before the group at `index`. -/
def separator (index : ℕ) : List Char := if index = 0 then [] else [':']

/-- Groups, the first of them at `index`, as they are read. -/
def separated : ℕ → List UInt16 → List Char
  | _, [] => []
  | index, g :: gs => separator index ++ (numeral 16 g.toNat ++ separated (index + 1) gs)

theorem separated_succ : ∀ (gs : List UInt16) (index : ℕ), gs ≠ [] → separated (index + 1) gs = ':' :: displayGroups gs
  | [], _, h => absurd rfl h
  | [g], _, _ => by
      simp only [separated, separator, displayGroups, List.map_cons, List.map_nil, List.intercalate_singleton,
        List.append_nil, if_neg (Nat.succ_ne_zero _), List.cons_append, List.nil_append]
  | g :: h :: gs, index, _ => by
      rw [separated, separated_succ (h :: gs) (index + 1) (List.cons_ne_nil h gs)]
      simp only [separator, displayGroups, List.map_cons, List.intercalate_cons_cons, List.append_assoc,
        if_neg (Nat.succ_ne_zero _), List.cons_append, List.nil_append]

theorem displayGroups_eq (gs : List UInt16) : displayGroups gs = separated 0 gs := by
  match gs with
  | [] => rfl
  | [g] =>
      simp only [separated, separator, displayGroups, List.map_cons, List.map_nil, List.intercalate_singleton,
        List.append_nil, if_true, List.nil_append]
  | g :: h :: gs =>
      rw [separated, separated_succ (h :: gs) 0 (List.cons_ne_nil h gs)]
      simp only [separator, displayGroups, List.map_cons, List.intercalate_cons_cons, List.append_assoc, if_true,
        List.cons_append, List.nil_append]

theorem endOrColon_separated {gs : List UInt16} {rest : List Char} (hrest : EndOrGap rest) (index : ℕ) :
    EndOrColon (separated (index + 1) gs ++ rest) := by
  cases gs with
  | nil => exact hrest.endOrColon
  | cons g gs =>
      rw [separated_succ _ _ (List.cons_ne_nil g gs)]
      exact Or.inr ⟨_, rfl⟩

theorem readSeparator_separator {α : Type} (index : ℕ) (inner : List Char → Option (α × List Char)) (s : List Char) :
    readSeparator ':' index inner (separator index ++ s) = inner s := by
  unfold readSeparator separator
  split_ifs
  · rfl
  · rfl

/-- Where the groups end, no further item is read. -/
theorem readSeparator_endOrGap {α : Type} (index : ℕ) {inner : List Char → Option (α × List Char)}
    (hinner : ∀ s, EndOrColon s → inner s = none) {s : List Char} (hs : EndOrGap s) :
    readSeparator ':' index inner s = none := by
  unfold readSeparator
  split_ifs
  · exact hinner s hs.endOrColon
  · obtain rfl | ⟨r, rfl⟩ := hs
    · rfl
    · exact hinner (':' :: r) (Or.inr ⟨r, rfl⟩)

theorem readNumber_endOrColon {radix maxDigits bound : ℕ} (hradix : radix ≤ 16) (allowZeroPrefix : Bool) {s : List Char}
    (hs : EndOrColon s) : readNumber radix maxDigits bound allowZeroPrefix s = none := by
  have hread : readDigits radix s = ([], s) := by
    cases s with
    | nil => rfl
    | cons c s => rw [readDigits, hs.toDigit hradix c s rfl]
  unfold readNumber
  rw [hread]
  rfl

theorem readGroups_endOrGap (left index : ℕ) {s : List Char} (hs : EndOrGap s) :
    readGroups left index s = ([], false, s) := by
  cases left with
  | zero => rfl
  | succ left =>
      have hnumber : readSeparator ':' index (readNumber 16 4 0x10000 true) s = none :=
        readSeparator_endOrGap index (fun s hs => readNumber_endOrColon (by decide) true hs) hs
      have hipv4 : readSeparator ':' index readIpv4Addr s = none :=
        readSeparator_endOrGap index (fun s hs => readIpv4Addr_of_endOrColon (u := []) (by simp) hs) hs
      unfold readGroups
      simp only
      rw [hnumber, hipv4, ite_self]

theorem readGroups_group (left index : ℕ) (g : UInt16) {s : List Char} (hs : EndOrColon s) :
    readGroups (left + 1) index (separator index ++ (numeral 16 g.toNat ++ s)) =
      (g :: (readGroups left (index + 1) s).1, (readGroups left (index + 1) s).2) := by
  have hnumber : readSeparator ':' index (readNumber 16 4 0x10000 true)
      (separator index ++ (numeral 16 g.toNat ++ s)) = some (g.toNat, s) := by
    rw [readSeparator_separator]
    exact readNumber_numeral (by decide) (by decide) (by decide) g.toNat_lt (by decide) true
      (hs.toDigit (by decide))
  have hipv4 : readSeparator ':' index readIpv4Addr (separator index ++ (numeral 16 g.toNat ++ s)) = none := by
    rw [readSeparator_separator]
    exact readIpv4Addr_of_endOrColon (fun c hc => not_dot_of_mem_numeral hc) hs
  rw [readGroups]
  simp only
  rw [hnumber, hipv4, ite_self]
  simp only [UInt16.ofNat_toNat]

theorem readGroups_separated : ∀ (gs : List UInt16) {left : ℕ} (index : ℕ) {rest : List Char}, gs.length ≤ left →
    EndOrGap rest → readGroups left index (separated index gs ++ rest) = (gs, false, rest)
  | [], left, index, rest, _, hrest => readGroups_endOrGap left index hrest
  | g :: gs, 0, _, _, hlength, _ => absurd hlength (by simp)
  | g :: gs, left + 1, index, rest, hlength, hrest => by
      have htail := readGroups_separated gs (index + 1) (Nat.le_of_succ_le_succ hlength) hrest
      rw [separated, List.append_assoc, List.append_assoc,
        readGroups_group left index g (endOrColon_separated hrest index), htail]

theorem readGroups_separated_end (gs : List UInt16) {left : ℕ} (index : ℕ) (h : gs.length ≤ left) :
    readGroups left index (separated index gs) = (gs, false, []) := by
  have hread := readGroups_separated gs index h (Or.inl rfl)
  rwa [List.append_nil] at hread

/-! ### The zeros that are left out -/

/-- The run is there, among the groups; an empty run is anywhere. -/
def ZeroRun.IsRun (run : ZeroRun) (gs : List UInt16) : Prop :=
  ∃ p q, gs = p ++ (List.replicate run.len 0 ++ q) ∧ (run.len ≠ 0 → run.start = p.length)

/-- The run is the end of the groups. -/
def ZeroRun.IsEnd (run : ZeroRun) (gs : List UInt16) : Prop :=
  ∃ p, gs = p ++ List.replicate run.len 0 ∧ (run.len ≠ 0 → run.start = p.length)

namespace ZeroRun

variable {run : ZeroRun} {gs : List UInt16}

theorem isEnd_empty (gs : List UInt16) : IsEnd ⟨0, 0⟩ gs :=
  ⟨gs, (List.append_nil gs).symm, fun h => absurd rfl h⟩

theorem IsEnd.isRun (h : run.IsEnd gs) : run.IsRun gs := by
  obtain ⟨p, hgs, hstart⟩ := h
  refine ⟨p, [], ?_, hstart⟩
  rw [List.append_nil]
  exact hgs

theorem IsRun.append (h : run.IsRun gs) (g : UInt16) : run.IsRun (gs ++ [g]) := by
  obtain ⟨p, q, rfl, hstart⟩ := h
  refine ⟨p, q ++ [g], ?_, hstart⟩
  simp only [List.append_assoc]

theorem IsEnd.append (h : run.IsEnd gs) :
    IsEnd (if run.len = 0 then ⟨gs.length, 1⟩ else ⟨run.start, run.len + 1⟩) (gs ++ [0]) := by
  split_ifs with hlen
  · exact ⟨gs, rfl, fun _ => rfl⟩
  · obtain ⟨p, rfl, hstart⟩ := h
    refine ⟨p, ?_, fun _ => hstart hlen⟩
    rw [List.append_assoc, ← List.replicate_succ']

end ZeroRun

theorem longestZeros_isRun : ∀ (gs seen : List UInt16) {current longest : ZeroRun}, current.IsEnd seen →
    longest.IsRun seen → (longestZeros seen.length current longest gs).IsRun (seen ++ gs)
  | [], seen, _, _, _, hlongest => by
      rw [List.append_nil]
      exact hlongest
  | g :: gs, seen, current, longest, hcurrent, hlongest => by
      have hnext : seen ++ g :: gs = (seen ++ [g]) ++ gs := by rw [List.append_assoc, List.singleton_append]
      have hlength : seen.length + 1 = (seen ++ [g]).length := by rw [List.length_append, List.length_singleton]
      rw [longestZeros, hnext, hlength]
      by_cases hg : g = 0
      · subst hg
        have hlonger := hcurrent.append
        rw [if_pos rfl]
        simp only
        generalize (if current.len = 0 then ZeroRun.mk seen.length 1
          else ⟨current.start, current.len + 1⟩) = next at hlonger ⊢
        split_ifs
        · exact longestZeros_isRun gs (seen ++ [0]) hlonger hlonger.isRun
        · exact longestZeros_isRun gs (seen ++ [0]) hlonger (hlongest.append 0)
      · rw [if_neg hg]
        exact longestZeros_isRun gs (seen ++ [g]) (ZeroRun.isEnd_empty _) (hlongest.append g)

/-! ### IPv6 -/

theorem ofFn_getD_toList (segments : Vector UInt16 8) :
    Vector.ofFn (fun i : Fin 8 => segments.toList.getD i 0) = segments := by
  ext i hi
  simp

theorem readIpv6Addr_gap {p q : List UInt16} {len : ℕ} (hlen : 1 < len) (segments : Vector UInt16 8)
    (hgs : segments.toList = p ++ (List.replicate len 0 ++ q)) :
    readIpv6Addr (displayGroups p ++ "::".toList ++ displayGroups q) = some (segments, []) := by
  have hlength : p.length + (len + q.length) = 8 := by
    have h := congrArg List.length hgs
    simpa [List.length_append, List.length_replicate] using h.symm
  have hhead : readGroups 8 0 (separated 0 p ++ ':' :: ':' :: separated 0 q) =
      (p, false, ':' :: ':' :: separated 0 q) :=
    readGroups_separated p 0 (by omega) (Or.inr ⟨_, rfl⟩)
  have htail : readGroups (8 - (p.length + 1)) 0 (separated 0 q) = (q, false, []) :=
    readGroups_separated_end q 0 (by omega)
  have hgap : 8 - p.length - q.length = len := by omega
  have htext : displayGroups p ++ "::".toList ++ displayGroups q = separated 0 p ++ ':' :: ':' :: separated 0 q := by
    rw [displayGroups_eq, displayGroups_eq, List.append_assoc]
    rfl
  rw [htext]
  unfold readIpv6Addr
  rw [hhead]
  simp only [readGivenChar, if_true, Option.bind_eq_bind, Option.bind_some]
  rw [if_neg (by omega), if_neg Bool.false_ne_true, htail]
  simp only
  rw [hgap, List.append_assoc, ← hgs, ofFn_getD_toList]

theorem readIpv6Addr_groups (segments : Vector UInt16 8) :
    readIpv6Addr (displayGroups segments.toList) = some (segments, []) := by
  have hlength : segments.toList.length = 8 := segments.length_toList
  have hread : readGroups 8 0 (separated 0 segments.toList) = (segments.toList, false, []) :=
    readGroups_separated_end segments.toList 0 (by omega)
  rw [displayGroups_eq]
  unfold readIpv6Addr
  rw [hread]
  simp only
  rw [if_pos hlength, ofFn_getD_toList]

theorem readIpv6Addr_mapped (g h : UInt16) :
    readIpv6Addr ("::ffff:".toList ++ displayV4 #v[UInt8.ofNat (g.toNat / 256), UInt8.ofNat (g.toNat % 256),
      UInt8.ofNat (h.toNat / 256), UInt8.ofNat (h.toNat % 256)]) =
        some (#v[0, 0, 0, 0, 0, 0xFFFF, g, h], []) := by
  have hsplit : ∀ g : UInt16, UInt16.ofNat ((UInt8.ofNat (g.toNat / 256)).toNat * 256 +
      (UInt8.ofNat (g.toNat % 256)).toNat) = g := by
    intro g
    have hlt := g.toNat_lt
    have hvalue : (UInt8.ofNat (g.toNat / 256)).toNat * 256 + (UInt8.ofNat (g.toNat % 256)).toNat = g.toNat := by
      rw [UInt8.toNat_ofNat', UInt8.toNat_ofNat']
      omega
    rw [hvalue, UInt16.ofNat_toNat]
  generalize ho : #v[UInt8.ofNat (g.toNat / 256), UInt8.ofNat (g.toNat % 256), UInt8.ofNat (h.toNat / 256),
    UInt8.ofNat (h.toNat % 256)] = o
  have hipv4 : readSeparator ':' 1 readIpv4Addr (':' :: displayV4 o) = some (o, []) := by
    have hread := readIpv4Addr_displayV4 o (s := []) nofun
    rw [List.append_nil] at hread
    exact hread
  have htail : readGroups 7 0 ("ffff:".toList ++ displayV4 o) = ([0xFFFF, g, h], true, []) := by
    have hffff : "ffff:".toList ++ displayV4 o = separator 0 ++
        (numeral 16 (0xFFFF : UInt16).toNat ++ ':' :: displayV4 o) := by
      have hnumeral : numeral 16 (0xFFFF : UInt16).toNat = "ffff".toList := by decide +kernel
      rw [hnumeral]
      rfl
    rw [hffff, readGroups_group 6 0 0xFFFF (Or.inr ⟨_, rfl⟩), readGroups]
    simp only
    rw [if_neg (by decide), hipv4]
    subst ho
    simp only [Vector.getElem_mk, List.getElem_toArray, List.getElem_cons_zero, List.getElem_cons_succ, hsplit]
  have hhead : readGroups 8 0 ("::ffff:".toList ++ displayV4 o) = ([], false, "::ffff:".toList ++ displayV4 o) :=
    readGroups_endOrGap 8 0 (Or.inr ⟨"ffff:".toList ++ displayV4 o, rfl⟩)
  have hcolons : "::ffff:".toList ++ displayV4 o = ':' :: ':' :: ("ffff:".toList ++ displayV4 o) := rfl
  unfold readIpv6Addr
  rw [hhead, hcolons]
  simp only [readGivenChar, if_true, Option.bind_eq_bind, Option.bind_some, List.length_nil, Nat.zero_add]
  rw [if_neg (by decide), if_neg Bool.false_ne_true, htail]
  rfl

theorem readIpv6Addr_displayV6 (segments : Vector UInt16 8) :
    readIpv6Addr (displayV6 segments) = some (segments, []) := by
  unfold displayV6
  split
  · next g h hgs =>
      rw [readIpv6Addr_mapped]
      congr 2
      exact (Vector.toList_inj.mp hgs).symm
  · obtain ⟨p, q, hgs, hstart⟩ := longestZeros_isRun segments.toList []
      (ZeroRun.isEnd_empty []) (ZeroRun.isEnd_empty []).isRun
    simp only [List.length_nil, List.nil_append] at hgs hstart ⊢
    generalize longestZeros 0 ⟨0, 0⟩ ⟨0, 0⟩ segments.toList = zeroes at hgs hstart ⊢
    split_ifs with hlen
    · have htake : segments.toList.take zeroes.start = p := by
        rw [hgs, hstart (by omega), List.take_left]
      have hdrop : segments.toList.drop (zeroes.start + zeroes.len) = q := by
        rw [hgs, hstart (by omega), List.drop_length_add_append, List.drop_left' List.length_replicate]
      rw [htake, hdrop]
      exact readIpv6Addr_gap hlen segments hgs
    · exact readIpv6Addr_groups segments

/-- The display of an IPv6 address has no dot before its first colon. -/
theorem readIpv4Addr_displayV6 (segments : Vector UInt16 8) : readIpv4Addr (displayV6 segments) = none := by
  have hgroups : ∀ gs s, EndOrGap s → readIpv4Addr (displayGroups gs ++ s) = none := by
    intro gs s hs
    rw [displayGroups_eq]
    cases gs with
    | nil => exact readIpv4Addr_of_endOrColon (u := []) (by simp) hs.endOrColon
    | cons g gs =>
        have hfirst : separator 0 = [] := rfl
        rw [separated, hfirst, List.nil_append, List.append_assoc]
        exact readIpv4Addr_of_endOrColon (fun c hc => not_dot_of_mem_numeral hc) (endOrColon_separated hs 0)
  unfold displayV6
  split
  · exact readIpv4Addr_of_endOrColon (u := []) (by simp) (Or.inr ⟨_, rfl⟩)
  · simp only
    split_ifs
    · rw [List.append_assoc]
      exact hgroups _ _ (Or.inr ⟨_, rfl⟩)
    · have h := hgroups segments.toList [] (Or.inl rfl)
      rwa [List.append_nil] at h

/-- **An address is read back from its display.** -/
theorem parse_display (a : IpAddr) : parse (display a) = some a := by
  cases a with
  | v4 o =>
      have hread := readIpv4Addr_displayV4 o (s := []) nofun
      rw [List.append_nil] at hread
      unfold parse readIpAddr display
      rw [hread]
  | v6 g =>
      unfold parse readIpAddr display
      rw [readIpv4Addr_displayV6, readIpv6Addr_displayV6]
      rfl

/-! ### Length -/

theorem length_intercalate_le (sep : Char) {k : ℕ} : ∀ {xs : List (List Char)}, (∀ x ∈ xs, x.length ≤ k) →
    ([sep].intercalate xs).length ≤ (k + 1) * xs.length
  | [], _ => Nat.zero_le _
  | [x], h => by
      have hx := h x List.mem_cons_self
      rw [List.intercalate_singleton, List.length_singleton]
      omega
  | x :: y :: xs, h => by
      have hx := h x List.mem_cons_self
      have hrest := length_intercalate_le sep (fun z hz => h z (List.mem_cons_of_mem x hz))
      rw [List.intercalate_cons_cons, List.length_append, List.length_append, List.length_singleton, List.length_cons,
        Nat.mul_succ]
      omega

theorem length_displayV4_le (o : Vector UInt8 4) : (displayV4 o).length ≤ 16 := by
  have hdecimal : ∀ x ∈ o.toList.map (fun b => decimal b.toNat), x.length ≤ 3 := by
    intro x hx
    obtain ⟨b, -, rfl⟩ := List.mem_map.mp hx
    have hb := b.toNat_lt
    unfold decimal
    rw [numeral_eq, List.length_map]
    exact length_shownDigits_le (by decide) (by decide) (by omega)
  have hle := length_intercalate_le '.' hdecimal
  rw [List.length_map, Vector.length_toList] at hle
  exact hle

theorem length_displayGroups_le (gs : List UInt16) : (displayGroups gs).length ≤ 5 * gs.length := by
  have hgroup : ∀ x ∈ gs.map (fun g => numeral 16 g.toNat), x.length ≤ 4 := by
    intro x hx
    obtain ⟨g, -, rfl⟩ := List.mem_map.mp hx
    have hg := g.toNat_lt
    rw [numeral_eq, List.length_map]
    exact length_shownDigits_le (by decide) (by decide) (by omega)
  have hle := length_intercalate_le ':' hgroup
  rwa [List.length_map] at hle

theorem length_display_le (a : IpAddr) : (display a).length ≤ 42 := by
  cases a with
  | v4 o => exact (length_displayV4_le o).trans (by decide)
  | v6 segments =>
      have hgroups : segments.toList.length = 8 := Vector.length_toList
      show (displayV6 segments).length ≤ 42
      unfold displayV6
      split
      · have hmapped := length_displayV4_le
        rw [List.length_append]
        exact Nat.add_le_add (by decide) ((hmapped _).trans (by decide : 16 ≤ 35))
      · simp only
        split_ifs
        · generalize longestZeros 0 ⟨0, 0⟩ ⟨0, 0⟩ segments.toList = zeroes
          have hbefore := length_displayGroups_le (segments.toList.take zeroes.start)
          have hafter := length_displayGroups_le (segments.toList.drop (zeroes.start + zeroes.len))
          rw [List.length_take] at hbefore
          rw [List.length_drop] at hafter
          have hgap : "::".toList.length = 2 := rfl
          rw [List.length_append, List.length_append, hgap]
          omega
        · have hall := length_displayGroups_le segments.toList
          omega

end PurpleWolf.IpAddr
