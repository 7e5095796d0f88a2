import Mathlib.Data.List.DropRight
import Mathlib.Tactic

/-! # Text operations of the standard library

Counterparts of the `str` and `char` methods used by the models, on texts as lists of
characters.  Splitting at a separator is `List.splitOn`. -/

namespace PurpleWolf.Text

/-- What holds of every element of a text is decided along the text, not by going through
the type of its elements. -/
instance (priority := high) decidableForallMem {α : Type} {p : α → Prop} [DecidablePred p] (s : List α) :
    Decidable (∀ c ∈ s, p c) :=
  List.decidableBAll p s

/-- What holds of the first code points holds of every ASCII character. -/
theorem forall_ascii {p : Char → Prop} (h : ∀ n < 0x80, p (Char.ofNat n)) (c : Char) (hc : c.toNat < 0x80) : p c := by
  rw [← Char.ofNat_toNat c]
  exact h c.toNat hc

theorem forall_byte {p : UInt8 → Prop} (h : ∀ n < 0x100, p (UInt8.ofNat n)) (b : UInt8) : p b := by
  rw [← UInt8.ofNat_toNat (x := b)]
  exact h b.toNat b.toNat_lt

/-! ### Trimming -/

/-- `char::is_whitespace`: the Unicode property White_Space. -/
def isWhitespace (c : Char) : Bool :=
  (0x09 ≤ c.toNat && c.toNat ≤ 0x0D) || c.toNat == 0x20 || c.toNat == 0x85 || c.toNat == 0xA0 ||
    c.toNat == 0x1680 || (0x2000 ≤ c.toNat && c.toNat ≤ 0x200A) || c.toNat == 0x2028 ||
    c.toNat == 0x2029 || c.toNat == 0x202F || c.toNat == 0x205F || c.toNat == 0x3000

/-- `str::trim`. -/
def trim (s : List Char) : List Char := (s.dropWhile isWhitespace).rdropWhile isWhitespace

theorem trim_cons_of_isWhitespace {c : Char} (h : isWhitespace c = true) (s : List Char) :
    trim (c :: s) = trim s := by
  unfold trim
  rw [List.dropWhile_cons_of_pos h]

theorem trim_of_forall {s : List Char} (h : ∀ c ∈ s, isWhitespace c = false) : trim s = s := by
  have hstart : s.dropWhile isWhitespace = s := by
    cases s with
    | nil => rfl
    | cons c s => rw [List.dropWhile_cons_of_neg (by rw [h c List.mem_cons_self]; decide)]
  unfold trim
  rw [hstart, List.rdropWhile_eq_self_iff]
  intro hne
  rw [h _ (List.getLast_mem hne)]
  decide

/-! ### Splitting -/

/-- `str::split_once` at a character: the text before its first occurrence, and after. -/
def splitOnce (sep : Char) : List Char → Option (List Char × List Char)
  | [] => none
  | c :: s => if c = sep then some ([], s) else (splitOnce sep s).map (fun (k, v) => (c :: k, v))

theorem splitOnce_append {sep : Char} {a : List Char} (h : sep ∉ a) (b : List Char) :
    splitOnce sep (a ++ sep :: b) = some (a, b) := by
  induction a with
  | nil =>
      rw [List.nil_append, splitOnce, if_pos rfl]
  | cons c a ih =>
      rw [List.mem_cons, not_or] at h
      rw [List.cons_append, splitOnce, if_neg (Ne.symm h.1), ih h.2]
      rfl

theorem splitOnce_eq_none {sep : Char} {a : List Char} (h : sep ∉ a) : splitOnce sep a = none := by
  induction a with
  | nil => rfl
  | cons c a ih =>
      rw [List.mem_cons, not_or] at h
      rw [splitOnce, if_neg (Ne.symm h.1), ih h.2]
      rfl

theorem splitOnce_eq_some {sep : Char} {s a b : List Char} (h : splitOnce sep s = some (a, b)) :
    s = a ++ sep :: b := by
  by_cases hmem : sep ∈ s
  · obtain ⟨as, bs, rfl, hnot⟩ := List.eq_append_cons_of_mem hmem
    rw [splitOnce_append hnot] at h
    cases h
    rfl
  · rw [splitOnce_eq_none hmem] at h
    cases h

theorem splitOnce_append_right {sep : Char} {s a b : List Char} (h : splitOnce sep s = some (a, b)) (t : List Char) :
    splitOnce sep (s ++ t) = some (a, b ++ t) := by
  induction s generalizing a with
  | nil => cases h
  | cons c s ih =>
      rw [splitOnce] at h
      rw [List.cons_append, splitOnce]
      split_ifs at h ⊢ with hc
      · cases h
        rfl
      · obtain ⟨⟨k, v⟩, hsplit, heq⟩ := Option.map_eq_some_iff.mp h
        cases heq
        rw [ih hsplit]
        rfl

/-- `str::rsplit_once` at a character: the text before its last occurrence, and after. -/
def rsplitOnce (sep : Char) (s : List Char) : Option (List Char × List Char) :=
  (splitOnce sep s.reverse).map (fun (after, before) => (before.reverse, after.reverse))

theorem rsplitOnce_append {sep : Char} {b : List Char} (h : sep ∉ b) (a : List Char) :
    rsplitOnce sep (a ++ sep :: b) = some (a, b) := by
  have hrev : (a ++ sep :: b).reverse = b.reverse ++ sep :: a.reverse := by simp
  unfold rsplitOnce
  rw [hrev, splitOnce_append (by simpa using h)]
  simp

theorem rsplitOnce_eq_some {sep : Char} {s a b : List Char} (h : rsplitOnce sep s = some (a, b)) :
    s = a ++ sep :: b := by
  obtain ⟨⟨after, before⟩, hsplit, heq⟩ := Option.map_eq_some_iff.mp h
  cases heq
  have hrev := congrArg List.reverse (splitOnce_eq_some hsplit)
  simpa using hrev

/-! ### Byte offsets

A `str` is indexed by bytes; an index inside a character is out of the question. -/

/-- `str::len`. -/
def byteLen : List Char → ℕ
  | [] => 0
  | c :: s => c.utf8Size + byteLen s

/-- `&s[n..]`: nothing if `n` is out of range or inside a character. -/
def sliceFrom : ℕ → List Char → Option (List Char)
  | 0, s => some s
  | _ + 1, [] => none
  | n + 1, c :: s => if c.utf8Size ≤ n + 1 then sliceFrom (n + 1 - c.utf8Size) s else none

/-- `str::find`: the index of the first occurrence. -/
def find (pat : List Char) : List Char → Option ℕ
  | [] => if pat.isEmpty then some 0 else none
  | c :: s => if pat.isPrefixOf (c :: s) then some 0 else (find pat s).map (c.utf8Size + ·)

@[simp] theorem byteLen_append (a b : List Char) : byteLen (a ++ b) = byteLen a + byteLen b := by
  induction a with
  | nil => exact (Nat.zero_add _).symm
  | cons c a ih =>
      rw [List.cons_append, byteLen, byteLen, ih]
      omega

theorem byteLen_eq_zero {s : List Char} : byteLen s = 0 ↔ s = [] := by
  cases s with
  | nil => exact ⟨fun _ => rfl, fun _ => rfl⟩
  | cons c s =>
      have := c.utf8Size_pos
      simp only [byteLen, List.cons_ne_nil, iff_false]
      omega

theorem sliceFrom_append (a b : List Char) : sliceFrom (byteLen a) (a ++ b) = some b := by
  induction a with
  | nil =>
      rw [byteLen, List.nil_append]
      cases b <;> rfl
  | cons c a ih =>
      obtain ⟨n, hn⟩ : ∃ n, byteLen (c :: a) = n + 1 := by
        have := c.utf8Size_pos
        exact ⟨byteLen (c :: a) - 1, by rw [byteLen]; omega⟩
      have hrest : n + 1 - c.utf8Size = byteLen a := by
        rw [byteLen] at hn
        omega
      rw [hn, List.cons_append, sliceFrom, if_pos (by rw [byteLen] at hn; omega), hrest, ih]

theorem find_eq_none {pat s : List Char} (h : find pat s = none) (a b : List Char) : s ≠ a ++ (pat ++ b) := by
  induction s generalizing a with
  | nil =>
      intro heq
      obtain ⟨-, hb⟩ := List.append_eq_nil_iff.mp heq.symm
      rw [(List.append_eq_nil_iff.mp hb).1] at h
      cases h
  | cons c s ih =>
      rw [find] at h
      split_ifs at h with hprefix
      rw [Option.map_eq_none_iff] at h
      intro heq
      cases a with
      | nil =>
          apply hprefix
          rw [heq, List.nil_append, List.isPrefixOf_iff_prefix]
          exact List.prefix_append _ _
      | cons d a =>
          obtain ⟨rfl, hrest⟩ := List.cons.inj heq
          exact ih h a hrest

theorem find_eq_some {pat s : List Char} {i : ℕ} (h : find pat s = some i) :
    ∃ a b, i = byteLen a ∧ s = a ++ (pat ++ b) ∧ ∀ a' b', s = a' ++ (pat ++ b') → a.length ≤ a'.length := by
  induction s generalizing i with
  | nil =>
      rw [find] at h
      split_ifs at h with hpat
      cases h
      rw [List.isEmpty_iff] at hpat
      exact ⟨[], [], rfl, by rw [hpat]; rfl, fun _ _ _ => Nat.zero_le _⟩
  | cons c s ih =>
      rw [find] at h
      split_ifs at h with hprefix
      · cases h
        obtain ⟨b, hb⟩ := List.isPrefixOf_iff_prefix.mp hprefix
        exact ⟨[], b, rfl, hb.symm, fun _ _ _ => Nat.zero_le _⟩
      · obtain ⟨j, hj, rfl⟩ := Option.map_eq_some_iff.mp h
        obtain ⟨a, b, rfl, rfl, hfirst⟩ := ih hj
        refine ⟨c :: a, b, rfl, rfl, ?_⟩
        intro a' b' heq
        cases a' with
        | nil =>
            exfalso
            apply hprefix
            rw [heq, List.nil_append, List.isPrefixOf_iff_prefix]
            exact List.prefix_append _ _
        | cons d a' =>
            obtain ⟨rfl, hrest⟩ := List.cons.inj heq
            exact Nat.succ_le_succ (hfirst a' b' hrest)

/-! ### Replacing -/

/-- The replacement of every occurrence, `skip` characters of the current one being left to
drop. -/
def replaceFrom (pat rep : List Char) : ℕ → List Char → List Char
  | _, [] => []
  | skip + 1, _ :: s => replaceFrom pat rep skip s
  | 0, c :: s =>
      if pat.isPrefixOf (c :: s) then rep ++ replaceFrom pat rep (pat.length - 1) s
      else c :: replaceFrom pat rep 0 s

/-- `str::replace`, for a pattern that is not empty. -/
def replace (pat rep s : List Char) : List Char := replaceFrom pat rep 0 s

theorem replaceFrom_length (pat rep a b : List Char) : replaceFrom pat rep a.length (a ++ b) = replace pat rep b := by
  induction a with
  | nil => rfl
  | cons c a ih => exact ih

theorem replace_of_not_infix {pat rep s : List Char} (h : ¬ pat <:+: s) : replace pat rep s = s := by
  induction s with
  | nil => rfl
  | cons c s ih =>
      have hno : ¬ pat.isPrefixOf (c :: s) = true := by
        rw [List.isPrefixOf_iff_prefix]
        exact fun hpre => h hpre.isInfix
      unfold replace at ih ⊢
      rw [replaceFrom, if_neg hno, ih (fun hs => h (hs.trans (List.suffix_cons c s).isInfix))]

/-- A pattern whose first character does not come again cannot begin before its occurrence. -/
theorem not_prefix_of_not_infix {d : Char} {pat a b : List Char} (hd : d ∉ pat) (ha : a ≠ [])
    (hno : ¬ (d :: pat) <:+: a) : ¬ (d :: pat) <+: a ++ ((d :: pat) ++ b) := by
  intro hpre
  obtain hle | hlt := le_or_gt (d :: pat).length a.length
  · exact hno (List.prefix_of_prefix_length_le hpre (List.prefix_append a _) hle).isInfix
  · obtain ⟨r, hr⟩ := List.prefix_of_prefix_length_le (List.prefix_append a ((d :: pat) ++ b)) hpre hlt.le
    rw [← hr, List.append_assoc, List.prefix_append_right_inj] at hpre
    cases a with
    | nil => exact ha rfl
    | cons d' a =>
        rw [List.cons_append] at hr
        obtain ⟨rfl, rfl⟩ := List.cons.inj hr
        cases r with
        | nil => simp at hlt
        | cons e r =>
            obtain ⟨rfl, -⟩ := List.cons_prefix_cons.mp hpre
            exact hd (List.mem_append_right _ List.mem_cons_self)

theorem replace_append {d : Char} {pat rep a : List Char} (hd : d ∉ pat) (hno : ¬ (d :: pat) <:+: a) (b : List Char) :
    replace (d :: pat) rep (a ++ ((d :: pat) ++ b)) = a ++ (rep ++ replace (d :: pat) rep b) := by
  induction a with
  | nil =>
      have hpre : (d :: pat).isPrefixOf ((d :: pat) ++ b) = true :=
        List.isPrefixOf_iff_prefix.mpr (List.prefix_append _ b)
      rw [List.nil_append, List.nil_append, List.cons_append] at *
      unfold replace
      rw [replaceFrom, if_pos hpre, List.length_cons, Nat.add_sub_cancel, replaceFrom_length]
      rfl
  | cons c a ih =>
      have hpre : ¬ (d :: pat).isPrefixOf (c :: (a ++ ((d :: pat) ++ b))) = true := by
        rw [List.isPrefixOf_iff_prefix]
        exact not_prefix_of_not_infix hd (List.cons_ne_nil c a) hno
      have hrest : ¬ (d :: pat) <:+: a := fun ha => hno (ha.trans (List.suffix_cons c a).isInfix)
      unfold replace at ih ⊢
      rw [List.cons_append, replaceFrom, if_neg hpre, ih hrest]
      rfl

/-! ### Digits -/

/-- `char::to_digit`, for radix 10 and 16. -/
def toDigit (radix : ℕ) (c : Char) : Option ℕ :=
  let d :=
    if '0' ≤ c ∧ c ≤ '9' then c.toNat - '0'.toNat
    else if 'a' ≤ c ∧ c ≤ 'f' then c.toNat - 'a'.toNat + 10
    else if 'A' ≤ c ∧ c ≤ 'F' then c.toNat - 'A'.toNat + 10
    else radix
  if d < radix then some d else none

theorem toNat_lt_of_toDigit {c : Char} (h : (toDigit 16 c).isSome) : c.toNat < 0x80 := by
  have hle : ∀ d : Char, c ≤ d → d.toNat < 0x80 → c.toNat < 0x80 :=
    fun d hd hlt => lt_of_le_of_lt (UInt32.le_iff_toNat_le.mp hd) hlt
  unfold toDigit at h
  simp only at h
  by_cases hdigit : '0' ≤ c ∧ c ≤ '9'
  · exact hle '9' hdigit.2 (by decide)
  by_cases hlower : 'a' ≤ c ∧ c ≤ 'f'
  · exact hle 'f' hlower.2 (by decide)
  by_cases hupper : 'A' ≤ c ∧ c ≤ 'F'
  · exact hle 'F' hupper.2 (by decide)
  · rw [if_neg hdigit, if_neg hlower, if_neg hupper] at h
    cases h

/-- The longest run of digits, and the rest. -/
def readDigits (radix : ℕ) : List Char → List ℕ × List Char
  | [] => ([], [])
  | c :: s =>
      match toDigit radix c with
      | some d => (d :: (readDigits radix s).1, (readDigits radix s).2)
      | none => ([], c :: s)

/-- `str::parse` for an unsigned type with the values below `bound`: digits, after at most
one plus sign. -/
def parseUnsigned (bound : ℕ) (s : List Char) : Option ℕ :=
  let s := if s.head? = some '+' then s.tail else s
  match readDigits 10 s with
  | (d :: ds, []) =>
      let value := (d :: ds).foldl (fun n d => n * 10 + d) 0
      if value < bound then some value else none
  | _ => none

theorem isDigit_of_readDigits {radix : ℕ} : ∀ {s : List Char}, (readDigits radix s).2 = [] →
    ∀ c ∈ s, (toDigit radix c).isSome
  | [], _, c, hc => absurd hc List.not_mem_nil
  | d :: s, h, c, hc => by
      unfold readDigits at h
      cases hd : toDigit radix d with
      | none =>
          rw [hd] at h
          cases h
      | some v =>
          rw [hd] at h
          obtain rfl | hc := List.mem_cons.mp hc
          · rw [hd]
            rfl
          · exact isDigit_of_readDigits h c hc

theorem mem_of_parseUnsigned {bound : ℕ} {s : List Char} (h : (parseUnsigned bound s).isSome) :
    s ≠ [] ∧ ∀ c ∈ s, c = '+' ∨ (toDigit 10 c).isSome := by
  constructor
  · rintro rfl
    cases h
  · intro c hc
    unfold parseUnsigned at h
    simp only at h
    split at h
    · next heq =>
        have hdigits := isDigit_of_readDigits (congrArg Prod.snd heq)
        cases s with
        | nil => cases hc
        | cons d s =>
            split_ifs at hdigits with hplus
            · obtain rfl | hc := List.mem_cons.mp hc
              · left
                simpa using hplus
              · exact Or.inr (hdigits c hc)
            · exact Or.inr (hdigits c hc)
    · cases h

/-- `char::from_digit`. -/
def digitChar (d : ℕ) : Char := Char.ofNat (if d < 10 then '0'.toNat + d else 'a'.toNat + (d - 10))

/-- The digits of a number, most significant first (`to_string`, `format!("{:x}")`). -/
def numeral (radix n : ℕ) : List Char :=
  if n = 0 then ['0'] else (Nat.digits radix n).reverse.map digitChar

def decimal (n : ℕ) : List Char := numeral 10 n

theorem readDigits_map {radix : ℕ} (hradix : radix ≤ 16) {ds : List ℕ} {s : List Char} (hds : ∀ d ∈ ds, d < radix)
    (hs : ∀ c t, s = c :: t → toDigit radix c = none) : readDigits radix (ds.map digitChar ++ s) = (ds, s) := by
  induction ds with
  | nil =>
      cases s with
      | nil => rfl
      | cons c s => rw [List.map_nil, List.nil_append, readDigits, hs c s rfl]
  | cons d ds ih =>
      have hdigit : ∀ radix ≤ 16, ∀ d < radix, toDigit radix (digitChar d) = some d := by decide
      rw [List.map_cons, List.cons_append, readDigits, hdigit radix hradix d (hds d List.mem_cons_self),
        ih (fun x hx => hds x (List.mem_cons_of_mem d hx))]

/-- The digits that a numeral shows, most significant first: zero shows one. -/
def shownDigits (radix n : ℕ) : List ℕ := if n = 0 then [0] else (Nat.digits radix n).reverse

theorem numeral_eq (radix n : ℕ) : numeral radix n = (shownDigits radix n).map digitChar := by
  unfold numeral shownDigits
  split_ifs
  · decide
  · rfl

theorem shownDigits_ne_nil (radix n : ℕ) : shownDigits radix n ≠ [] := by
  unfold shownDigits
  split_ifs with hn
  · exact List.cons_ne_nil 0 []
  · simpa [Nat.digits_ne_nil_iff_ne_zero] using hn

theorem shownDigits_lt {radix : ℕ} (hradix : 1 < radix) (n : ℕ) : ∀ d ∈ shownDigits radix n, d < radix := by
  intro d hd
  unfold shownDigits at hd
  split_ifs at hd
  · rw [List.mem_singleton.mp hd]
    omega
  · exact Nat.digits_lt_base hradix (List.mem_reverse.mp hd)

theorem ofDigits_shownDigits (radix n : ℕ) : Nat.ofDigits radix (shownDigits radix n).reverse = n := by
  unfold shownDigits
  split_ifs with hn
  · simp [hn]
  · rw [List.reverse_reverse, Nat.ofDigits_digits]

theorem foldl_digits (radix : ℕ) (ds : List ℕ) :
    ds.foldl (fun n d => n * radix + d) 0 = Nat.ofDigits radix ds.reverse := by
  rw [Nat.ofDigits_eq_foldr, List.foldr_reverse]
  congr 1
  funext n d
  simp only [Nat.cast_id]
  ring

theorem length_shownDigits_of_zero {radix n : ℕ} (h : (shownDigits radix n).head? = some 0) :
    (shownDigits radix n).length = 1 := by
  unfold shownDigits at h ⊢
  split_ifs at h ⊢ with hn
  · rfl
  · rw [List.head?_reverse] at h
    obtain ⟨hne, hlast⟩ := List.mem_getLast?_eq_getLast h
    exact absurd hlast.symm (Nat.getLast_digit_ne_zero radix hn)

theorem length_shownDigits_le {radix n k : ℕ} (hradix : 1 < radix) (hk : 0 < k) (h : n < radix ^ k) :
    (shownDigits radix n).length ≤ k := by
  unfold shownDigits
  split_ifs
  · exact hk
  · rw [List.length_reverse]
    exact (Nat.digits_length_le_iff hradix n).mpr h

theorem mem_decimal {n : ℕ} {c : Char} (h : c ∈ decimal n) : 0x30 ≤ c.toNat ∧ c.toNat ≤ 0x39 := by
  have hdigit : ∀ d < 10, 0x30 ≤ (digitChar d).toNat ∧ (digitChar d).toNat ≤ 0x39 := by decide
  unfold decimal at h
  rw [numeral_eq] at h
  obtain ⟨d, hd, rfl⟩ := List.mem_map.mp h
  exact hdigit d (shownDigits_lt (by decide) n d hd)

theorem parseUnsigned_decimal {bound n : ℕ} (h : n < bound) : parseUnsigned bound (decimal n) = some n := by
  have hread : readDigits 10 (decimal n) = (shownDigits 10 n, []) := by
    have hmap : readDigits 10 ((shownDigits 10 n).map digitChar ++ []) = (shownDigits 10 n, []) :=
      readDigits_map (by decide) (shownDigits_lt (by decide) n) nofun
    rw [List.append_nil] at hmap
    unfold decimal
    rw [numeral_eq, hmap]
  have hplus : (decimal n).head? ≠ some '+' := by
    intro hhead
    have hdigit := mem_decimal (List.mem_of_head? hhead)
    exact absurd hdigit.1 (by decide)
  have hvalue := ofDigits_shownDigits 10 n
  unfold parseUnsigned
  simp only
  rw [if_neg hplus, hread]
  cases hds : shownDigits 10 n with
  | nil => exact absurd hds (shownDigits_ne_nil 10 n)
  | cons d ds =>
      simp only
      rw [foldl_digits, ← hds, hvalue, if_pos h]

/-! ### ASCII case -/

/-- `str::to_ascii_lowercase`. -/
def toAsciiLowercase (s : List Char) : List Char := s.map Char.toLower

theorem toLower_idem (c : Char) : c.toLower.toLower = c.toLower := by
  have hascii : ∀ c : Char, c.toNat < 0x80 → c.toLower.toLower = c.toLower := forall_ascii (by decide)
  by_cases hc : c.toNat < 0x80
  · exact hascii c hc
  · have hsame : c.toLower = c := by
      have : c.toNat = c.val.toNat := rfl
      have : 'Z'.val.toNat = 90 := rfl
      unfold Char.toLower
      rw [dif_neg]
      rw [UInt32.le_iff_toNat_le (b := 'Z'.val)]
      omega
    rw [hsame, hsame]

theorem toAsciiLowercase_idem (s : List Char) : toAsciiLowercase (toAsciiLowercase s) = toAsciiLowercase s := by
  unfold toAsciiLowercase
  rw [List.map_map]
  exact List.map_congr_left fun c _ => toLower_idem c

/-- `str::to_ascii_uppercase`. -/
def toAsciiUppercase (s : List Char) : List Char := s.map Char.toUpper

/-- `u8::to_ascii_lowercase`. -/
def byteToAsciiLowercase (b : UInt8) : UInt8 := if 0x41 ≤ b ∧ b ≤ 0x5A then b + 0x20 else b

/-- `str::eq_ignore_ascii_case`. -/
def eqIgnoreAsciiCase (s t : List Char) : Bool := toAsciiLowercase s == toAsciiLowercase t

theorem eqIgnoreAsciiCase_iff {s t : List Char} :
    eqIgnoreAsciiCase s t = true ↔ toAsciiLowercase s = toAsciiLowercase t := beq_iff_eq

end PurpleWolf.Text
