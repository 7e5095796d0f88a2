import PurpleWolf.Lib.Text
import PurpleWolf.Libinjection.SqliTokenizer
import Mathlib.Data.List.Lex

/-! # Words of the table

`isKeyword` searches the table by halves and compares as the target compares characters.  What
it answers depends on neither: it is the type of the word that the key is in upper case. -/

namespace PurpleWolf.Sqli

open Memory Html5 Xss

/-! ### Comparing -/

theorem charDiff_neg_iff (signedChar : Bool) {a b : UInt8} (ha : a < 128) (hb : b < 128) :
    charDiff signedChar a b < 0 ↔ a < b := by
  have hsmall : ∀ c : UInt8, c < 128 → c.toInt8.toInt = (c.toNat : ℤ) := by
    apply Text.forall_byte
    decide +kernel
  unfold charDiff
  rw [hsmall a ha, hsmall b hb, ite_self, UInt8.lt_iff_toNat_lt]
  omega

theorem charDiff_eq_zero_iff (signedChar : Bool) {a b : UInt8} : charDiff signedChar a b = 0 ↔ a = b := by
  unfold charDiff
  constructor
  · intro h
    split_ifs at h
    · have hint : a.toInt8.toInt = b.toInt8.toInt := by omega
      rw [← a.toUInt8_toInt8, Int8.toInt_inj.mp hint, b.toUInt8_toInt8]
    · exact UInt8.toNat_inj.mp (by omega)
  · rintro rfl
    split_ifs <;> omega

/-- What holds of the bytes of a word. -/
def WordByte (b : UInt8) : Prop := 0 < b ∧ b < 128 ∧ upcase b = b

section

variable (signedChar : Bool)

theorem headD_ne_zero {a : Bytes} (ha : ∀ b ∈ a, 0 < b) (hne : a ≠ []) : a.headD 0 ≠ 0 := by
  cases a with
  | nil => exact absurd rfl hne
  | cons b a => exact UInt8.pos_iff_ne_zero.mp (ha b List.mem_cons_self)

/-- Two texts compare equal when they are, up to case. -/
theorem cstrcasecmp_eq_zero_iff : ∀ (a b : Bytes), (∀ c ∈ a, 0 < c) →
    (cstrcasecmp signedChar a b = 0 ↔ a = b.map upcase)
  | [], [], _ => ⟨fun _ => rfl, fun _ => rfl⟩
  | c :: a, [], ha => by
      unfold cstrcasecmp
      rw [if_neg (headD_ne_zero ha (List.cons_ne_nil c a)), List.map_nil]
      exact iff_of_false one_ne_zero (List.cons_ne_nil c a)
  | [], cb :: b, _ => by
      refine iff_of_false ?_ (List.cons_ne_nil _ _).symm
      unfold cstrcasecmp
      rw [List.headD_nil, if_pos rfl]
      split_ifs with hne
      · exact fun h => hne ((charDiff_eq_zero_iff signedChar).mp h)
      · decide
  | c :: a, cb :: b, ha => by
      unfold cstrcasecmp
      rw [List.headD_cons, List.tail_cons, List.map_cons, List.cons.injEq]
      by_cases hc : c = upcase cb
      · rw [if_neg (not_not_intro hc), if_neg (UInt8.pos_iff_ne_zero.mp (ha c List.mem_cons_self)),
          cstrcasecmp_eq_zero_iff a b (fun d hd => ha d (List.mem_cons_of_mem _ hd))]
        exact ⟨fun h => ⟨hc, h⟩, fun h => h.2⟩
      · rw [if_pos hc]
        exact ⟨fun h => absurd ((charDiff_eq_zero_iff signedChar).mp h) hc, fun h => absurd h.1 hc⟩

/-- Among words the order is that of the bytes. -/
theorem cstrcasecmp_neg_iff : ∀ (a b : Bytes), (∀ c ∈ a, WordByte c) → (∀ c ∈ b.map upcase, WordByte c) →
    (cstrcasecmp signedChar a b < 0 ↔ a < b.map upcase)
  | [], [], _, _ => by decide +revert
  | c :: a, [], ha, _ => by
      unfold cstrcasecmp
      rw [if_neg (headD_ne_zero (fun d hd => (ha d hd).1) (List.cons_ne_nil c a)), List.map_nil]
      exact iff_of_false (by decide) (List.not_lt_nil _)
  | [], cb :: b, _, hb => by
      obtain ⟨hpos, hlt, -⟩ := hb (upcase cb) List.mem_cons_self
      unfold cstrcasecmp
      rw [List.headD_nil, if_pos (UInt8.pos_iff_ne_zero.mp hpos).symm, charDiff_neg_iff signedChar (by decide) hlt]
      exact ⟨fun _ => List.nil_lt_cons _ _, fun _ => hpos⟩
  | c :: a, cb :: b, ha, hb => by
      obtain ⟨hpos, hlt, -⟩ := ha c List.mem_cons_self
      obtain ⟨-, hlt', -⟩ := hb (upcase cb) List.mem_cons_self
      unfold cstrcasecmp
      rw [List.headD_cons, List.tail_cons, List.map_cons, List.cons_lt_cons_iff]
      by_cases hc : c = upcase cb
      · rw [if_neg (not_not_intro hc), if_neg (UInt8.pos_iff_ne_zero.mp hpos),
          cstrcasecmp_neg_iff a b (fun d hd => ha d (List.mem_cons_of_mem _ hd))
            (fun d hd => hb d (List.mem_cons_of_mem _ hd))]
        exact ⟨fun h => Or.inr ⟨hc, h⟩, fun h => h.elim (fun hlt => absurd hc (UInt8.ne_of_lt hlt)) And.right⟩
      · rw [if_pos hc, charDiff_neg_iff signedChar hlt hlt']
        exact ⟨Or.inl, fun h => h.elim id (fun h => absurd h.1 hc)⟩

end

/-! ### Searching -/

namespace KeywordTable

variable (T : KeywordTable)

/-- The type of a key: that of the word that it is in upper case. -/
def typeOf (key : Bytes) : TokenType := (T.entries.lookup (key.map upcase)).getD .none

variable {T}

theorem word_pos {e : Bytes × TokenType} (he : e ∈ T.entries) : ∀ c ∈ e.1, 0 < c :=
  fun c hc => ((T.words e he).2 c hc).1

theorem index_unique {i j : ℕ} {e e' : Bytes × TokenType} (hi : T.entries[i]? = some e) (hj : T.entries[j]? = some e')
    (h : e.1 = e'.1) : i = j := by
  obtain ⟨hilt, rfl⟩ := List.getElem?_eq_some_iff.mp hi
  obtain ⟨hjlt, rfl⟩ := List.getElem?_eq_some_iff.mp hj
  have hlt := List.pairwise_iff_getElem.mp T.sorted
  rcases Nat.lt_trichotomy i j with hij | rfl | hij
  · exact absurd (hlt i j hilt hjlt hij) (h ▸ List.lt_irrefl _)
  · rfl
  · exact absurd (hlt j i hjlt hilt hij) (h ▸ List.lt_irrefl _)

theorem lookup_eq_some {key : Bytes} {type : TokenType} (h : T.entries.lookup key = some type) :
    (key, type) ∈ T.entries := by
  generalize T.entries = entries at h
  induction entries with
  | nil => cases h
  | cons e entries ih =>
      rw [List.lookup_cons] at h
      split at h
      · next hkey =>
          cases h
          rw [eq_of_beq hkey]
          exact List.mem_cons_self
      · exact List.mem_cons_of_mem _ (ih h)

theorem typeOf_of_mem {key : Bytes} {type : TokenType} (h : (key.map upcase, type) ∈ T.entries) :
    T.typeOf key = type := by
  unfold typeOf
  cases hlookup : T.entries.lookup (key.map upcase) with
  | none => exact absurd (List.lookup_eq_none_iff.mp hlookup _ h) (by simp)
  | some type' =>
      obtain ⟨i, hi⟩ := List.mem_iff_getElem?.mp h
      obtain ⟨j, hj⟩ := List.mem_iff_getElem?.mp (lookup_eq_some hlookup)
      obtain rfl := index_unique hi hj rfl
      rw [hi] at hj
      exact (Prod.mk.inj (Option.some.inj hj)).2.symm

theorem typeOf_eq_none {key : Bytes} (h : ∀ e ∈ T.entries, e.1 ≠ key.map upcase) : T.typeOf key = .none := by
  unfold typeOf
  have hlookup : T.entries.lookup (key.map upcase) = none :=
    List.lookup_eq_none_iff.mpr fun e he => bne_iff_ne.mpr (h e he).symm
  rw [hlookup]
  rfl

theorem mem_of_typeOf {key : Bytes} {type : TokenType} (h : T.typeOf key = type) (hne : type ≠ .none) :
    (key.map upcase, type) ∈ T.entries := by
  unfold typeOf at h
  cases hlookup : T.entries.lookup (key.map upcase) with
  | none =>
      rw [hlookup] at h
      exact absurd h.symm hne
  | some type' =>
      rw [hlookup] at h
      obtain rfl : type' = type := h
      exact lookup_eq_some hlookup

theorem typeOf_mem (key : Bytes) : T.typeOf key = .none ∨ T.typeOf key ∈ KEYWORD_TYPES := by
  by_cases hnone : T.typeOf key = .none
  · exact Or.inl hnone
  · exact Or.inr (T.types _ (mem_of_typeOf rfl hnone))

end KeywordTable

open KeywordTable BinarySearch

variable (signedChar : Bool) (T : KeywordTable)

theorem search_of_mem {key : Bytes} {i k : ℕ} {e : Bytes × TokenType} (hi : T.entries[i]? = some e)
    (he : e.1 = key.map upcase) {fuel : ℕ}
    (hk : search (fun e => decide (cstrcasecmp signedChar e.1 key < 0)) T.entries fuel 0 (T.entries.length - 1) =
    some k) : k = i := by
  have hkey : ∀ c ∈ key.map upcase, WordByte c := he ▸ (T.words e (List.mem_of_getElem? hi)).2
  have hless : ∀ e' ∈ T.entries, (cstrcasecmp signedChar e'.1 key < 0 ↔ e'.1 < e.1) := fun e' he' => by
    rw [he]
    exact cstrcasecmp_neg_iff signedChar _ _ (T.words e' he').2 hkey
  have hmono : T.entries.Pairwise fun x y => decide (cstrcasecmp signedChar y.1 key < 0) = true →
      decide (cstrcasecmp signedChar x.1 key < 0) = true := by
    refine T.sorted.imp_of_mem fun {x y} hx hy hxy hy' => ?_
    rw [decide_eq_true_eq] at hy' ⊢
    exact (hless x hx).mpr (List.lt_trans hxy ((hless y hy).mp hy'))
  obtain ⟨hilt, rfl⟩ := List.getElem?_eq_some_iff.mp hi
  have found := search_eq_some hmono (Nat.zero_le _) (by omega) hk
  have hklt : k < T.entries.length := by have := found.le; omega
  have hsorted := List.pairwise_iff_getElem.mp T.sorted
  rcases Nat.lt_trichotomy k i with hki | rfl | hik
  · have hnot := found.atEnd (by omega) _ (List.getElem?_eq_getElem hklt)
    rw [decide_eq_false_iff_not, hless _ (List.getElem_mem hklt)] at hnot
    exact absurd (hsorted k i hklt hilt hki) hnot
  · rfl
  · have hyes := found.below i _ (Nat.zero_le _) hik hi
    rw [decide_eq_true_eq, hless _ (List.getElem_mem hilt)] at hyes
    exact absurd hyes (List.lt_irrefl _)

/-- `isKeyword` finds the word that the key is in upper case, and only that. -/
theorem isKeyword_eq (key : Bytes) : isKeyword signedChar T key = some (T.typeOf key) := by
  have hpos := List.length_pos_iff.mpr T.nonempty
  unfold isKeyword bsearchKeywordType
  rw [sizeSub_of_le hpos]
  obtain ⟨k, hk, -, hle⟩ : ∃ k, search (fun e => decide (cstrcasecmp signedChar e.1 key < 0)) T.entries
      (T.entries.length + 1) 0 (T.entries.length - 1) = some k ∧ 0 ≤ k ∧ k ≤ T.entries.length - 1 :=
    exists_search _ 0 _ (Nat.zero_le _) (by omega) (by omega)
  have hklt : k < T.entries.length := by omega
  simp only [Option.bind_eq_bind, Option.bind_some, hk, List.getElem?_eq_getElem hklt]
  have hiff := cstrcasecmp_eq_zero_iff signedChar T.entries[k].1 key (word_pos (List.getElem_mem hklt))
  split_ifs with heq
  · have hmem : (key.map upcase, T.entries[k].2) ∈ T.entries := by
      rw [← hiff.mp heq]
      exact List.getElem_mem hklt
    rw [typeOf_of_mem hmem]
  · rw [typeOf_eq_none fun e he hkey => heq (hiff.mpr ?_)]
    obtain ⟨i, hi⟩ := List.mem_iff_getElem?.mp he
    obtain rfl := search_of_mem signedChar T hi hkey hk
    rw [List.getElem?_eq_getElem hklt] at hi
    rw [Option.some.inj hi, hkey]

/-- The search through the table never leaves it, and finds the type of a word whatever the case
of its letters, the signedness of characters and the bytes of the key. -/
theorem isKeyword_finds (key : Bytes) : ∃ type, isKeyword signedChar T key = some type ∧
    (∀ type', (key.map upcase, type') ∈ T.entries → type = type') ∧
    (type ≠ .none → (key.map upcase, type) ∈ T.entries) := by
  refine ⟨T.typeOf key, isKeyword_eq signedChar T key, fun type' h => typeOf_of_mem h, fun hne => ?_⟩
  unfold typeOf at hne ⊢
  cases hlookup : T.entries.lookup (key.map upcase) with
  | none => exact absurd (by rw [hlookup]; rfl) hne
  | some type => exact lookup_eq_some hlookup

end PurpleWolf.Sqli
