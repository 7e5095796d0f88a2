import PurpleWolf.Core.Config
import PurpleWolf.Lib.OrdMap
import PurpleWolf.Lib.Text
import PurpleWolf.Lib.Utf8
import Mathlib.Data.Char
import Mathlib.Data.List.Lex

/-! # Limits of the labels (`config.rs`)

`validateLabels` checks the labels of one middleware: their number, the form of the keys, the
length of each value, and the bytes of all together.  `validateLabels_ok_iff` says what passes.

How a text is quoted in an error (`{:?}`) is a parameter. -/

namespace PurpleWolf.Labels

open Text

/-- Most keys of one middleware. -/
def MAX_LABEL_KEYS : ℕ := 32

/-- Most bytes of all keys and values together. -/
def MAX_LABEL_BYTES : ℕ := 4096

/-- Most bytes of one value. -/
def MAX_LABEL_VALUE_BYTES : ℕ := 1024

/-! ### Keys -/

def isAsciiLowercase (b : UInt8) : Bool := 0x61 ≤ b && b ≤ 0x7A

def isAsciiDigit (b : UInt8) : Bool := 0x30 ≤ b && b ≤ 0x39

/-- A byte of a key behind the first. -/
def isKeyByte (b : UInt8) : Bool := isAsciiLowercase b || isAsciiDigit b || b == 0x5F || b == 0x2E || b == 0x2D

def isValidLabelKey (k : Str) : Bool :=
  match Utf8.encode k with
  | [] => false
  | b :: bytes =>
      if 63 < (b :: bytes).length then false
      else if !isAsciiLowercase b then false
      else bytes.all isKeyByte

/-- A character of a key behind the first: `[a-z0-9_.-]`. -/
def IsKeyChar (c : Char) : Prop :=
  ('a' ≤ c ∧ c ≤ 'z') ∨ ('0' ≤ c ∧ c ≤ '9') ∨ c = '_' ∨ c = '.' ∨ c = '-'

instance (c : Char) : Decidable (IsKeyChar c) := inferInstanceAs (Decidable (_ ∨ _ ∨ _ ∨ _ ∨ _))

/-- `^[a-z][a-z0-9_.-]{0,62}$` -/
def IsLabelKey (k : Str) : Prop :=
  ∃ c rest, k = c :: rest ∧ ('a' ≤ c ∧ c ≤ 'z') ∧ rest.length ≤ 62 ∧ ∀ d ∈ rest, IsKeyChar d

theorem encode_ascii {s : Str} (h : ∀ c ∈ s, c.toNat < 0x80) : Utf8.encode s = s.map fun c => UInt8.ofNat c.toNat := by
  unfold Utf8.encode
  rw [List.flatMap_congr fun c hc => Utf8.encodeChar_ascii (h c hc)]
  exact List.map_eq_flatMap.symm

theorem ascii_of_encode {s : Str} (h : ∀ b ∈ Utf8.encode s, b.toNat < 0x80) : ∀ c ∈ s, c.toNat < 0x80 := by
  intro c hc
  obtain ⟨b, hb⟩ : ∃ b, b ∈ String.utf8EncodeChar c := List.exists_mem_of_ne_nil _ (String.utf8EncodeChar_ne_nil)
  have hlt := h b (Utf8.mem_encode.mpr ⟨c, hc, hb⟩)
  rw [(Utf8.ascii_of_mem_encodeChar hb hlt).2]
  exact hlt

theorem isAsciiLowercase_ofNat {c : Char} (hc : c.toNat < 0x80) :
    isAsciiLowercase (UInt8.ofNat c.toNat) = true ↔ 'a' ≤ c ∧ c ≤ 'z' := by
  have hall : ∀ c : Char, c.toNat < 0x80 → (isAsciiLowercase (UInt8.ofNat c.toNat) = true ↔ 'a' ≤ c ∧ c ≤ 'z') :=
    forall_ascii (by decide)
  exact hall c hc

theorem isKeyByte_ofNat {c : Char} (hc : c.toNat < 0x80) : isKeyByte (UInt8.ofNat c.toNat) = true ↔ IsKeyChar c := by
  have hall : ∀ c : Char, c.toNat < 0x80 → (isKeyByte (UInt8.ofNat c.toNat) = true ↔ IsKeyChar c) :=
    forall_ascii (by decide)
  exact hall c hc

theorem ascii_of_isKeyByte {b : UInt8} (h : isKeyByte b = true) : b.toNat < 0x80 := by
  unfold isKeyByte isAsciiLowercase isAsciiDigit at h
  simp only [Bool.or_eq_true, Bool.and_eq_true, decide_eq_true_eq, beq_iff_eq, UInt8.le_iff_toNat_le,
    ← UInt8.toNat_inj] at h
  simp only [UInt8.reduceToNat] at h
  omega

theorem isKeyByte_of_isAsciiLowercase {b : UInt8} (h : isAsciiLowercase b = true) : isKeyByte b = true := by
  unfold isKeyByte
  rw [h]
  rfl

theorem isKeyChar_lt {c : Char} (h : IsKeyChar c) : c.toNat < 0x80 := by
  have hle : ∀ d : Char, c ≤ d → d.toNat < 0x80 → c.toNat < 0x80 :=
    fun d hd hlt => lt_of_le_of_lt (UInt32.le_iff_toNat_le.mp hd) hlt
  rcases h with h | h | rfl | rfl | rfl
  · exact hle 'z' h.2 (by decide)
  · exact hle '9' h.2 (by decide)
  · decide
  · decide
  · decide

/-- The keys that pass are those of the documented form. -/
theorem isValidLabelKey_iff (k : Str) : isValidLabelKey k = true ↔ IsLabelKey k := by
  constructor
  · intro h
    unfold isValidLabelKey at h
    cases hencode : Utf8.encode k with
    | nil =>
        rw [hencode] at h
        cases h
    | cons b bytes =>
        rw [hencode] at h
        simp only [Bool.not_eq_true'] at h
        split_ifs at h with hlong hlower
        have hlower : isAsciiLowercase b = true := by simpa using hlower
        have hbytes : ∀ b ∈ bytes, isKeyByte b = true := List.all_eq_true.mp h
        have hascii : ∀ c ∈ k, c.toNat < 0x80 := by
          refine ascii_of_encode fun d hd => ascii_of_isKeyByte ?_
          rw [hencode] at hd
          rcases List.mem_cons.mp hd with rfl | hd
          · exact isKeyByte_of_isAsciiLowercase hlower
          · exact hbytes d hd
        rw [encode_ascii hascii] at hencode
        cases k with
        | nil => cases hencode
        | cons c rest =>
            obtain ⟨rfl, rfl⟩ := List.cons.inj hencode
            refine ⟨c, rest, rfl, (isAsciiLowercase_ofNat (hascii c List.mem_cons_self)).mp hlower, ?_, fun d hd => ?_⟩
            · rw [List.length_cons, List.length_map] at hlong
              omega
            · exact (isKeyByte_ofNat (hascii d (List.mem_cons_of_mem _ hd))).mp (hbytes _ (List.mem_map_of_mem hd))
  · rintro ⟨c, rest, rfl, hc, hlen, hrest⟩
    have hascii : ∀ d ∈ c :: rest, d.toNat < 0x80 := by
      intro d hd
      rcases List.mem_cons.mp hd with rfl | hd
      · exact isKeyChar_lt (Or.inl hc)
      · exact isKeyChar_lt (hrest d hd)
    have hlower := (isAsciiLowercase_ofNat (hascii c List.mem_cons_self)).mpr hc
    have hbytes : (rest.map fun d => UInt8.ofNat d.toNat).all isKeyByte = true := by
      rw [List.all_map, List.all_eq_true]
      exact fun d hd => (isKeyByte_ofNat (hascii d (List.mem_cons_of_mem _ hd))).mpr (hrest d hd)
    unfold isValidLabelKey
    rw [encode_ascii hascii, List.map_cons]
    simp only [List.length_cons, List.length_map, hlower, hbytes, Bool.not_true, Bool.false_eq_true, if_false]
    rw [if_neg (by omega)]

/-! ### All labels -/

section Validate

variable (T : Target) (debug : Str → Str)

/-- `usize::saturating_add` -/
def saturatingAdd (a b : ℕ) : ℕ := min (a + b) T.usizeMax

/-- The loop over the labels: the bytes of all of them. -/
def validateLoop : List (Str × Str) → ℕ → Except Str ℕ
  | [], total => .ok total
  | (k, v) :: labels, total =>
      if isValidLabelKey k = false then
        .error ("labels: key ".toList ++ debug k ++ " does not match ^[a-z][a-z0-9_.-]\x7b0,62\x7d$".toList)
      else if MAX_LABEL_VALUE_BYTES < byteLen v then
        .error ("labels: value for key ".toList ++ debug k ++ " is ".toList ++ decimal (byteLen v) ++
          " bytes; max ".toList ++ decimal MAX_LABEL_VALUE_BYTES)
      else validateLoop labels (saturatingAdd T (saturatingAdd T total (byteLen k)) (byteLen v))

def validateLabels (labels : OrdMap Str Str) : Except Str Unit :=
  if MAX_LABEL_KEYS < labels.entries.length then
    .error ("labels: ".toList ++ decimal labels.entries.length ++ " keys exceeds maximum ".toList ++
      decimal MAX_LABEL_KEYS)
  else
    match validateLoop T debug labels.entries 0 with
    | .error e => .error e
    | .ok total =>
        if MAX_LABEL_BYTES < total then
          .error ("labels: total size ".toList ++ decimal total ++ " bytes exceeds ".toList ++ decimal MAX_LABEL_BYTES)
        else .ok ()

end Validate

/-- The bytes of all keys and values. -/
def totalBytes (labels : List (Str × Str)) : ℕ := (labels.map fun e => byteLen e.1 + byteLen e.2).sum

/-- Labels within the limits. -/
structure WithinLimits (labels : OrdMap Str Str) : Prop where
  keys : labels.entries.length ≤ MAX_LABEL_KEYS
  form : ∀ e ∈ labels.entries, IsLabelKey e.1
  values : ∀ e ∈ labels.entries, byteLen e.2 ≤ MAX_LABEL_VALUE_BYTES
  total : totalBytes labels.entries ≤ MAX_LABEL_BYTES

theorem validateLoop_ok_iff (T : Target) (debug : Str → Str) : ∀ (labels : List (Str × Str)) (total n : ℕ),
    validateLoop T debug labels (min total T.usizeMax) = .ok n ↔
      (∀ e ∈ labels, IsLabelKey e.1) ∧ (∀ e ∈ labels, byteLen e.2 ≤ MAX_LABEL_VALUE_BYTES) ∧
        n = min (total + totalBytes labels) T.usizeMax
  | [], total, n => by
      unfold validateLoop totalBytes
      simp [eq_comm]
  | (k, v) :: labels, total, n => by
      have hsum : saturatingAdd T (saturatingAdd T (min total T.usizeMax) (byteLen k)) (byteLen v) =
          min (total + (byteLen k + byteLen v)) T.usizeMax := by
        unfold saturatingAdd
        omega
      have ih := validateLoop_ok_iff T debug labels (total + (byteLen k + byteLen v)) n
      have htotal : total + (byteLen k + byteLen v) + totalBytes labels = total + totalBytes ((k, v) :: labels) := by
        unfold totalBytes
        rw [List.map_cons, List.sum_cons, Nat.add_assoc]
      rw [htotal] at ih
      unfold validateLoop
      rw [hsum]
      simp only [List.forall_mem_cons]
      split_ifs with hkey hvalue
      · have hkey : ¬ IsLabelKey k := fun h => by
          rw [(isValidLabelKey_iff k).mpr h] at hkey
          cases hkey
        exact iff_of_false nofun fun h => hkey h.1.1
      · exact iff_of_false nofun fun h => absurd h.2.1.1 (by omega)
      · rw [ih]
        have hkey : IsLabelKey k := (isValidLabelKey_iff k).mp (by simpa using hkey)
        have hvalue : byteLen v ≤ MAX_LABEL_VALUE_BYTES := by omega
        simp only [hkey, hvalue, true_and]

/-- The labels that pass, where a `usize` can count the bytes. -/
theorem validateLabels_ok_iff {T : Target} (hT : MAX_LABEL_BYTES < T.usizeMax) (debug : Str → Str)
    (labels : OrdMap Str Str) : validateLabels T debug labels = .ok () ↔ WithinLimits labels := by
  have hloop := validateLoop_ok_iff T debug labels.entries 0
  rw [Nat.zero_min] at hloop
  unfold validateLabels
  split_ifs with hkeys
  · exact iff_of_false nofun fun h => absurd h.keys (by omega)
  · cases h : validateLoop T debug labels.entries 0 with
    | error e =>
        refine iff_of_false nofun fun hlimits => ?_
        have := (hloop _).mpr ⟨hlimits.form, hlimits.values, rfl⟩
        rw [h] at this
        cases this
    | ok n =>
        obtain ⟨hform, hvalues, hn⟩ := (hloop n).mp h
        simp only
        split_ifs with htotal
        · exact iff_of_false nofun fun hlimits => absurd hlimits.total (by omega)
        · exact iff_of_true rfl ⟨by omega, hform, hvalues, by omega⟩

end PurpleWolf.Labels
