import PurpleWolf.Core.Request
import PurpleWolf.Lib.PlainText

/-! # Decoding to a fixpoint

`decode` stops early when nothing is left to decode.  That makes no difference: it is three
passes of the decoder (`decode_eq_iterate`).  So it takes back up to three layers of percent
encoding, whatever bytes each of them encodes, as long as each of them gives a text again
(`decode_layers`).  Where a layer splits a character, the lossy conversion of the pass that
takes the next one back destroys it (`decode_split_character`). -/

namespace PurpleWolf

open Text

variable (P : PercentDecoder)

/-! ### Three passes -/

theorem escapedByte_of_digits {h l : UInt8} {hi lo : ℕ} (hhi : hexValue h = some hi) (hlo : hexValue l = some lo)
    (bs : Bytes) : escapedByte (0x25 :: h :: l :: bs) = some (UInt8.ofNat (hi * 16 + lo)) := by
  unfold escapedByte
  simp only [if_true, hhi, hlo]

theorem percentDecode_append_of_not_mem {as : Bytes} (h : (0x25 : UInt8) ∉ as) (bs : Bytes) :
    P.percentDecode (as ++ bs) = as ++ P.percentDecode bs := by
  induction as with
  | nil => rfl
  | cons a as ih =>
      rw [List.mem_cons, not_or] at h
      rw [List.cons_append, P.literal a _ (escapedByte_of_ne (Ne.symm h.1) _), ih h.2]
      rfl

theorem decodeLoop_eq_iterate : ∀ (passes : ℕ) (cur : Str), decodeLoop P passes cur = (decodePass P)^[passes] cur
  | 0, _ => rfl
  | passes + 1, cur => by
      unfold decodeLoop
      by_cases hnone : '%' ∉ cur
      · rw [if_pos hnone]
        exact (Function.iterate_fixed (decodePass_of_not_mem P hnone) _).symm
      · rw [if_neg hnone]
        simp only
        split_ifs with hfix
        · exact (Function.iterate_fixed hfix _).symm
        · rw [decodeLoop_eq_iterate passes, Function.iterate_succ_apply]

/-- **Stopping early is invisible.** -/
theorem decode_eq_iterate (s : Str) : decode P s = (decodePass P)^[MAX_DECODE_PASSES] s := decodeLoop_eq_iterate P _ _

/-! ### Layers of encoding -/

/-- **One percent-encoding** of some bytes: every percent sign is encoded, and any of the
other bytes, in digits of either case. -/
inductive Encodes : Bytes → Bytes → Prop where
  | nil : Encodes [] []
  | literal {b : UInt8} {bs bs' : Bytes} (hb : b ≠ 0x25) (rest : Encodes bs bs') : Encodes (b :: bs) (b :: bs')
  | escape {b h l : UInt8} {hi lo : ℕ} {bs bs' : Bytes} (hhi : hexValue h = some hi) (hlo : hexValue l = some lo)
      (hb : b.toNat = hi * 16 + lo) (rest : Encodes bs bs') : Encodes (b :: bs) (0x25 :: h :: l :: bs')

/-- `k` encodings of a text, one after the other. -/
inductive Layers (p : Str) : ℕ → Str → Prop where
  | zero : Layers p 0 p
  | succ {k : ℕ} {s s' : Str} (inner : Layers p k s) (outer : Encodes (Utf8.encode s) (Utf8.encode s')) :
      Layers p (k + 1) s'

/-- `k` encodings of some bytes, which need not be a text in between. -/
inductive ByteLayers (bs : Bytes) : ℕ → Bytes → Prop where
  | zero : ByteLayers bs 0 bs
  | succ {k : ℕ} {cs cs' : Bytes} (inner : ByteLayers bs k cs) (outer : Encodes cs cs') : ByteLayers bs (k + 1) cs'

theorem Layers.byteLayers {p s : Str} {k : ℕ} (h : Layers p k s) : ByteLayers (Utf8.encode p) k (Utf8.encode s) := by
  induction h with
  | zero => exact ByteLayers.zero
  | succ inner outer ih => exact ih.succ outer

theorem percentDecode_encodes {bs bs' : Bytes} (h : Encodes bs bs') : P.percentDecode bs' = bs := by
  induction h with
  | nil => exact P.nil
  | @literal b bs bs' hb rest ih =>
      have hplain : (0x25 : UInt8) ∉ [b] := by simpa using Ne.symm hb
      have hpass := percentDecode_append_of_not_mem P hplain bs'
      rw [List.singleton_append, ih] at hpass
      exact hpass
  | @escape b h l hi lo bs bs' hhi hlo hb rest ih =>
      rw [P.escape _ _ _ _ _ (escapedByte_of_digits hhi hlo bs'), ih, ← hb, UInt8.ofNat_toNat]

theorem Encodes.append {as as' bs bs' : Bytes} (ha : Encodes as as') (hb : Encodes bs bs') :
    Encodes (as ++ bs) (as' ++ bs') := by
  induction ha with
  | nil => exact hb
  | literal hne _ ih => exact Encodes.literal hne ih
  | escape hhi hlo hval _ ih => exact Encodes.escape hhi hlo hval ih

theorem Encodes.of_not_mem {bs : Bytes} (h : (0x25 : UInt8) ∉ bs) : Encodes bs bs := by
  induction bs with
  | nil => exact Encodes.nil
  | cons b bs ih =>
      rw [List.mem_cons, not_or] at h
      exact Encodes.literal (Ne.symm h.1) (ih h.2)

theorem Encodes.unique {as bs cs : Bytes} (ha : Encodes as cs) (hb : Encodes bs cs) : as = bs := by
  rw [← percentDecode_encodes .standard ha, percentDecode_encodes .standard hb]

theorem decodePass_encodes {s s' : Str} (h : Encodes (Utf8.encode s) (Utf8.encode s')) : decodePass P s' = s := by
  unfold decodePass
  rw [percentDecode_encodes P h, Utf8.decodeLossy_encode]

theorem iterate_layers {p s : Str} {k : ℕ} (h : Layers p k s) : (decodePass P)^[k] s = p := by
  induction h with
  | zero => rfl
  | succ inner outer ih => rw [Function.iterate_succ_apply, decodePass_encodes P outer, ih]

/-! ### Nothing to decode -/

/-- No percent sign is followed by two hexadecimal digits. -/
def Undecodable (p : Str) : Prop :=
  ∀ a h l b, p = a ++ '%' :: h :: l :: b → toDigit 16 h = none ∨ toDigit 16 l = none

theorem Undecodable.tail {c : Char} {p : Str} (hp : Undecodable (c :: p)) : Undecodable p := by
  intro a h l b heq
  exact hp (c :: a) h l b (by rw [heq]; rfl)

theorem lt_of_hexValue {b : UInt8} {v : ℕ} (h : hexValue b = some v) : b.toNat < 0x80 := by
  have hall : ∀ b, (hexValue b).isSome → b.toNat < 0x80 := forall_byte (by decide +kernel)
  exact hall b (by rw [h]; rfl)

theorem decodePass_of_undecodable {p : Str} (hp : Undecodable p) : decodePass P p = p := by
  have hbytes : P.percentDecode (Utf8.encode p) = Utf8.encode p := by
    induction p with
    | nil => exact P.nil
    | cons c p ih =>
        rw [Utf8.encode_cons]
        by_cases hc : c = '%'
        · subst hc
          have hnone : escapedByte (0x25 :: Utf8.encode p) = none := by
            unfold escapedByte
            split
            · next heq =>
                obtain ⟨rfl, hrest⟩ := List.cons.inj heq
                rw [if_pos rfl]
                split
                · next hi lo hhi hlo =>
                    exfalso
                    obtain ⟨p', rfl, hp'⟩ := Utf8.encode_eq_cons_ascii (lt_of_hexValue hhi) hrest
                    obtain ⟨p'', rfl, -⟩ := Utf8.encode_eq_cons_ascii (lt_of_hexValue hlo) hp'
                    obtain hno | hno := hp [] _ _ p'' rfl
                    · unfold hexValue at hhi
                      rw [hno] at hhi
                      cases hhi
                    · unfold hexValue at hlo
                      rw [hno] at hlo
                      cases hlo
                · rfl
            · rfl
          show P.percentDecode (0x25 :: Utf8.encode p) = 0x25 :: Utf8.encode p
          rw [P.literal _ _ hnone, ih hp.tail]
        · have hplain : (0x25 : UInt8) ∉ String.utf8EncodeChar c := by
            intro hmem
            exact Utf8.ne_of_mem_encodeChar hmem '%' (by decide) hc rfl
          rw [percentDecode_append_of_not_mem P hplain, ih hp.tail]
  unfold decodePass
  rw [hbytes, Utf8.decodeLossy_encode]

/-- **Up to three layers come off**, and no more: `decode` ends at the text that was encoded. -/
theorem decode_layers {p s : Str} {k : ℕ} (hp : Undecodable p) (hk : k ≤ 3) (h : Layers p k s) : decode P s = p := by
  have hsplit : MAX_DECODE_PASSES = (3 - k) + k := by
    unfold MAX_DECODE_PASSES
    omega
  rw [decode_eq_iterate, hsplit, Function.iterate_add_apply, iterate_layers P h]
  exact Function.iterate_fixed (decodePass_of_undecodable P hp) _

/-- `9%` is encoded twice: first the percent sign, then the new one and the digit before it. -/
theorem decode_layers_twice : decode PercentDecoder.standard "%39%2525".toList = "9%".toList := by
  have hp : Undecodable "9%".toList := by
    intro a h l b heq
    have hlen := congrArg List.length heq
    simp at hlen
    omega
  have hinner : Encodes (Utf8.encode "9%".toList) (Utf8.encode "9%25".toList) := by
    apply Encodes.literal (by decide)
    exact Encodes.escape rfl rfl (by decide) Encodes.nil
  have houter : Encodes (Utf8.encode "9%25".toList) (Utf8.encode "%39%2525".toList) := by
    apply Encodes.escape rfl rfl (by decide)
    apply Encodes.escape rfl rfl (by decide)
    exact Encodes.literal (by decide) (Encodes.literal (by decide) Encodes.nil)
  exact decode_layers PercentDecoder.standard hp (by decide) ((Layers.zero.succ hinner).succ houter)

/-- The first layer encodes one of the two bytes of `é`, the second one the other. -/
theorem decode_split_character :
    Undecodable "é".toList ∧ ByteLayers (Utf8.encode "é".toList) 2 (Utf8.encode "%25C3%A9".toList) ∧
      decode PercentDecoder.standard "%25C3%A9".toList = ['\uFFFD', '\uFFFD'] ∧
        decode PercentDecoder.standard "%25C3%A9".toList ≠ "é".toList := by
  have hinner : Encodes (Utf8.encode "é".toList) [0x25, 0x43, 0x33, 0xA9] := by
    apply Encodes.escape rfl rfl (by decide)
    exact Encodes.literal (by decide) Encodes.nil
  have houter : Encodes [0x25, 0x43, 0x33, 0xA9] (Utf8.encode "%25C3%A9".toList) := by
    apply Encodes.escape rfl rfl (by decide)
    apply Encodes.literal (by decide)
    apply Encodes.literal (by decide)
    exact Encodes.escape rfl rfl (by decide) Encodes.nil
  have hdecode : decode PercentDecoder.standard "%25C3%A9".toList = ['\uFFFD', '\uFFFD'] := by
    decide
  refine ⟨?_, (ByteLayers.zero.succ hinner).succ houter, hdecode, ?_⟩
  · intro a h l b heq
    have hlen := congrArg List.length heq
    simp at hlen
    omega
  · rw [hdecode]
    decide

end PurpleWolf
