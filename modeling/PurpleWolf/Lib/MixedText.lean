import PurpleWolf.Lib.Utf8

/-! # Text with bytes mixed in

A mixed text is made of characters, in their UTF-8 form, and of single bytes between them.
Decoding it lossily can turn one byte into the three bytes of U+FFFD, but not more, and it never
splits a character: so if a byte counts for three, the result is not longer than the mixed
text (`length_decodeLossy_le`).

The decoder runs over the mixed text with a reserve: a character that has begun is a byte that
has been counted, and whose three bytes have not been spent yet. -/

namespace PurpleWolf.Utf8

/-- A piece of a mixed text. -/
inductive Piece where
  | char (c : Char)
  | byte (b : UInt8)

namespace Piece

def bytes : Piece → List UInt8
  | char c => String.utf8EncodeChar c
  | byte b => [b]

def weight : Piece → ℕ
  | char c => c.utf8Size
  | byte _ => 3

end Piece

/-! ### What the decoder spends -/

/-- The size of a unit in the result. -/
def unitSize (u : Option Char) : ℕ := (u.getD '\uFFFD').utf8Size

def unitsSize (us : List (Option Char)) : ℕ := (us.map unitSize).sum

@[simp] theorem unitsSize_nil : unitsSize [] = 0 := rfl

@[simp] theorem unitsSize_cons (u : Option Char) (us : List (Option Char)) :
    unitsSize (u :: us) = unitSize u + unitsSize us := List.sum_cons

@[simp] theorem unitsSize_append (us vs : List (Option Char)) : unitsSize (us ++ vs) = unitsSize us + unitsSize vs := by
  unfold unitsSize
  rw [List.map_append, List.sum_append]

theorem unitSize_none : unitSize none = 3 := by decide

theorem unitSize_some (c : Char) : unitSize (some c) = c.utf8Size := rfl

theorem length_encode_decodeLossy (bs : List UInt8) : (encode (decodeLossy bs)).length = unitsSize (units bs) := by
  unfold decodeLossy
  induction units bs with
  | nil => rfl
  | cons u us ih =>
      rw [List.map_cons, encode_cons, List.length_append, ih, String.length_utf8EncodeChar, unitsSize_cons]
      rfl

/-- What the decoder has in reserve. -/
def reserve : Option Pending → ℕ
  | none => 0
  | some _ => 3

theorem reserve_none : reserve none = 0 := rfl

theorem reserve_some (p : Pending) : reserve (some p) = 3 := rfl

/-- The next byte of the character that has begun is a continuation byte. -/
def Awaits : Option Pending → Prop
  | none => True
  | some p => p.upper ≤ 0xBF

theorem awaits_start (b : ℕ) : Awaits (start b).1 := by
  unfold start
  split_ifs <;> simp [Awaits]

theorem awaits_step {p : Option Pending} (b : ℕ) : Awaits (step p b).1 := by
  cases p with
  | none => exact awaits_start b
  | some p =>
      simp only [step]
      split_ifs
      · trivial
      · exact le_rfl
      · exact awaits_start b

theorem start_size (b : ℕ) : unitsSize (start b).2 + reserve (start b).1 ≤ 3 := by
  have hascii : ∀ b < 0x80, unitSize (some (Char.ofNat b)) ≤ 3 := by decide
  unfold start
  split_ifs with hb
  · simp only [unitsSize_cons, unitsSize_nil, reserve, Nat.add_zero]
    exact hascii b hb
  all_goals simp [reserve, unitSize_none]

/-- A byte is enough for what a step spends. -/
theorem step_size (p : Option Pending) (b : ℕ) : unitsSize (step p b).2 + reserve (step p b).1 ≤ reserve p + 3 := by
  have hstart := start_size b
  cases p with
  | none =>
      show _ ≤ 0 + 3
      rw [Nat.zero_add]
      exact hstart
  | some p =>
      simp only [step]
      split_ifs
      · have hchar := (Char.ofNat (p.code * 64 + (b - 0x80))).utf8Size_le_four
        simp only [unitsSize_cons, unitsSize_nil, reserve_none, reserve_some, unitSize_some]
        omega
      · simp only [unitsSize_nil, reserve_some]
        omega
      · simp only [unitsSize_cons, unitSize_none, reserve_some]
        omega

/-! ### Characters are not split -/

theorem head_encodeChar (c : Char) : ∃ b bs, String.utf8EncodeChar c = b :: bs ∧ (b.toNat < 0x80 ∨ 0xBF < b.toNat) := by
  have hvalid : c.val.toNat < 0x110000 := by
    have hc := c.valid
    omega
  unfold String.utf8EncodeChar
  generalize c.val.toNat = v at hvalid
  simp only
  split_ifs
  all_goals refine ⟨_, _, rfl, ?_⟩
  · left
    rw [toNat_ofNat (by omega)]
    omega
  all_goals
    right
    rw [toNat_ofNat (by omega)]
    omega

/-- A character that has begun is given up when another one comes. -/
theorem scan_encodeChar_of_pending {p : Pending} (hp : Awaits (some p)) (c : Char) (bs : List UInt8) :
    scan (some p) (String.utf8EncodeChar c ++ bs) = none :: some c :: scan none bs := by
  obtain ⟨b, rest, hc, hb⟩ := head_encodeChar c
  have hbreak : ¬ (p.lower ≤ b.toNat ∧ b.toNat ≤ p.upper) := by
    have hlower := p.lower_le
    have hupper : p.upper ≤ 0xBF := hp
    omega
  have hstep : step (some p) b.toNat = ((start b.toNat).1, none :: (start b.toNat).2) := if_neg hbreak
  have hwhole := scan_encodeChar c bs
  rw [hc, List.cons_append, scan_cons] at hwhole ⊢
  rw [← hwhole, hstep]
  rfl

/-- **Lossy decoding of a mixed text** is not longer than the text, if a byte counts for three. -/
theorem unitsSize_scan_le (ps : List Piece) : ∀ p, Awaits p →
    unitsSize (scan p (ps.flatMap Piece.bytes)) ≤ reserve p + (ps.map Piece.weight).sum := by
  induction ps with
  | nil =>
      intro p _
      cases p with
      | none => exact Nat.zero_le _
      | some p => exact le_rfl
  | cons piece ps ih =>
      intro p hp
      rw [List.flatMap_cons, List.map_cons, List.sum_cons]
      cases piece with
      | byte b =>
          have hstep := step_size p b.toNat
          have hrest := ih (step p b.toNat).1 (awaits_step b.toNat)
          change unitsSize (scan p (b :: ps.flatMap Piece.bytes)) ≤ reserve p + (3 + (ps.map Piece.weight).sum)
          rw [scan_cons, unitsSize_append]
          omega
      | char c =>
          have hrest := ih none trivial
          change unitsSize (scan p (String.utf8EncodeChar c ++ ps.flatMap Piece.bytes)) ≤
            reserve p + (c.utf8Size + (ps.map Piece.weight).sum)
          cases p with
          | none =>
              rw [scan_encodeChar, unitsSize_cons, unitSize_some]
              omega
          | some p =>
              rw [scan_encodeChar_of_pending hp, unitsSize_cons, unitsSize_cons, unitSize_none, unitSize_some,
                reserve_some]
              rw [reserve_none] at hrest
              omega

theorem length_decodeLossy_le (ps : List Piece) :
    (encode (decodeLossy (ps.flatMap Piece.bytes))).length ≤ (ps.map Piece.weight).sum := by
  rw [length_encode_decodeLossy]
  exact (unitsSize_scan_le ps none trivial).trans_eq (Nat.zero_add _)

end PurpleWolf.Utf8
