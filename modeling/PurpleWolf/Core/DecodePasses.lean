import PurpleWolf.Core.Decoding
import PurpleWolf.Core.Signatures

/-! # What further passes do to a literal

A backend that decodes once sees `decodePass v`, and the detectors see two more passes of
it.  A literal survives them unless an escape that begins before it takes its first
character.  Only `expect://` begins with a hexadecimal digit, so only `expect://` can be
lost (`passes_keep_iff`): `%252expect://` reads `%2expect://` after one pass and `.xpect://`
after two. -/

namespace PurpleWolf

open Text

variable (P : PercentDecoder)

/-! ### Cutting the input of a pass -/

/-- An escape begins in the first part and ends in what follows it. -/
def Straddles : Bytes → Bytes → Prop
  | [], _ => False
  | b :: as, bs => (as.length < 2 ∧ (escapedByte (b :: (as ++ bs))).isSome) ∨ Straddles as bs

instance decidableStraddles : ∀ as bs : Bytes, Decidable (Straddles as bs)
  | [], _ => inferInstanceAs (Decidable False)
  | b :: as, bs =>
      have := decidableStraddles as bs
      inferInstanceAs (Decidable ((as.length < 2 ∧ (escapedByte (b :: (as ++ bs))).isSome) ∨ Straddles as bs))

theorem escapedByte_eq_some {b c : UInt8} {bs : Bytes} (h : escapedByte (b :: bs) = some c) :
    b = 0x25 ∧ ∃ d e rest, bs = d :: e :: rest ∧ (hexValue d).isSome ∧ (hexValue e).isSome := by
  unfold escapedByte at h
  split at h
  · next heq =>
      obtain ⟨rfl, rfl⟩ := List.cons.inj heq
      split_ifs at h with hb
      split at h
      · next hd he => exact ⟨hb, _, _, _, rfl, by rw [hd]; rfl, by rw [he]; rfl⟩
      · cases h
  · cases h

theorem escapedByte_append {b : UInt8} {as bs : Bytes} (h : escapedByte (b :: (as ++ bs)) = none) :
    escapedByte (b :: as) = none := by
  cases hsome : escapedByte (b :: as) with
  | none => rfl
  | some c =>
      obtain ⟨rfl, d, e, rest, rfl, hd, he⟩ := escapedByte_eq_some hsome
      obtain ⟨hi, hhi⟩ := Option.isSome_iff_exists.mp hd
      obtain ⟨lo, hlo⟩ := Option.isSome_iff_exists.mp he
      rw [List.cons_append, List.cons_append, escapedByte_of_digits hhi hlo] at h
      cases h

theorem escapedByte_of_digit {d : UInt8} (hd : (hexValue d).isSome) (bs : Bytes) : escapedByte (d :: bs) = none := by
  apply escapedByte_of_ne
  rintro rfl
  revert hd
  decide

/-- The escapes of the first part end there, but for one that straddles. -/
theorem straddles_escape {b c : UInt8} {as bs : Bytes} (h : escapedByte (b :: as) = some c) :
    Straddles (b :: as) bs ↔ Straddles (as.drop 2) bs := by
  obtain ⟨rfl, d, e, rest, rfl, hd, he⟩ := escapedByte_eq_some h
  have hde : escapedByte (d :: (e :: rest ++ bs)) = none := escapedByte_of_digit hd _
  have hee : escapedByte (e :: (rest ++ bs)) = none := escapedByte_of_digit he _
  simp only [Straddles, hde, hee]
  simp

theorem percentDecode_escape {b c : UInt8} {bs : Bytes} (h : escapedByte (b :: bs) = some c) :
    P.percentDecode (b :: bs) = c :: P.percentDecode (bs.drop 2) := by
  obtain ⟨-, d, e, rest, rfl, -, -⟩ := escapedByte_eq_some h
  exact P.escape b d e rest c h

theorem percentDecode_append : ∀ (as bs : Bytes), ¬ Straddles as bs →
    P.percentDecode (as ++ bs) = P.percentDecode as ++ P.percentDecode bs
  | [], bs, _ => by rw [P.nil]; rfl
  | b :: as, bs, h => by
      cases hbyte : escapedByte (b :: as) with
      | some c =>
          rw [straddles_escape hbyte] at h
          have ih := percentDecode_append (as.drop 2) bs h
          obtain ⟨rfl, d, e, rest, rfl, hd, he⟩ := escapedByte_eq_some hbyte
          rw [percentDecode_escape P hbyte]
          apply (P.escape 0x25 d e (rest ++ bs) c hbyte).trans
          rw [List.cons_append, ← ih]
          rfl
      | none =>
          rw [Straddles, not_or, not_and] at h
          have hlong : escapedByte (b :: (as ++ bs)) = none := by
            by_cases hlen : as.length < 2
            · exact Option.not_isSome_iff_eq_none.mp (h.1 hlen)
            · cases hsome : escapedByte (b :: (as ++ bs)) with
              | none => rfl
              | some c =>
                  obtain ⟨d, e, rest, rfl⟩ : ∃ d e rest, as = d :: e :: rest := by
                    match as, hlen with
                    | [], hlen => exact absurd (by decide) hlen
                    | [_], hlen => exact absurd (by simp) hlen
                    | d :: e :: rest, _ => exact ⟨d, e, rest, rfl⟩
                  exact hsome.symm.trans hbyte
          rw [P.literal b as hbyte, List.cons_append, P.literal b _ hlong, percentDecode_append as bs h.2]
          rfl
  termination_by as => as.length
  decreasing_by all_goals simp

/-- The output of a pass may be cut anywhere: the input is cut between two escapes. -/
theorem percentDecode_eq_append : ∀ (as' bs' bs : Bytes), P.percentDecode bs = as' ++ bs' →
    ∃ as cs, bs = as ++ cs ∧ P.percentDecode as = as' ∧ P.percentDecode cs = bs' ∧ ¬ Straddles as cs
  | [], bs', bs, h => ⟨[], bs, rfl, P.nil, h, id⟩
  | x :: as', bs', bs, h => by
      cases bs with
      | nil =>
          rw [P.nil] at h
          cases h
      | cons b bs =>
          cases hbyte : escapedByte (b :: bs) with
          | some c =>
              rw [percentDecode_escape P hbyte, List.cons_append] at h
              obtain ⟨rfl, hrest⟩ := List.cons.inj h
              obtain ⟨as, cs, hcut, has, hcs, hno⟩ := percentDecode_eq_append as' bs' _ hrest
              obtain ⟨rfl, d, e, rest, rfl, hd, he⟩ := escapedByte_eq_some hbyte
              have hhead : escapedByte (0x25 :: d :: e :: as) = some c := hbyte
              have hrest' : rest = as ++ cs := hcut
              refine ⟨0x25 :: d :: e :: as, cs, by rw [hrest']; rfl, ?_, hcs, ?_⟩
              · rw [percentDecode_escape P hhead, ← has]
                rfl
              · rw [straddles_escape hhead]
                exact hno
          | none =>
              rw [P.literal b bs hbyte, List.cons_append] at h
              obtain ⟨rfl, hrest⟩ := List.cons.inj h
              obtain ⟨as, cs, rfl, has, hcs, hno⟩ := percentDecode_eq_append as' bs' bs hrest
              refine ⟨b :: as, cs, rfl, ?_, hcs, ?_⟩
              · rw [P.literal b as (escapedByte_append hbyte), has]
              · rw [Straddles, hbyte]
                simpa using hno

/-- What straddles a cut is still there after a pass over the first part. -/
theorem straddles_percentDecode : ∀ {as bs : Bytes}, Straddles as bs → Straddles (P.percentDecode as) bs
  | b :: as, bs, h => by
      cases hbyte : escapedByte (b :: as) with
      | some c =>
          rw [straddles_escape hbyte] at h
          rw [percentDecode_escape P hbyte]
          exact Or.inr (straddles_percentDecode h)
      | none =>
          rw [P.literal b as hbyte]
          obtain ⟨hlen, hsome⟩ | h := h
          · left
            obtain ⟨c, hc⟩ := Option.isSome_iff_exists.mp hsome
            obtain ⟨rfl, d, e, rest, heq, hd, he⟩ := escapedByte_eq_some hc
            have hsame : P.percentDecode as = as := by
              match as, hlen with
              | [], _ => exact P.nil
              | [f], _ =>
                  obtain ⟨rfl, -⟩ := List.cons.inj heq
                  rw [P.literal f [] (escapedByte_of_digit hd _), P.nil]
            rw [hsame]
            exact ⟨hlen, hsome⟩
          · exact Or.inr (straddles_percentDecode h)
  termination_by as => as.length
  decreasing_by all_goals simp

theorem Straddles.percent_mem : ∀ {as bs : Bytes}, Straddles as bs → (0x25 : UInt8) ∈ as
  | _ :: _, _, Or.inl ⟨_, hsome⟩ => by
      obtain ⟨c, hc⟩ := Option.isSome_iff_exists.mp hsome
      rw [(escapedByte_eq_some hc).1]
      exact List.mem_cons_self
  | _ :: _, _, Or.inr h => List.mem_cons_of_mem _ h.percent_mem

/-- What straddles a cut takes a digit from behind it. -/
theorem Straddles.hexValue_isSome : ∀ {as bs : Bytes} {b : UInt8}, Straddles as (b :: bs) → (hexValue b).isSome
  | a :: as, bs, b, Or.inl ⟨hlen, hsome⟩ => by
      obtain ⟨c, hc⟩ := Option.isSome_iff_exists.mp hsome
      obtain ⟨-, d, e, rest, heq, hd, he⟩ := escapedByte_eq_some hc
      match as, hlen with
      | [], _ =>
          obtain ⟨rfl, -⟩ := List.cons.inj heq
          exact hd
      | [f], _ =>
          obtain ⟨-, heq⟩ := List.cons.inj heq
          obtain ⟨rfl, -⟩ := List.cons.inj heq
          exact he
  | _ :: _, _, _, Or.inr h => h.hexValue_isSome

theorem plainByte_of_hexValue {b : UInt8} (h : (hexValue b).isSome) : Utf8.PlainByte b := by
  obtain ⟨v, hv⟩ := Option.isSome_iff_exists.mp h
  refine ⟨?_, lt_of_hexValue hv⟩
  intro hzero
  have hb : b = 0 := UInt8.toNat_inj.mp hzero
  subst hb
  revert h
  decide

theorem plainByte_of_percentDecode : ∀ {bs : Bytes}, (∀ b ∈ P.percentDecode bs, Utf8.PlainByte b) →
    ∀ b ∈ bs, Utf8.PlainByte b
  | [], _, _, h => absurd h List.not_mem_nil
  | b :: bs, hplain, x, hx => by
      cases hbyte : escapedByte (b :: bs) with
      | some c =>
          rw [percentDecode_escape P hbyte] at hplain
          have ih := plainByte_of_percentDecode (fun y hy => hplain y (List.mem_cons_of_mem _ hy))
          obtain ⟨rfl, d, e, rest, rfl, hd, he⟩ := escapedByte_eq_some hbyte
          rw [List.mem_cons, List.mem_cons, List.mem_cons] at hx
          obtain rfl | rfl | rfl | hx := hx
          · unfold Utf8.PlainByte
            decide
          · exact plainByte_of_hexValue hd
          · exact plainByte_of_hexValue he
          · exact ih x hx
      | none =>
          rw [P.literal b bs hbyte] at hplain
          obtain rfl | hx := List.mem_cons.mp hx
          · exact hplain x List.mem_cons_self
          · exact plainByte_of_percentDecode (fun y hy => hplain y (List.mem_cons_of_mem _ hy)) x hx
  termination_by bs => bs.length
  decreasing_by all_goals simp

/-! ### Cutting the text of a pass -/

theorem percentDecode_of_plain {s : Str} (h : Utf8.Plain (decodePass P s)) :
    P.percentDecode (Utf8.encode s) = Utf8.encode (decodePass P s) := Utf8.eq_encode_of_plain h

theorem plain_of_decodePass {s : Str} (h : Utf8.Plain (decodePass P s)) : Utf8.Plain s := by
  rw [Utf8.plain_iff]
  apply plainByte_of_percentDecode P
  rw [percentDecode_of_plain P h]
  exact Utf8.plain_iff.mp h

theorem decodePass_nil : decodePass P [] = [] := by
  unfold decodePass
  rw [Utf8.encode_nil, P.nil, Utf8.decodeLossy_nil]

theorem decodePass_plain_append {w b : Str} (hw : Utf8.Plain (decodePass P w)) (hne : decodePass P w ≠ [])
    (hno : ¬ Straddles (Utf8.encode w) (Utf8.encode b)) :
    decodePass P (w ++ b) = decodePass P w ++ decodePass P b := by
  have hlossy := Utf8.decodeLossy_append_plain hw hne [] (P.percentDecode (Utf8.encode b))
  rw [List.nil_append, Utf8.decodeLossy_nil, List.nil_append, ← percentDecode_of_plain P hw,
    ← percentDecode_append P _ _ hno, ← Utf8.encode_append] at hlossy
  exact hlossy

theorem decodePass_append_plain {a r u s : Str} (hr : decodePass P r = u ++ s) (hu : Utf8.Plain u) (hne : u ≠ [])
    (hno : ¬ Straddles (Utf8.encode a) (Utf8.encode r)) :
    decodePass P (a ++ r) = decodePass P a ++ decodePass P r := by
  have hcut : Utf8.decodeLossy (P.percentDecode (Utf8.encode r)) = [] ++ u ++ s := hr
  obtain ⟨bs, cs, hbytes, hbs, rfl⟩ := Utf8.decodeLossy_eq_append hu hne hcut
  rw [Utf8.decodeLossy_eq_nil hbs, List.nil_append] at hbytes
  have hlossy := Utf8.decodeLossy_append_plain hu hne (P.percentDecode (Utf8.encode a)) cs
  rw [List.append_assoc, ← hbytes, ← percentDecode_append P _ _ hno, ← Utf8.encode_append, List.append_assoc,
    ← hr] at hlossy
  exact hlossy

/-- **The output of a pass may be cut around plain text**: the input is cut with it, and no
escape straddles the cuts. -/
theorem decodePass_eq_append {t as u cs : Str} (hu : Utf8.Plain u) (hne : u ≠ [])
    (h : decodePass P t = as ++ (u ++ cs)) :
    ∃ a w b, t = a ++ (w ++ b) ∧ decodePass P a = as ∧ decodePass P w = u ∧ decodePass P b = cs ∧
      ¬ Straddles (Utf8.encode a) (Utf8.encode (w ++ b)) := by
  rw [← List.append_assoc] at h
  obtain ⟨as', cs', hbytes, rfl, rfl⟩ := Utf8.decodeLossy_eq_append hu hne h
  rw [List.append_assoc] at hbytes
  obtain ⟨front, rest, hcut, rfl, hrest, hno⟩ := percentDecode_eq_append P _ _ _ hbytes
  obtain ⟨mid, back, rfl, hmid, rfl, -⟩ := percentDecode_eq_append P _ _ _ hrest
  have hplain : ∀ b ∈ mid, Utf8.PlainByte b := by
    apply plainByte_of_percentDecode P
    rw [hmid]
    exact Utf8.plain_iff.mp hu
  obtain ⟨w, rfl⟩ := Utf8.exists_encode_of_plain hplain
  have hw : decodePass P w = u := by
    unfold decodePass
    rw [hmid, Utf8.decodeLossy_encode]
  obtain ⟨a, r, rfl, rfl, hr⟩ : ∃ a r, t = a ++ r ∧ Utf8.encode a = front ∧ Utf8.encode r = Utf8.encode w ++ back := by
    cases hcons : Utf8.encode w with
    | nil =>
        rw [hcons, P.nil] at hmid
        exact absurd (Utf8.encode_injective hmid.symm) hne
    | cons b bs =>
        rw [hcons] at hcut hplain
        exact Utf8.encode_eq_append_ascii (hplain b List.mem_cons_self).2 hcut
  obtain ⟨b, rfl, rfl⟩ := Utf8.encode_eq_encode_append hr
  refine ⟨a, w, b, rfl, rfl, hw, rfl, ?_⟩
  rw [hr]
  exact hno

/-! ### What becomes of a literal -/

namespace Signatures

/-- A text that reads like the literal of entry `i`, but for ASCII case. -/
def Variant (i : Fin patterns.length) (u : Str) : Prop := folded (Utf8.encode u) = patterns.get i

/-- **The literal is spelled in a text** `x` so that two passes leave it: some part of `x`
decodes to it by itself, and no escape of `x`, or of `x` decoded once, runs into that part. -/
def SpelledIn (P : PercentDecoder) (i : Fin patterns.length) (x : Str) : Prop :=
  ∃ a w b, x = a ++ (w ++ b) ∧ Variant i (decodePass P (decodePass P w)) ∧
    ¬ Straddles (Utf8.encode a) (Utf8.encode (w ++ b)) ∧
    ¬ Straddles (Utf8.encode (decodePass P a)) (Utf8.encode (decodePass P (w ++ b)))

theorem plainByte_of_folded {b : UInt8} (h : Utf8.PlainByte (byteToAsciiLowercase b)) : Utf8.PlainByte b := by
  have hall : ∀ b, Utf8.PlainByte (byteToAsciiLowercase b) → Utf8.PlainByte b := by
    unfold Utf8.PlainByte
    exact forall_byte (by decide +kernel)
  exact hall b h

theorem patterns_plain : ∀ p ∈ patterns, ∀ b ∈ p, b.toNat ≠ 0 ∧ b.toNat < 0x80 ∧ b ≠ 0x25 := by decide

theorem plainByte_of_mem {i : Fin patterns.length} {bs : Bytes} (h : folded bs = patterns.get i) :
    ∀ b ∈ bs, Utf8.PlainByte b := by
  intro b hb
  have hmem : byteToAsciiLowercase b ∈ patterns.get i := by
    rw [← h]
    exact List.mem_map_of_mem hb
  obtain ⟨hzero, hascii, -⟩ := patterns_plain _ (List.get_mem patterns i) _ hmem
  exact plainByte_of_folded ⟨hzero, hascii⟩

namespace Variant

variable {i : Fin patterns.length} {u : Str}

theorem plain (h : Variant i u) : Utf8.Plain u := Utf8.plain_iff.mpr (plainByte_of_mem h)

theorem ne_nil (h : Variant i u) : u ≠ [] := by
  rintro rfl
  exact patterns_ne_nil _ (List.get_mem patterns i) h.symm

theorem percent_not_mem (h : Variant i u) : (0x25 : UInt8) ∉ Utf8.encode u := by
  intro hmem
  have hfold : byteToAsciiLowercase 0x25 ∈ patterns.get i := by
    rw [← h]
    exact List.mem_map_of_mem hmem
  exact (patterns_plain _ (List.get_mem patterns i) _ hfold).2.2 (by decide)

end Variant

/-- An occurrence of a literal in the encoding of a text is a variant of it in the text. -/
theorem occursIn_encode_iff {i : Fin patterns.length} {t : Str} :
    OccursIn i (Utf8.encode t) ↔ ∃ a u b, t = a ++ (u ++ b) ∧ Variant i u := by
  constructor
  · rintro ⟨front, back, h⟩
    unfold folded at h
    obtain ⟨fm, bs, hcut, hfm, -⟩ := List.map_eq_append_iff.mp h.symm
    obtain ⟨fs, ms, rfl, -, hms⟩ := List.map_eq_append_iff.mp hfm
    have hplain := plainByte_of_mem hms
    obtain ⟨u, rfl⟩ := Utf8.exists_encode_of_plain hplain
    have hu : Variant i u := hms
    have ht := Utf8.decodeLossy_append_plain hu.plain hu.ne_nil fs bs
    rw [← hcut, Utf8.decodeLossy_encode, List.append_assoc] at ht
    exact ⟨_, u, _, ht, hu⟩
  · rintro ⟨a, u, b, rfl, hu⟩
    have hfolded : patterns[i] = folded (Utf8.encode u) := hu.symm
    refine ⟨folded (Utf8.encode a), folded (Utf8.encode b), ?_⟩
    rw [hfolded]
    simp [folded]

/-- Nothing runs out of a part that decodes to a literal. -/
theorem Variant.not_straddles {i : Fin patterns.length} {w : Str} (hu : Variant i (decodePass P w)) (bs : Bytes) :
    ¬ Straddles (Utf8.encode w) bs := by
  intro h
  have hpass := straddles_percentDecode P h
  rw [percentDecode_of_plain P hu.plain] at hpass
  exact hu.percent_not_mem hpass.percent_mem

theorem Variant.not_straddles_two {i : Fin patterns.length} {w : Str}
    (hu : Variant i (decodePass P (decodePass P w))) (bs : Bytes) : ¬ Straddles (Utf8.encode w) bs := by
  intro h
  have hpass := straddles_percentDecode P h
  rw [percentDecode_of_plain P (plain_of_decodePass P hu.plain)] at hpass
  exact hu.not_straddles P bs hpass

/-- **A literal is left after two passes exactly where it is spelled.** -/
theorem occursIn_two_passes_iff {i : Fin patterns.length} {x : Str} :
    OccursIn i (Utf8.encode (decodePass P (decodePass P x))) ↔ SpelledIn P i x := by
  rw [occursIn_encode_iff]
  have hfollow : ∀ w b, Variant i (decodePass P (decodePass P w)) →
      decodePass P (w ++ b) = decodePass P w ++ decodePass P b ∧ decodePass P w ≠ [] := by
    intro w b hu
    have hne : decodePass P w ≠ [] := by
      intro hnil
      rw [hnil, decodePass_nil] at hu
      exact hu.ne_nil rfl
    exact ⟨decodePass_plain_append P (plain_of_decodePass P hu.plain) hne (hu.not_straddles_two P _), hne⟩
  constructor
  · rintro ⟨as, u, cs, h, hu⟩
    obtain ⟨a₁, w₁, b₁, h₁, -, rfl, -, hno₁⟩ := decodePass_eq_append P hu.plain hu.ne_nil h
    have hne : w₁ ≠ [] := by
      rintro rfl
      rw [decodePass_nil] at hu
      exact hu.ne_nil rfl
    obtain ⟨a, w, b, rfl, rfl, rfl, rfl, hno⟩ :=
      decodePass_eq_append P (plain_of_decodePass P hu.plain) hne h₁
    refine ⟨a, w, b, rfl, hu, hno, ?_⟩
    rw [(hfollow w b hu).1]
    exact hno₁
  · rintro ⟨a, w, b, rfl, hu, hno, hno₁⟩
    obtain ⟨hwb, hne⟩ := hfollow w b hu
    have hwb₁ : decodePass P (decodePass P w ++ decodePass P b) =
        decodePass P (decodePass P w) ++ decodePass P (decodePass P b) :=
      decodePass_plain_append P hu.plain hu.ne_nil (hu.not_straddles P _)
    have hfirst := decodePass_append_plain P hwb (plain_of_decodePass P hu.plain) hne hno
    rw [hwb] at hno₁
    have hsecond := decodePass_append_plain P hwb₁ hu.plain hu.ne_nil hno₁
    rw [hfirst, hwb, hsecond, hwb₁]
    exact ⟨_, decodePass P (decodePass P w), _, rfl, hu⟩

/-! ### Which literals can be lost -/

/-- The entry of `expect://`. -/
def expectWrapper : Fin patterns.length := ⟨18, by decide⟩

theorem hexValue_of_folded {b : UInt8} (h : (hexValue b).isSome) : (hexValue (byteToAsciiLowercase b)).isSome := by
  have hall : ∀ b, (hexValue b).isSome → (hexValue (byteToAsciiLowercase b)).isSome :=
    forall_byte (by decide +kernel)
  exact hall b h

theorem head_not_hex : ∀ i : Fin patterns.length, i ≠ expectWrapper →
    ∀ b ∈ (patterns.get i).head?, hexValue b = none := by decide +kernel

/-- Without a percent sign in it and a digit in front, a literal spells itself. -/
theorem spelledIn_of_ne {i : Fin patterns.length} (hi : i ≠ expectWrapper) {x : Str}
    (h : OccursIn i (Utf8.encode x)) : SpelledIn P i x := by
  obtain ⟨a, u, b, rfl, hu⟩ := occursIn_encode_iff.mp h
  have hpass : decodePass P u = u := by
    unfold decodePass
    rw [percentDecode_of_not_mem P hu.percent_not_mem, Utf8.decodeLossy_encode]
  have hfirst : ∀ as r : Str, ¬ Straddles (Utf8.encode as) (Utf8.encode (u ++ r)) := by
    intro as r hstraddles
    rw [Utf8.encode_append] at hstraddles
    cases hcons : Utf8.encode u with
    | nil => exact hu.ne_nil (Utf8.encode_injective hcons)
    | cons c cs =>
        rw [hcons, List.cons_append] at hstraddles
        have hhex := hexValue_of_folded hstraddles.hexValue_isSome
        have hnone := head_not_hex i hi (byteToAsciiLowercase c) (by rw [← hu, hcons]; rfl)
        rw [hnone] at hhex
        cases hhex
  have hsplit : decodePass P (u ++ b) = u ++ decodePass P b := by
    have hno : ¬ Straddles (Utf8.encode u) (Utf8.encode b) := fun hs => hu.percent_not_mem hs.percent_mem
    have hplain : Utf8.Plain (decodePass P u) := by
      rw [hpass]
      exact hu.plain
    have hne : decodePass P u ≠ [] := by
      rw [hpass]
      exact hu.ne_nil
    rw [decodePass_plain_append P hplain hne hno, hpass]
  refine ⟨a, u, b, rfl, by rw [hpass, hpass]; exact hu, hfirst a b, ?_⟩
  rw [hsplit]
  exact hfirst _ _

/-- **When further passes hide nothing**: every literal that a single decoding shows is shown
to the detectors, exactly when `expect://` is, where it occurs at all. -/
theorem passes_keep_iff (v : Str) :
    (∀ i, OccursIn i (Utf8.encode (decodePass P v)) → OccursIn i (Utf8.encode (decode P v))) ↔
      (OccursIn expectWrapper (Utf8.encode (decodePass P v)) → SpelledIn P expectWrapper (decodePass P v)) := by
  have hdecode : decode P v = decodePass P (decodePass P (decodePass P v)) := decode_eq_iterate P v
  rw [hdecode]
  constructor
  · intro h hexpect
    exact (occursIn_two_passes_iff P).mp (h expectWrapper hexpect)
  · intro h i hi
    rw [occursIn_two_passes_iff P]
    by_cases hne : i = expectWrapper
    · subst hne
      exact h hi
    · exact spelledIn_of_ne P hne hi

/-- `%252expect://` shows `expect://` to a backend that decodes once, and `.xpect://` to the
detectors. -/
theorem passes_hide_expect : ¬ ∀ i,
    OccursIn i (Utf8.encode (decodePass PercentDecoder.standard "%252expect://".toList)) →
      OccursIn i (Utf8.encode (decode PercentDecoder.standard "%252expect://".toList)) := by
  intro h
  have hseen : OccursIn expectWrapper
      (Utf8.encode (decodePass PercentDecoder.standard "%252expect://".toList)) := by decide +kernel
  have hlost : ¬ OccursIn expectWrapper
      (Utf8.encode (decode PercentDecoder.standard "%252expect://".toList)) := by decide +kernel
  exact hlost (h expectWrapper hseen)

end Signatures

end PurpleWolf
