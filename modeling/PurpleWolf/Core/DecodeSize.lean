import PurpleWolf.Core.DecodePasses
import PurpleWolf.Core.FieldOrder
import PurpleWolf.Lib.MixedText

/-! # Decoding does not amplify

A pass of the decoder turns an escape, which has three bytes, into one, and lossy decoding
turns that byte into three at most (`MixedText`).  So a pass never makes a text longer, and
neither do the passes of `decode`, nor what `Request::build` does to the query and the headers
(`decode_size`). -/

namespace PurpleWolf

open Text Utf8

variable (P : PercentDecoder)

/-! ### One pass -/

theorem exists_of_encode_eq_cons {s : Str} {b : UInt8} {bs : Bytes} (h : encode s = b :: bs) (hb : b.toNat < 0x80) :
    ∃ c t, s = c :: t ∧ c.utf8Size = 1 ∧ encode t = bs := by
  cases s with
  | nil => cases h
  | cons c t =>
      have hmem : b ∈ String.utf8EncodeChar c := by
        obtain ⟨b', bs', hc, -⟩ := head_encodeChar c
        rw [encode_cons, hc] at h
        rw [hc, (List.cons.inj h).1]
        exact List.mem_cons_self
      obtain ⟨hc, -⟩ := ascii_of_mem_encodeChar hmem hb
      refine ⟨c, t, rfl, ?_, ?_⟩
      · rw [← String.length_utf8EncodeChar, hc]
        rfl
      · rw [encode_cons, hc] at h
        exact (List.cons.inj h).2

/-- A pass takes three characters for an escape, or leaves a character alone. -/
theorem percentDecode_encode_cons (c : Char) (s : Str) :
    (∃ d e t b, s = d :: e :: t ∧ strLen (c :: s) = 3 + strLen t ∧
      P.percentDecode (encode (c :: s)) = b :: P.percentDecode (encode t)) ∨
    P.percentDecode (encode (c :: s)) = String.utf8EncodeChar c ++ P.percentDecode (encode s) := by
  obtain ⟨b, bs, hc, -⟩ := head_encodeChar c
  have hcons : encode (c :: s) = b :: (bs ++ encode s) := by
    rw [encode_cons, hc, List.cons_append]
  cases hescape : escapedByte (b :: (bs ++ encode s)) with
  | some byte =>
      left
      obtain ⟨rfl, d, e, rest, htail, hd, he⟩ := escapedByte_eq_some hescape
      have hdecode := percentDecode_escape P hescape
      rw [htail] at hcons hdecode
      obtain ⟨c', s', hcs, hsize, hs⟩ := exists_of_encode_eq_cons hcons (by decide)
      obtain ⟨rfl, rfl⟩ := List.cons.inj hcs
      obtain ⟨d', t', rfl, hd', ht'⟩ := exists_of_encode_eq_cons hs (plainByte_of_hexValue hd).2
      obtain ⟨e', t, rfl, he', ht⟩ := exists_of_encode_eq_cons ht' (plainByte_of_hexValue he).2
      refine ⟨d', e', t, byte, rfl, ?_, ?_⟩
      · rw [strLen_cons, strLen_cons, strLen_cons]
        omega
      · rw [hcons, hdecode, ht]
        rfl
  | none =>
      right
      by_cases hmem : (0x25 : UInt8) ∈ String.utf8EncodeChar c
      · obtain ⟨hsingle, -⟩ := ascii_of_mem_encodeChar hmem (by decide)
        rw [hsingle] at hc
        obtain ⟨rfl, rfl⟩ := List.cons.inj hc
        rw [hcons, P.literal _ _ hescape, hsingle]
        rfl
      · rw [encode_cons, percentDecode_append_of_not_mem P hmem]

/-- The escapes of a text are bytes between its other characters. -/
theorem exists_pieces (s : Str) :
    ∃ ps : List Piece, P.percentDecode (encode s) = ps.flatMap Piece.bytes ∧ (ps.map Piece.weight).sum = strLen s := by
  induction hn : s.length using Nat.strong_induction_on generalizing s with
  | _ n ih =>
      cases s with
      | nil => exact ⟨[], P.nil, rfl⟩
      | cons c s =>
          rw [List.length_cons] at hn
          obtain ⟨d, e, t, b, rfl, hsize, hdecode⟩ | hdecode := percentDecode_encode_cons P c s
          · rw [List.length_cons, List.length_cons] at hn
            obtain ⟨ps, hps, hweight⟩ := ih t.length (by omega) t rfl
            refine ⟨.byte b :: ps, ?_, ?_⟩
            · rw [hdecode, hps]
              rfl
            · rw [List.map_cons, List.sum_cons, hweight, hsize]
              rfl
          · obtain ⟨ps, hps, hweight⟩ := ih s.length (by omega) s rfl
            refine ⟨.char c :: ps, ?_, ?_⟩
            · rw [hdecode, hps]
              rfl
            · rw [List.map_cons, List.sum_cons, hweight, strLen_cons]
              rfl

theorem strLen_decodePass_le (s : Str) : strLen (decodePass P s) ≤ strLen s := by
  obtain ⟨ps, hps, hweight⟩ := exists_pieces P s
  unfold decodePass
  rw [hps, ← hweight]
  exact length_decodeLossy_le ps

/-! ### All passes -/

/-- The passes that `decodeLoop` makes. -/
def loopPasses : ℕ → Str → ℕ
  | 0, _ => 0
  | passes + 1, cur =>
      if '%' ∉ cur then 0
      else
        let next := decodePass P cur
        if next = cur then 1 else 1 + loopPasses passes next

/-- The passes that `decode` makes. -/
def decodePasses (s : Str) : ℕ := 1 + loopPasses P (MAX_DECODE_PASSES - 1) (decodePass P s)

theorem loopPasses_spec : ∀ (passes : ℕ) (cur : Str),
    loopPasses P passes cur ≤ passes ∧ decodeLoop P passes cur = (decodePass P)^[loopPasses P passes cur] cur
  | 0, _ => ⟨le_rfl, rfl⟩
  | passes + 1, cur => by
      obtain ⟨hle, heq⟩ := loopPasses_spec passes (decodePass P cur)
      unfold loopPasses decodeLoop
      simp only
      split_ifs with hpercent hfixed
      · exact ⟨by omega, hfixed.symm⟩
      · refine ⟨by omega, ?_⟩
        rw [heq, Nat.add_comm 1, Function.iterate_succ_apply]
      · exact ⟨Nat.zero_le _, rfl⟩

theorem decodePasses_spec (s : Str) :
    decodePasses P s ≤ MAX_DECODE_PASSES ∧ decode P s = (decodePass P)^[decodePasses P s] s := by
  obtain ⟨hle, heq⟩ := loopPasses_spec P (MAX_DECODE_PASSES - 1) (decodePass P s)
  unfold decodePasses
  constructor
  · have hmax : MAX_DECODE_PASSES = 3 := rfl
    omega
  · rw [Nat.add_comm 1, Function.iterate_succ_apply, ← heq]
    rfl

theorem strLen_iterate_le (n : ℕ) (s : Str) : strLen ((decodePass P)^[n] s) ≤ strLen s := by
  induction n with
  | zero => exact le_rfl
  | succ n ih =>
      rw [Function.iterate_succ_apply']
      exact (strLen_decodePass_le P _).trans ih

theorem strLen_decode_le (s : Str) : strLen (decode P s) ≤ strLen s := by
  rw [(decodePasses_spec P s).2]
  exact strLen_iterate_le P _ s

/-! ### The fields of a request -/

theorem sum_strLen_le_intercalate (sep : Str) : ∀ parts : List Str,
    (parts.map strLen).sum ≤ strLen (sep.intercalate parts)
  | [] => Nat.zero_le _
  | [part] => by
      rw [List.intercalate_singleton]
      exact le_rfl
  | part :: part' :: parts => by
      have hrest := sum_strLen_le_intercalate sep (part' :: parts)
      rw [List.intercalate_cons_cons, strLen_append, strLen_append, List.map_cons, List.sum_cons]
      omega

theorem strLen_queryValue_le (part : Str) : strLen (queryValue part) ≤ strLen part := by
  unfold queryValue
  cases hsplit : splitOnce '=' part with
  | none => exact Nat.zero_le _
  | some kv =>
      rw [splitOnce_eq_some hsplit, strLen_append, strLen_cons]
      simp only
      omega

theorem length_headerFields_le (value : Str) : ((headerFields P value).map List.length).sum ≤ 2 * strLen value := by
  have hdecode := strLen_decode_le P value
  have hraw : (encode value).length = strLen value := rfl
  have hdecoded : (encode (decode P value)).length = strLen (decode P value) := rfl
  unfold headerFields
  split_ifs
  · rw [List.map_cons, List.map_singleton, List.sum_cons, List.sum_singleton, hraw, hdecoded]
    omega
  · rw [List.map_singleton, List.sum_singleton, hraw]
    omega

theorem sum_queryValues_le (rawQuery : Str) :
    (((parseQuery P rawQuery).map (fun p => encode p.2)).map List.length).sum ≤ strLen rawQuery := by
  rw [parseQuery_values, List.map_map]
  have hvalue : ∀ part : Str, (encode (decode P (queryValue part))).length ≤ strLen part := by
    intro part
    exact (strLen_decode_le P _).trans (strLen_queryValue_le part)
  have hparts : (((rawQuery.splitOn '&').filter (fun part => !part.isEmpty)).map strLen).sum ≤
      ((rawQuery.splitOn '&').map strLen).sum :=
    (List.filter_sublist.map strLen).sum_le_sum (fun _ _ => Nat.zero_le _)
  have hall := sum_strLen_le_intercalate ['&'] (rawQuery.splitOn '&')
  rw [List.intercalate_splitOn] at hall
  exact (List.sum_le_sum fun part _ => hvalue part).trans (hparts.trans hall)

/-- **Decoding does not amplify**: not a text, in at most three passes; not the values of the
query, all together; and an inspected header contributes at most twice its size. -/
theorem decode_size :
    (∀ s, strLen (decode P s) ≤ strLen s ∧ decodePasses P s ≤ MAX_DECODE_PASSES ∧
      decode P s = (decodePass P)^[decodePasses P s] s) ∧
    ∀ method host path rawQuery headers body bodyInspected sourceIp,
      let req := Request.build P method host path rawQuery headers body bodyInspected sourceIp
      ((req.queryParams.map (fun p => encode p.2)).map List.length).sum ≤ strLen rawQuery ∧
        req.inspectableHeaders =
          (headers.filter (fun header => isInspectedName header.1)).flatMap (fun header => headerFields P header.2) ∧
        ∀ header ∈ headers, ((headerFields P header.2).map List.length).sum ≤ 2 * strLen header.2 := by
  refine ⟨?_, ?_⟩
  · intro s
    exact ⟨strLen_decode_le P s, decodePasses_spec P s⟩
  · intro method host path rawQuery headers body bodyInspected sourceIp req
    refine ⟨sum_queryValues_le P rawQuery, inspectableHeaders_build P headers, ?_⟩
    intro header _
    exact length_headerFields_le P header.2

end PurpleWolf
