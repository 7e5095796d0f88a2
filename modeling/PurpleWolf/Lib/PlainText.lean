import PurpleWolf.Lib.Utf8

/-! # ASCII text inside UTF-8

Lossy decoding may replace what it cannot read, but it never makes up an ASCII character:
ASCII text in its output comes from the same bytes of the input, and the bytes around it
are decoded apart (`decodeLossy_eq_append`).  The zero character is left out, because
`Char.ofNat` stands it in for numbers that are no character. -/

namespace PurpleWolf.Utf8

/-! ### A long character is not ASCII -/

/-- Enough bits have been read, or are required next, that the character will not be ASCII. -/
def Pending.Wide (p : Pending) : Prop :=
  2 ≤ p.code ∨ p.needed ≠ 1 ∧ 2 ≤ p.code * 64 + (p.lower - 0x80)

theorem start_wide {b : ℕ} {q : Pending} (h : (start b).1 = some q) : q.Wide := by
  unfold start at h
  unfold Pending.Wide
  split_ifs at h <;> (cases h; simp only; try split_ifs) <;> omega

theorem step_wide {p : Option Pending} (hp : ∀ q, p = some q → q.Wide) {b : ℕ} {q : Pending}
    (h : (step p b).1 = some q) : q.Wide := by
  cases p with
  | none => exact start_wide h
  | some p =>
      have hwide := hp p rfl
      unfold Pending.Wide at hwide ⊢
      simp only [step] at h
      split_ifs at h with hb hn
      · cases h
        left
        simp only
        omega
      · exact start_wide h

theorem ofNat_ne {c : Char} (hc : c.toNat < 0x80) (h0 : c.toNat ≠ 0) {n : ℕ} (hn : 0x80 ≤ n) : Char.ofNat n ≠ c := by
  rintro rfl
  by_cases hv : n.isValidChar
  · have hval : (Char.ofNat n).toNat = n := by
      unfold Char.ofNat
      rw [dif_pos hv]
      rfl
    omega
  · unfold Char.ofNat at h0
    rw [dif_neg hv] at h0
    exact h0 rfl

theorem toNat_char {n : ℕ} (h : n < 0xD800) : (Char.ofNat n).toNat = n := by
  unfold Char.ofNat
  rw [dif_pos (Or.inl h)]
  rfl

/-- An ASCII character is completed by its own byte only. -/
theorem step_ascii {c : Char} (hc : c.toNat < 0x80) (h0 : c.toNat ≠ 0) {p : Option Pending}
    (hp : ∀ q, p = some q → q.Wide) {b : UInt8} (h : some c ∈ (step p b.toNat).2) :
    b = UInt8.ofNat c.toNat ∧ (step p b.toNat).1 = none ∧ (step p b.toNat).2 = scan p [] ++ [some c] := by
  have hstart : some c ∈ (start b.toNat).2 →
      b = UInt8.ofNat c.toNat ∧ (start b.toNat).1 = none ∧ (start b.toNat).2 = [some c] := by
    unfold start
    split_ifs with h1 <;> simp only [List.mem_singleton, List.not_mem_nil, Option.some.injEq, reduceCtorEq,
      false_implies]
    rintro rfl
    exact ⟨(ofNat_eq (toNat_char (by omega))).symm, trivial, rfl⟩
  cases p with
  | none => exact hstart h
  | some p =>
      have hwide := hp p rfl
      simp only [step] at h ⊢
      split_ifs at h ⊢ with hb hn
      · exfalso
        rw [List.mem_singleton, Option.some.injEq] at h
        unfold Pending.Wide at hwide
        exact ofNat_ne hc h0 (by omega) h.symm
      · cases h
      · rw [List.mem_cons] at h
        obtain h | h := h
        · cases h
        · obtain ⟨rfl, hnone, hunits⟩ := hstart h
          exact ⟨rfl, hnone, by rw [hunits]; rfl⟩

/-- An ASCII character comes from its byte, and the bytes around it are decoded apart. -/
theorem scan_eq_append {c : Char} (hc : c.toNat < 0x80) (h0 : c.toNat ≠ 0) {cs : List (Option Char)} :
    ∀ (bs : List UInt8) (p : Option Pending) (as : List (Option Char)), (∀ q, p = some q → q.Wide) →
      scan p bs = as ++ some c :: cs →
      ∃ as' cs', bs = as' ++ UInt8.ofNat c.toNat :: cs' ∧ scan p as' = as ∧ scan none cs' = cs
  | [], p, as, _, h => by
      exfalso
      cases p <;> cases as <;> simp [scan] at h
  | b :: bs, p, as, hp, h => by
      rw [scan_cons] at h
      obtain ⟨as', has, hrest⟩ | ⟨rest, hunits, hrest⟩ := List.append_eq_append_iff.mp h
      · obtain ⟨before, after, rfl, hbefore, hafter⟩ := scan_eq_append hc h0 bs _ as' (fun q => step_wide hp) hrest
        exact ⟨b :: before, after, rfl, by rw [scan_cons, hbefore, has], hafter⟩
      · cases rest with
        | nil =>
            rw [List.nil_append] at hrest
            rw [List.append_nil] at hunits
            obtain ⟨before, after, rfl, hbefore, hafter⟩ := scan_eq_append hc h0 bs _ []
              (fun q => step_wide hp) hrest.symm
            exact ⟨b :: before, after, rfl, by rw [scan_cons, hbefore, hunits, List.append_nil], hafter⟩
        | cons u rest =>
            obtain ⟨rfl, rfl⟩ := List.cons.inj hrest
            obtain ⟨rfl, hnone, hlast⟩ := step_ascii hc h0 hp (b := b) (by rw [hunits]; simp)
            obtain ⟨rfl, rfl⟩ : as = scan p [] ∧ rest = [] := by
              rw [hunits] at hlast
              cases p with
              | none => simpa [scan, List.append_eq_singleton_iff] using hlast
              | some p =>
                  cases as with
                  | nil => cases hlast
                  | cons a as => simpa [scan, List.append_eq_singleton_iff, and_assoc] using hlast
            refine ⟨[], bs, rfl, rfl, ?_⟩
            rw [← hnone]
            rfl

theorem scan_some_ne_nil : ∀ (bs : List UInt8) (p : Pending), scan (some p) bs ≠ []
  | [], _ => List.cons_ne_nil _ _
  | b :: bs, p => by
      by_cases hb : p.lower ≤ b.toNat ∧ b.toNat ≤ p.upper
      · by_cases hn : p.needed = 1
        · rw [scan_finish hb.1 hb.2 hn]
          exact List.cons_ne_nil _ _
        · rw [scan_continue hb.1 hb.2 hn]
          exact scan_some_ne_nil bs _
      · rw [scan_cons, step, if_neg hb]
        exact List.cons_ne_nil _ _

theorem decodeLossy_eq_nil {bs : List UInt8} (h : decodeLossy bs = []) : bs = [] := by
  cases bs with
  | nil => rfl
  | cons b bs =>
      exfalso
      have hunits : scan none (b :: bs) = [] := List.map_eq_nil_iff.mp h
      rw [scan_cons, List.append_eq_nil_iff] at hunits
      obtain ⟨hnone, hrest⟩ := hunits
      simp only [step, start] at hnone hrest
      split_ifs at hnone hrest
      all_goals exact scan_some_ne_nil _ _ hrest

/-! ### Plain text -/

/-- Text of ASCII characters other than the zero character. -/
def Plain (s : List Char) : Prop := ∀ c ∈ s, c.toNat ≠ 0 ∧ c.toNat < 0x80

theorem Plain.head {c : Char} {s : List Char} (h : Plain (c :: s)) : c.toNat ≠ 0 ∧ c.toNat < 0x80 :=
  h c List.mem_cons_self

theorem Plain.tail {c : Char} {s : List Char} (h : Plain (c :: s)) : Plain s :=
  fun d hd => h d (List.mem_cons_of_mem _ hd)

theorem encode_cons_ascii {c : Char} (hc : c.toNat < 0x80) (s : List Char) :
    encode (c :: s) = UInt8.ofNat c.toNat :: encode s := by
  rw [encode_cons, encodeChar_ascii hc]
  rfl

theorem decodeLossy_eq_append_cons {c : Char} (hc : c.toNat ≠ 0 ∧ c.toNat < 0x80) {bs : List UInt8} {as cs : List Char}
    (h : decodeLossy bs = as ++ c :: cs) :
    ∃ as' cs', bs = as' ++ UInt8.ofNat c.toNat :: cs' ∧ decodeLossy as' = as ∧ decodeLossy cs' = cs := by
  unfold decodeLossy at h
  obtain ⟨us, vs, hus, rfl, hvs⟩ := List.map_eq_append_iff.mp h
  obtain ⟨u, vs, rfl, hu, rfl⟩ := List.map_eq_cons_iff.mp hvs
  have hsome : u = some c := by
    cases u with
    | none =>
        exfalso
        rw [← hu] at hc
        exact absurd hc.2 (by decide)
    | some d => exact congrArg some hu
  rw [hsome] at hus
  obtain ⟨as', cs', rfl, has, hcs⟩ := scan_eq_append hc.2 hc.1 bs none us (by simp) hus
  exact ⟨as', cs', rfl, by rw [← has]; rfl, by rw [← hcs]; rfl⟩

/-- **Plain text comes from its own bytes**, and what is around it is decoded apart. -/
theorem decodeLossy_eq_append {u : List Char} (hu : Plain u) (hne : u ≠ []) {bs : List UInt8} {as cs : List Char}
    (h : decodeLossy bs = as ++ u ++ cs) :
    ∃ as' cs', bs = as' ++ encode u ++ cs' ∧ decodeLossy as' = as ∧ decodeLossy cs' = cs := by
  induction u generalizing bs as with
  | nil => exact absurd rfl hne
  | cons c u ih =>
      rw [List.append_assoc, List.cons_append] at h
      obtain ⟨as', cs', rfl, has, hcs⟩ := decodeLossy_eq_append_cons hu.head h
      cases u with
      | nil => exact ⟨as', cs', by rw [encode_cons_ascii hu.head.2]; simp, has, hcs⟩
      | cons d u =>
          have hnext : decodeLossy cs' = [] ++ (d :: u) ++ cs := hcs
          obtain ⟨gap, after, rfl, hgap, hafter⟩ := ih hu.tail (List.cons_ne_nil _ _) hnext
          rw [decodeLossy_eq_nil hgap, List.nil_append]
          exact ⟨as', after, by rw [encode_cons_ascii hu.head.2]; simp, has, hafter⟩

theorem decodeLossy_append_plain {u : List Char} (hu : Plain u) (hne : u ≠ []) (as cs : List UInt8) :
    decodeLossy (as ++ encode u ++ cs) = decodeLossy as ++ u ++ decodeLossy cs := by
  induction u generalizing as with
  | nil => exact absurd rfl hne
  | cons c u ih =>
      have hc := hu.head.2
      have hn : (UInt8.ofNat c.toNat).toNat = c.toNat := toNat_ofNat (by omega)
      rw [encode_cons_ascii hc, List.append_assoc, List.cons_append, decodeLossy_append_ascii (by omega), hn,
        Char.ofNat_toNat]
      cases u with
      | nil => simp
      | cons d u =>
          have := ih hu.tail (List.cons_ne_nil _ _) []
          rw [List.nil_append, decodeLossy_nil, List.nil_append] at this
          rw [this]
          simp

theorem eq_encode_of_plain {bs : List UInt8} (h : Plain (decodeLossy bs)) : bs = encode (decodeLossy bs) := by
  by_cases hne : decodeLossy bs = []
  · rw [decodeLossy_eq_nil hne]
    rfl
  · have hself : decodeLossy bs = [] ++ decodeLossy bs ++ [] := by simp
    obtain ⟨as, cs, heq, has, hcs⟩ := decodeLossy_eq_append h hne hself
    rw [decodeLossy_eq_nil has, decodeLossy_eq_nil hcs] at heq
    simpa using heq

/-- The bytes of plain text. -/
def PlainByte (b : UInt8) : Prop := b.toNat ≠ 0 ∧ b.toNat < 0x80

theorem plain_iff {s : List Char} : Plain s ↔ ∀ b ∈ encode s, PlainByte b := by
  constructor
  · intro h b hb
    obtain ⟨c, hc, hb⟩ := mem_encode.mp hb
    rw [encodeChar_ascii (h c hc).2, List.mem_singleton] at hb
    have hn : (UInt8.ofNat c.toNat).toNat = c.toNat := by
      apply toNat_ofNat
      have := (h c hc).2
      omega
    rw [hb]
    unfold PlainByte
    rw [hn]
    exact h c hc
  · intro h c hc
    obtain ⟨b, hb⟩ : ∃ b, b ∈ String.utf8EncodeChar c := by
      apply List.exists_mem_of_ne_nil
      intro hnil
      have hlen := String.length_utf8EncodeChar c
      have := Char.utf8Size_pos c
      rw [hnil, List.length_nil] at hlen
      omega
    have hplain := h b (mem_encode.mpr ⟨c, hc, hb⟩)
    rw [(ascii_of_mem_encodeChar hb hplain.2).2]
    exact hplain

theorem exists_encode_of_plain : ∀ {bs : List UInt8}, (∀ b ∈ bs, PlainByte b) → ∃ s, encode s = bs
  | [], _ => ⟨[], rfl⟩
  | b :: bs, h => by
      have hb : b.toNat < 0x80 := (h b List.mem_cons_self).2
      have hc : (Char.ofNat b.toNat).toNat = b.toNat := toNat_char (by omega)
      obtain ⟨s, rfl⟩ := exists_encode_of_plain (fun d hd => h d (List.mem_cons_of_mem _ hd))
      exact ⟨Char.ofNat b.toNat :: s, by rw [encode_cons_ascii (by omega), hc, UInt8.ofNat_toNat]⟩

/-! ### Cutting encoded text -/

theorem encode_injective {s t : List Char} (h : encode s = encode t) : s = t := by
  rw [← decodeLossy_encode s, h, decodeLossy_encode]

theorem encode_eq_encode_append {s t : List Char} {bs : List UInt8} (h : encode t = encode s ++ bs) :
    ∃ r, t = s ++ r ∧ encode r = bs := by
  have hvalid : Valid bs := by
    intro hnone
    have hunits := congrArg units h
    rw [units_encode, units_encode_append] at hunits
    have hmem : none ∈ t.map some := by
      rw [hunits]
      exact List.mem_append_right _ hnone
    simp at hmem
  refine ⟨decodeLossy bs, encode_injective ?_, encode_decodeLossy hvalid⟩
  rw [h, encode_append, encode_decodeLossy hvalid]

/-- An encoded text may be cut before each of its ASCII bytes. -/
theorem encode_eq_append_ascii {t : List Char} {as bs : List UInt8} {b : UInt8} (hb : b.toNat < 0x80)
    (h : encode t = as ++ b :: bs) : ∃ s r, t = s ++ r ∧ encode s = as ∧ encode r = b :: bs := by
  have hvalid : Valid as := by
    intro hnone
    have hunits := congrArg units h
    rw [units_encode, units_append_ascii hb] at hunits
    have hmem : none ∈ t.map some := by
      rw [hunits]
      exact List.mem_append_left _ hnone
    simp at hmem
  rw [← encode_decodeLossy hvalid] at h
  obtain ⟨r, hr, hbytes⟩ := encode_eq_encode_append h
  exact ⟨decodeLossy as, r, hr, encode_decodeLossy hvalid, hbytes⟩

theorem encode_eq_cons_ascii {t : List Char} {b : UInt8} {bs : List UInt8} (hb : b.toNat < 0x80)
    (h : encode t = b :: bs) : ∃ r, t = Char.ofNat b.toNat :: r ∧ encode r = bs := by
  have hc : (Char.ofNat b.toNat).toNat = b.toNat := toNat_char (by omega)
  have hhead : encode [Char.ofNat b.toNat] = [b] := by
    rw [encode_cons_ascii (by omega), hc, UInt8.ofNat_toNat]
    rfl
  rw [← List.singleton_append, ← hhead] at h
  exact encode_eq_encode_append h

end PurpleWolf.Utf8
