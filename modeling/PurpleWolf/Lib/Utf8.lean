import Mathlib.Tactic

/-! # UTF-8 text

`encode` is the UTF-8 form of a list of characters.  Decoding runs a small state machine
over the bytes: a `Pending` state remembers how many continuation bytes the current
character still owes and between which bounds the next one must lie.  Each maximal
malformed piece of the input yields one `none` in `units`, so that the two standard
decoders are read off the same run:

* **Lossy decoding** (`decodeLossy`) replaces every malformed piece by U+FFFD.
* **Strict decoding** (`decode?`) fails when there is one.

`units_encode` and `encode_decodeLossy` are the round trips, and `units_append_ascii` says
that decoding never looks across an ASCII byte. -/

namespace PurpleWolf.Utf8

/-! ### Encoding -/

/-- The UTF-8 bytes of a text. -/
def encode (s : List Char) : List UInt8 := s.flatMap String.utf8EncodeChar

@[simp] theorem encode_nil : encode [] = [] := rfl

@[simp] theorem encode_cons (c : Char) (s : List Char) :
    encode (c :: s) = String.utf8EncodeChar c ++ encode s := List.flatMap_cons

@[simp] theorem encode_append (s t : List Char) : encode (s ++ t) = encode s ++ encode t :=
  List.flatMap_append

/-! ### The decoder -/

/-- A character whose first byte has been read: `needed` continuation bytes are owed, the
next of them must lie in `[lower, upper]`, and `code` holds the bits read so far. -/
structure Pending where
  needed : ℕ
  lower : ℕ
  upper : ℕ
  code : ℕ
  /-- A continuation byte is never an ASCII byte. -/
  lower_le : 0x80 ≤ lower

/-- A byte read between characters. -/
def start (b : ℕ) : Option Pending × List (Option Char) :=
  if b < 0x80 then (none, [some (Char.ofNat b)])
  else if b < 0xC2 then (none, [none])
  else if b < 0xE0 then (some ⟨1, 0x80, 0xBF, b - 0xC0, le_rfl⟩, [])
  else if b < 0xF0 then
    (some ⟨2, if b = 0xE0 then 0xA0 else 0x80, if b = 0xED then 0x9F else 0xBF, b - 0xE0,
      by split_ifs <;> omega⟩, [])
  else if b < 0xF5 then
    (some ⟨3, if b = 0xF0 then 0x90 else 0x80, if b = 0xF4 then 0x8F else 0xBF, b - 0xF0,
      by split_ifs <;> omega⟩, [])
  else (none, [none])

/-- One byte: the next state and the units completed by it.  A byte that cannot continue
the current character closes a malformed piece and is read again as a first byte. -/
def step : Option Pending → ℕ → Option Pending × List (Option Char)
  | none, b => start b
  | some p, b =>
      if p.lower ≤ b ∧ b ≤ p.upper then
        if p.needed = 1 then (none, [some (Char.ofNat (p.code * 64 + (b - 0x80)))])
        else (some ⟨p.needed - 1, 0x80, 0xBF, p.code * 64 + (b - 0x80), le_rfl⟩, [])
      else ((start b).1, none :: (start b).2)

/-- The units of the rest of the input; a character cut off by the end is malformed. -/
def scan : Option Pending → List UInt8 → List (Option Char)
  | none, [] => []
  | some _, [] => [none]
  | p, b :: bs => (step p b.toNat).2 ++ scan (step p b.toNat).1 bs

/-- The characters of the input in order, `none` standing for a malformed piece. -/
def units (bs : List UInt8) : List (Option Char) := scan none bs

/-- Lossy decoding (`String::from_utf8_lossy`). -/
def decodeLossy (bs : List UInt8) : List Char := (units bs).map (·.getD '\uFFFD')

/-- Strict decoding (`String::from_utf8`). -/
def decode? (bs : List UInt8) : Option (List Char) :=
  if none ∈ units bs then none else some (decodeLossy bs)

@[simp] theorem units_nil : units [] = [] := rfl

@[simp] theorem decodeLossy_nil : decodeLossy [] = [] := rfl

theorem scan_cons (p : Option Pending) (b : UInt8) (bs : List UInt8) :
    scan p (b :: bs) = (step p b.toNat).2 ++ scan (step p b.toNat).1 bs := by
  cases p <;> rfl

/-! ### The round trip -/

theorem start_two {b : ℕ} (h : 0xC2 ≤ b) (h' : b < 0xE0) :
    start b = (some ⟨1, 0x80, 0xBF, b - 0xC0, le_rfl⟩, []) := by
  unfold start
  rw [if_neg (by omega), if_neg (by omega), if_pos h']

theorem scan_continue {p : Pending} {b : UInt8} {bs : List UInt8} (h : p.lower ≤ b.toNat)
    (h' : b.toNat ≤ p.upper) (hn : p.needed ≠ 1) :
    scan (some p) (b :: bs) =
      scan (some ⟨p.needed - 1, 0x80, 0xBF, p.code * 64 + (b.toNat - 0x80), le_rfl⟩) bs := by
  rw [scan_cons, step, if_pos ⟨h, h'⟩, if_neg hn, List.nil_append]

theorem scan_finish {p : Pending} {b : UInt8} {bs : List UInt8} (h : p.lower ≤ b.toNat)
    (h' : b.toNat ≤ p.upper) (hn : p.needed = 1) :
    scan (some p) (b :: bs) = some (Char.ofNat (p.code * 64 + (b.toNat - 0x80))) :: scan none bs := by
  rw [scan_cons, step, if_pos ⟨h, h'⟩, if_pos hn, List.singleton_append]

theorem toNat_ofNat {n : ℕ} (h : n < 256) : (UInt8.ofNat n).toNat = n := by
  simp [Nat.mod_eq_of_lt h]

theorem scan_encodeChar (c : Char) (bs : List UInt8) :
    scan none (String.utf8EncodeChar c ++ bs) = some c :: scan none bs := by
  have hc : Char.ofNat c.val.toNat = c := Char.ofNat_toNat c
  have hv : c.val.toNat < 0xD800 ∨ 0xDFFF < c.val.toNat ∧ c.val.toNat < 0x110000 := c.valid
  unfold String.utf8EncodeChar
  generalize c.val.toNat = v at hc hv
  show scan none ((if v ≤ 0x7f then _ else _) ++ bs) = _
  split_ifs with h1 h2 h3
  · rw [List.singleton_append, scan_cons, toNat_ofNat (by omega), step, start, if_pos (by omega), hc,
      List.singleton_append]
  · have e1 : (UInt8.ofNat (v / 64 % 32 + 192)).toNat = v / 64 + 192 := by
      rw [toNat_ofNat (by omega)]; omega
    have e2 : (UInt8.ofNat (v % 64 + 128)).toNat = v % 64 + 128 := toNat_ofNat (by omega)
    rw [List.cons_append, List.singleton_append, scan_cons, e1, step, start_two (by omega) (by omega),
      List.nil_append, scan_finish (by rw [e2]; simp only; omega) (by rw [e2]; simp only; omega) rfl, e2]
    have : (v / 64 + 192 - 192) * 64 + (v % 64 + 128 - 128) = v := by omega
    rw [this, hc]
  · have e1 : (UInt8.ofNat (v / 4096 % 16 + 224)).toNat = v / 4096 + 224 := by
      rw [toNat_ofNat (by omega)]; omega
    have e2 : (UInt8.ofNat (v / 64 % 64 + 128)).toNat = v / 64 % 64 + 128 := toNat_ofNat (by omega)
    have e3 : (UInt8.ofNat (v % 64 + 128)).toNat = v % 64 + 128 := toNat_ofNat (by omega)
    rw [List.cons_append, List.cons_append, List.singleton_append, scan_cons, e1, step, start,
      if_neg (by omega), if_neg (by omega), if_neg (by omega), if_pos (by omega), List.nil_append,
      scan_continue (by rw [e2]; simp only; split_ifs <;> omega)
        (by rw [e2]; simp only; split_ifs <;> omega) (by simp),
      scan_finish (by rw [e3]; simp only; omega) (by rw [e3]; simp only; omega) rfl, e2, e3]
    have : ((v / 4096 + 224 - 224) * 64 + (v / 64 % 64 + 128 - 128)) * 64 + (v % 64 + 128 - 128) = v := by
      omega
    rw [this, hc]
  · have e1 : (UInt8.ofNat (v / 262144 % 8 + 240)).toNat = v / 262144 + 240 := by
      rw [toNat_ofNat (by omega)]; omega
    have e2 : (UInt8.ofNat (v / 4096 % 64 + 128)).toNat = v / 4096 % 64 + 128 := toNat_ofNat (by omega)
    have e3 : (UInt8.ofNat (v / 64 % 64 + 128)).toNat = v / 64 % 64 + 128 := toNat_ofNat (by omega)
    have e4 : (UInt8.ofNat (v % 64 + 128)).toNat = v % 64 + 128 := toNat_ofNat (by omega)
    rw [List.cons_append, List.cons_append, List.cons_append, List.singleton_append, scan_cons, e1, step,
      start, if_neg (by omega), if_neg (by omega), if_neg (by omega), if_neg (by omega),
      if_pos (by omega), List.nil_append,
      scan_continue (by rw [e2]; simp only; split_ifs <;> omega)
        (by rw [e2]; simp only; split_ifs <;> omega) (by simp),
      scan_continue (by rw [e3]; simp only; omega) (by rw [e3]; simp only; omega) (by simp),
      scan_finish (by rw [e4]; simp only; omega) (by rw [e4]; simp only; omega) rfl, e2, e3, e4]
    have : (((v / 262144 + 240 - 240) * 64 + (v / 4096 % 64 + 128 - 128)) * 64 +
        (v / 64 % 64 + 128 - 128)) * 64 + (v % 64 + 128 - 128) = v := by
      omega
    rw [this, hc]

theorem units_encode_append (s : List Char) (bs : List UInt8) :
    units (encode s ++ bs) = s.map some ++ units bs := by
  induction s with
  | nil => rfl
  | cons c s ih =>
      rw [encode_cons, List.append_assoc, units, scan_encodeChar]
      unfold units at ih
      rw [ih]
      rfl

theorem units_encode (s : List Char) : units (encode s) = s.map some := by
  simpa using units_encode_append s []

@[simp] theorem decodeLossy_encode (s : List Char) : decodeLossy (encode s) = s := by
  simp [decodeLossy, units_encode]

@[simp] theorem decode?_encode (s : List Char) : decode? (encode s) = some s := by
  simp [decode?, units_encode]

/-! ### ASCII bytes separate -/

/-- An ASCII byte inside an encoded character is the whole of it. -/
theorem ascii_of_mem_encodeChar {c : Char} {b : UInt8} (hb : b ∈ String.utf8EncodeChar c)
    (h : b.toNat < 0x80) : String.utf8EncodeChar c = [b] ∧ c.toNat = b.toNat := by
  have hc : c.toNat = c.val.toNat := rfl
  unfold String.utf8EncodeChar at hb ⊢
  rw [hc]
  generalize c.val.toNat = v at hb
  simp only at hb ⊢
  split_ifs at hb ⊢ with h1 h2 h3
  · rw [List.mem_singleton.mp hb, toNat_ofNat (by omega)]
    exact ⟨rfl, rfl⟩
  all_goals
    simp only [List.mem_cons, List.not_mem_nil, or_false] at hb
    rcases hb with rfl | hb
    · rw [toNat_ofNat (by omega)] at h
      omega
  · rw [hb, toNat_ofNat (by omega)] at h
    omega
  · rcases hb with rfl | rfl <;> rw [toNat_ofNat (by omega)] at h <;> omega
  · rcases hb with rfl | rfl | rfl <;> rw [toNat_ofNat (by omega)] at h <;> omega

theorem ne_of_mem_encodeChar {c : Char} {b : UInt8} (hb : b ∈ String.utf8EncodeChar c) (d : Char)
    (hd : d.toNat < 0x80) (hne : c ≠ d) : b ≠ UInt8.ofNat d.toNat := by
  rintro rfl
  have hn : (UInt8.ofNat d.toNat).toNat = d.toNat := toNat_ofNat (by omega)
  obtain ⟨-, he⟩ := ascii_of_mem_encodeChar hb (by omega)
  apply hne
  rw [← Char.ofNat_toNat c, ← Char.ofNat_toNat d, he, hn]

theorem mem_encode {s : List Char} {b : UInt8} : b ∈ encode s ↔ ∃ c ∈ s, b ∈ String.utf8EncodeChar c :=
  List.mem_flatMap

theorem encodeChar_ascii {c : Char} (h : c.toNat < 0x80) :
    String.utf8EncodeChar c = [UInt8.ofNat c.toNat] := by
  have hc : c.toNat = c.val.toNat := rfl
  unfold String.utf8EncodeChar
  rw [hc] at h ⊢
  show (if c.val.toNat ≤ 0x7f then _ else _) = _
  rw [if_pos (by omega)]

theorem scan_append_ascii {b : UInt8} (hb : b.toNat < 0x80) (bs : List UInt8) :
    ∀ (as : List UInt8) (p : Option Pending),
      scan p (as ++ b :: bs) = scan p as ++ scan none (b :: bs)
  | [], none => rfl
  | [], some p => by
      have hp := p.lower_le
      rw [List.nil_append, scan_cons, step, if_neg (by omega)]
      rfl
  | a :: as, p => by
      rw [List.cons_append, scan_cons, scan_cons p, scan_append_ascii hb bs as, List.append_assoc]

/-- Decoding never looks across an ASCII byte. -/
theorem units_append_ascii {b : UInt8} (hb : b.toNat < 0x80) (as bs : List UInt8) :
    units (as ++ b :: bs) = units as ++ units (b :: bs) := scan_append_ascii hb bs as none

theorem units_ascii_cons {b : UInt8} (hb : b.toNat < 0x80) (bs : List UInt8) :
    units (b :: bs) = some (Char.ofNat b.toNat) :: units bs := by
  unfold units
  rw [scan_cons, step, start, if_pos hb, List.singleton_append]

theorem decodeLossy_append_ascii {b : UInt8} (hb : b.toNat < 0x80) (as bs : List UInt8) :
    decodeLossy (as ++ b :: bs) = decodeLossy as ++ Char.ofNat b.toNat :: decodeLossy bs := by
  unfold decodeLossy
  rw [units_append_ascii hb, units_ascii_cons hb, List.map_append]
  rfl

/-! ### Valid text -/

/-- No piece of the input is malformed. -/
def Valid (bs : List UInt8) : Prop := none ∉ units bs

instance (bs : List UInt8) : Decidable (Valid bs) := inferInstanceAs (Decidable (_ ∉ _))

theorem decode?_eq_none_iff {bs : List UInt8} : decode? bs = none ↔ ¬ Valid bs := by
  unfold decode? Valid
  split_ifs with h <;> simp [h]

/-- A character that is owed bytes gets one, and then either needs more or is complete. -/
theorem scan_pending {p : Pending} {bs : List UInt8} (h : none ∉ scan (some p) bs) :
    ∃ b rest, bs = b :: rest ∧ p.lower ≤ b.toNat ∧ b.toNat ≤ p.upper ∧
      if p.needed = 1 then Valid rest
      else none ∉ scan (some ⟨p.needed - 1, 0x80, 0xBF, p.code * 64 + (b.toNat - 0x80), le_rfl⟩) rest := by
  cases bs with
  | nil => exact absurd (List.mem_singleton_self _) h
  | cons b rest =>
      by_cases hb : p.lower ≤ b.toNat ∧ b.toNat ≤ p.upper
      · refine ⟨b, rest, rfl, hb.1, hb.2, ?_⟩
        split_ifs with hn
        · rw [scan_finish hb.1 hb.2 hn, List.mem_cons, not_or] at h
          exact h.2
        · rw [scan_continue hb.1 hb.2 hn] at h
          exact h
      · rw [scan_cons, step, if_neg hb] at h
        simp at h

theorem scan_pending_two {p : Pending} {bs : List UInt8} (hp : p.needed = 2) (h : none ∉ scan (some p) bs) :
    ∃ c d rest, bs = c :: d :: rest ∧ (p.lower ≤ c.toNat ∧ c.toNat ≤ p.upper) ∧
      (0x80 ≤ d.toNat ∧ d.toNat ≤ 0xBF) ∧ Valid rest := by
  obtain ⟨c, rest, rfl, hlo, hhi, h⟩ := scan_pending h
  rw [if_neg (by omega)] at h
  obtain ⟨d, rest, rfl, hlo', hhi', h⟩ := scan_pending h
  rw [if_pos (by rw [hp])] at h
  exact ⟨c, d, rest, rfl, ⟨hlo, hhi⟩, ⟨hlo', hhi'⟩, h⟩

theorem scan_pending_three {p : Pending} {bs : List UInt8} (hp : p.needed = 3) (h : none ∉ scan (some p) bs) :
    ∃ c d e rest, bs = c :: d :: e :: rest ∧ (p.lower ≤ c.toNat ∧ c.toNat ≤ p.upper) ∧
      (0x80 ≤ d.toNat ∧ d.toNat ≤ 0xBF) ∧ (0x80 ≤ e.toNat ∧ e.toNat ≤ 0xBF) ∧ Valid rest := by
  obtain ⟨c, rest, rfl, hlo, hhi, h⟩ := scan_pending h
  rw [if_neg (by omega)] at h
  obtain ⟨d, e, rest, rfl, hd, he, h⟩ := scan_pending_two (by rw [hp]) h
  exact ⟨c, d, e, rest, rfl, ⟨hlo, hhi⟩, hd, he, h⟩

/-! The encoding of a scalar value, by its number of bytes. -/

theorem encodeChar_ofNat {v : ℕ} (h : v < 0xD800 ∨ 0xDFFF < v ∧ v < 0x110000) :
    String.utf8EncodeChar (Char.ofNat v) =
      if v ≤ 0x7F then [UInt8.ofNat v]
      else if v ≤ 0x7FF then [UInt8.ofNat (v / 64 % 32 + 0xC0), UInt8.ofNat (v % 64 + 0x80)]
      else if v ≤ 0xFFFF then
        [UInt8.ofNat (v / 4096 % 16 + 0xE0), UInt8.ofNat (v / 64 % 64 + 0x80), UInt8.ofNat (v % 64 + 0x80)]
      else
        [UInt8.ofNat (v / 262144 % 8 + 0xF0), UInt8.ofNat (v / 4096 % 64 + 0x80),
          UInt8.ofNat (v / 64 % 64 + 0x80), UInt8.ofNat (v % 64 + 0x80)] := by
  have hv : (Char.ofNat v).val.toNat = v := by
    unfold Char.ofNat
    rw [dif_pos h]
    rfl
  unfold String.utf8EncodeChar
  rw [hv]

theorem ofNat_eq {n : ℕ} {b : UInt8} (h : n = b.toNat) : UInt8.ofNat n = b := by
  rw [h, UInt8.ofNat_toNat]

theorem Valid.uncons {b : UInt8} {bs : List UInt8} (h : Valid (b :: bs)) :
    ∃ c rest, b :: bs = String.utf8EncodeChar c ++ rest ∧ Valid rest := by
  have hb := b.toNat_lt
  change none ∉ scan none (b :: bs) at h
  rw [scan_cons, show step none b.toNat = start b.toNat from rfl, start] at h
  by_cases h1 : b.toNat < 0x80
  · refine ⟨Char.ofNat b.toNat, bs, ?_, ?_⟩
    · rw [encodeChar_ofNat (Or.inl (by omega)), if_pos (by omega), ofNat_eq rfl]
      rfl
    · rw [if_pos h1, List.singleton_append, List.mem_cons, not_or] at h
      exact h.2
  rw [if_neg h1] at h
  by_cases h2 : b.toNat < 0xC2
  · rw [if_pos h2] at h
    simp at h
  rw [if_neg h2] at h
  by_cases h3 : b.toNat < 0xE0
  · rw [if_pos h3, List.nil_append] at h
    obtain ⟨c, rest, rfl, hlo, hhi, h⟩ := scan_pending h
    simp only at hlo hhi
    refine ⟨Char.ofNat ((b.toNat - 0xC0) * 64 + (c.toNat - 0x80)), rest, ?_, by simpa using h⟩
    rw [encodeChar_ofNat (Or.inl (by omega)), if_neg (by omega), if_pos (by omega),
      ofNat_eq (b := b) (by omega), ofNat_eq (b := c) (by omega)]
    rfl
  rw [if_neg h3] at h
  by_cases h4 : b.toNat < 0xF0
  · rw [if_pos h4, List.nil_append] at h
    obtain ⟨c, d, rest, rfl, ⟨hlo, hhi⟩, hd, h⟩ := scan_pending_two rfl h
    simp only at hlo hhi
    have hc : 0x80 ≤ c.toNat ∧ c.toNat ≤ 0xBF ∧ (b.toNat = 0xE0 → 0xA0 ≤ c.toNat) ∧
        (b.toNat = 0xED → c.toNat ≤ 0x9F) := by
      split_ifs at hlo hhi <;> omega
    refine ⟨Char.ofNat (((b.toNat - 0xE0) * 64 + (c.toNat - 0x80)) * 64 + (d.toNat - 0x80)), rest, ?_, h⟩
    rw [encodeChar_ofNat (by omega), if_neg (by omega), if_neg (by omega), if_pos (by omega),
      ofNat_eq (b := b) (by omega), ofNat_eq (b := c) (by omega), ofNat_eq (b := d) (by omega)]
    rfl
  rw [if_neg h4] at h
  by_cases h5 : b.toNat < 0xF5
  · rw [if_pos h5, List.nil_append] at h
    obtain ⟨c, d, e, rest, rfl, ⟨hlo, hhi⟩, hd, he, h⟩ := scan_pending_three rfl h
    simp only at hlo hhi
    have hc : 0x80 ≤ c.toNat ∧ c.toNat ≤ 0xBF ∧ (b.toNat = 0xF0 → 0x90 ≤ c.toNat) ∧
        (b.toNat = 0xF4 → c.toNat ≤ 0x8F) := by
      split_ifs at hlo hhi <;> omega
    refine ⟨Char.ofNat ((((b.toNat - 0xF0) * 64 + (c.toNat - 0x80)) * 64 + (d.toNat - 0x80)) * 64 +
      (e.toNat - 0x80)), rest, ?_, h⟩
    rw [encodeChar_ofNat (by omega), if_neg (by omega), if_neg (by omega), if_neg (by omega),
      ofNat_eq (b := b) (by omega), ofNat_eq (b := c) (by omega), ofNat_eq (b := d) (by omega),
      ofNat_eq (b := e) (by omega)]
    rfl
  rw [if_neg h5] at h
  simp at h

/-- **Decoding valid text loses nothing.** -/
theorem encode_decodeLossy {bs : List UInt8} (h : Valid bs) : encode (decodeLossy bs) = bs := by
  induction hn : bs.length using Nat.strong_induction_on generalizing bs with
  | _ n ih =>
      cases bs with
      | nil => rfl
      | cons b bs =>
          obtain ⟨c, rest, heq, hrest⟩ := h.uncons
          have hlen := congrArg List.length heq
          have hpos := String.length_utf8EncodeChar c
          rw [List.length_append] at hlen
          have hshort : rest.length < n := by
            have := Char.utf8Size_pos c
            omega
          rw [heq]
          unfold decodeLossy units
          rw [scan_encodeChar, List.map_cons, encode_cons]
          congr 1
          exact ih _ hshort hrest rfl

theorem encode_of_decode? {bs : List UInt8} {s : List Char} (h : decode? bs = some s) : encode s = bs := by
  have hvalid : Valid bs := by
    by_contra hnot
    rw [decode?_eq_none_iff.mpr hnot] at h
    cases h
  unfold decode? at h
  rw [if_neg hvalid] at h
  rw [← Option.some.inj h, encode_decodeLossy hvalid]

end PurpleWolf.Utf8
