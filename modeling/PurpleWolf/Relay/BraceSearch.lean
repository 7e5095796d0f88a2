import PurpleWolf.Relay.Parser
import PurpleWolf.Lib.Braces
import PurpleWolf.Lib.JsonParser

/-! # The object search with its 32-bit depth

`findJsonObject` counts the open braces without a bound.  The source counts them in an `i32`, which
wraps in a release build, and `findJsonObjectI32` is the search with that register.  Over the
characters of a text the register holds the balance of the text modulo `2 ^ 32` (`findEndI32_char`),
so that the search stops at the first closing brace outside of strings that leaves a multiple of
`2 ^ 32` braces open (`Stops`), whether or not the object is closed.

On texts of up to 4 GiB no other multiple than zero can be left (`findJsonObjectI32_eq`).  In
general a returned range is an object's unless the text overruns the register (`Overruns`), and a
printed object is found exactly when no more than `2 ^ 32` of its objects are nested in one
another. -/

namespace PurpleWolf.Relay

open Quoting

/-- The registers of `find_json_object`. -/
structure BraceRegisters where
  depth : BitVec 32
  inString : Bool
  escape : Bool

namespace BraceRegisters

def step (r : BraceRegisters) (b : UInt8) : BraceRegisters :=
  if r.inString then
    if r.escape then { r with escape := false }
    else if b = 0x5C then { r with escape := true }
    else if b = 0x22 then { r with inString := false }
    else r
  else if b = 0x22 then { r with inString := true }
  else if b = 0x7B then { r with depth := r.depth + 1 }
  else if b = 0x7D then { r with depth := r.depth - 1 }
  else r

/-- The closing brace that takes the depth to zero. -/
def closes (r : BraceRegisters) (b : UInt8) : Bool := !r.inString && b == 0x7D && r.depth - 1 == 0

end BraceRegisters

def findEndI32 : BraceRegisters → ℕ → Bytes → Option ℕ
  | _, _, [] => none
  | r, i, b :: bs => if r.closes b then some i else findEndI32 (r.step b) (i + 1) bs

def findJsonObjectI32 (bytes : Bytes) : Option (ℕ × ℕ) :=
  match bytes.findIdx? (fun b => b == 0x7B) with
  | some start => (findEndI32 ⟨0, false, false⟩ start (bytes.drop start)).map (fun stop => (start, stop))
  | none => none

/-! ### The registers over characters -/

namespace BraceRegisters

/-- The registers after a text of balance `d` that ends in `q`. -/
def reading (d : ℤ) (q : Quoting) : BraceRegisters :=
  ⟨BitVec.ofInt 32 d, decide (q ≠ outside), decide (q = escaped)⟩

theorem ofInt_sub_one (d : ℤ) : BitVec.ofInt 32 d - 1 = BitVec.ofInt 32 (d - 1) := by
  rw [sub_eq_add_neg d, BitVec.ofInt_add, BitVec.ofInt_neg, BitVec.sub_eq_add_neg]
  rfl

theorem ofInt_add_one (d : ℤ) : BitVec.ofInt 32 d + 1 = BitVec.ofInt 32 (d + 1) := by
  rw [BitVec.ofInt_add]
  rfl

theorem ofInt_eq_zero_iff (d : ℤ) : BitVec.ofInt 32 d = 0 ↔ (2 ^ 32 : ℤ) ∣ d := by
  rw [← BitVec.toNat_inj, BitVec.toNat_ofInt]
  simp
  omega

theorem closes_reading (d : ℤ) (q : Quoting) (b : UInt8) :
    (reading d q).closes b = true ↔ q = outside ∧ b = 0x7D ∧ (2 ^ 32 : ℤ) ∣ d - 1 := by
  rw [← ofInt_eq_zero_iff, ← ofInt_sub_one]
  simp [closes, reading, and_assoc]

/-- A byte of a character that is not ASCII takes away the escape and nothing else. -/
theorem step_high (d : ℤ) (q : Quoting) {b : UInt8} (hb : ¬ b.toNat < 0x80) :
    (reading d q).step b = reading d (if q = escaped then inside else q) := by
  have h1 : b ≠ 0x5C := by rintro rfl; exact hb (by decide)
  have h2 : b ≠ 0x22 := by rintro rfl; exact hb (by decide)
  have h3 : b ≠ 0x7B := by rintro rfl; exact hb (by decide)
  have h4 : b ≠ 0x7D := by rintro rfl; exact hb (by decide)
  cases q <;> simp [step, reading, h1, h2, h3, h4]

theorem byte_eq_iff {c : Char} (hc : c.toNat < 0x80) (d : Char) (hd : d.toNat < 0x80) :
    UInt8.ofNat c.toNat = UInt8.ofNat d.toNat ↔ c = d := by
  refine ⟨fun h => ?_, fun h => by rw [h]⟩
  by_contra hne
  have hmem : UInt8.ofNat c.toNat ∈ String.utf8EncodeChar c := by
    rw [Utf8.encodeChar_ascii hc]
    exact List.mem_singleton_self _
  exact Utf8.ne_of_mem_encodeChar hmem d hd hne h

theorem step_ascii (d : ℤ) (q : Quoting) {c : Char} (hc : c.toNat < 0x80) :
    (reading d q).step (UInt8.ofNat c.toNat) = reading (d + q.weight c) (q.next c) := by
  have h1 : UInt8.ofNat c.toNat = 0x5C ↔ c = '\\' := byte_eq_iff hc '\\' (by decide)
  have h2 : UInt8.ofNat c.toNat = 0x22 ↔ c = '"' := byte_eq_iff hc '"' (by decide)
  have h3 : UInt8.ofNat c.toNat = 0x7B ↔ c = '\x7b' := byte_eq_iff hc '\x7b' (by decide)
  have h4 : UInt8.ofNat c.toNat = 0x7D ↔ c = '\x7d' := byte_eq_iff hc '\x7d' (by decide)
  unfold step
  simp only [h1, h2, h3, h4]
  cases q with
  | outside =>
      by_cases hq : c = '"'
      · subst hq
        simp [reading, next, weight]
      · by_cases ho : c = '\x7b'
        · subst ho
          simpa [reading, next, weight] using ofInt_add_one d
        · by_cases hb : c = '\x7d'
          · subst hb
            simpa [reading, next, weight, sub_eq_add_neg] using ofInt_sub_one d
          · simp [reading, next, weight, hq, ho, hb]
  | inside =>
      by_cases hs : c = '\\'
      · subst hs
        simp [reading, next, weight]
      · by_cases hq : c = '"'
        · subst hq
          simp [reading, next, weight]
        · simp [reading, next, weight, hs, hq]
  | escaped => simp [reading, next, weight]

end BraceRegisters

open BraceRegisters

/-! ### Texts of up to 4 GiB -/

namespace BraceScan

/-- The registers of the scan, with the depth in 32 bits. -/
def wrap (s : BraceScan) : BraceRegisters := ⟨BitVec.ofInt 32 s.depth, s.inString, s.escape⟩

theorem step_wrap {s : BraceScan} (hpos : 0 < s.depth) (b : UInt8) : s.wrap.step b = (s.step b).wrap := by
  have hsub : ((s.depth - 1 : ℕ) : ℤ) = (s.depth : ℤ) - 1 := by omega
  unfold BraceScan.step BraceRegisters.step wrap
  split_ifs <;> simp [*, ← ofInt_add_one, ← ofInt_sub_one]

/-- Below `2 ^ 32` the register is zero when the depth is. -/
theorem closes_wrap {s : BraceScan} (hpos : 0 < s.depth) (hle : s.depth ≤ 2 ^ 32) (b : UInt8) :
    s.wrap.closes b = s.closes b := by
  have hzero : BitVec.ofInt 32 (s.depth : ℤ) - 1 = 0 ↔ s.depth = 1 := by
    rw [ofInt_sub_one, ofInt_eq_zero_iff]
    omega
  have hdepth : (BitVec.ofInt 32 (s.depth : ℤ) - 1 == 0) = (s.depth == 1) := by
    rw [Bool.eq_iff_iff, beq_iff_eq, beq_iff_eq, hzero]
  unfold BraceRegisters.closes BraceScan.closes wrap
  rw [hdepth]

end BraceScan

/-- The depth stays positive until the object closes. -/
theorem findEndI32_wrap (bs : Bytes) : ∀ (s : BraceScan) (i : ℕ), 0 < s.depth → s.depth + bs.length ≤ 2 ^ 32 + 1 →
    findEndI32 s.wrap i bs = findEnd s i bs := by
  induction bs with
  | nil => exact fun _ _ _ _ => rfl
  | cons b bs ih =>
      intro s i hpos hle
      rw [List.length_cons] at hle
      rw [findEndI32, findEnd, BraceScan.closes_wrap hpos (by omega)]
      by_cases hc : s.closes b = true
      · rw [if_pos hc, if_pos hc]
      · have hstep : 0 < (s.step b).depth ∧ (s.step b).depth ≤ s.depth + 1 := by
          unfold BraceScan.closes at hc
          unfold BraceScan.step
          split_ifs <;> simp_all
          omega
        rw [if_neg hc, if_neg hc, BraceScan.step_wrap hpos, ih _ _ hstep.1 (by omega)]

theorem findJsonObjectI32_eq {bytes : Bytes} (h : bytes.length ≤ 2 ^ 32 + 1) :
    findJsonObjectI32 bytes = findJsonObject bytes := by
  unfold findJsonObjectI32 findJsonObject
  cases hidx : bytes.findIdx? (fun b => b == 0x7B) with
  | none => rfl
  | some start =>
      obtain ⟨hlt, hbrace, -⟩ := List.findIdx?_eq_some_iff_getElem.mp hidx
      have hdrop : bytes.drop start = 0x7B :: bytes.drop (start + 1) := by
        rw [List.drop_eq_getElem_cons hlt, eq_of_beq hbrace]
      have hrest : 1 + (bytes.drop (start + 1)).length ≤ 2 ^ 32 + 1 := by
        rw [List.length_drop]
        omega
      have hopen := findEndI32_wrap _ ⟨1, false, false⟩ (start + 1) Nat.one_pos hrest
      simp only [hdrop]
      exact congrArg _ hopen

/-- `parse_line(bytes)` with the search of the source. -/
def parseLineI32 (S : Json.Codec) (bytes : Bytes) : Except ParseError ParsedAudit :=
  parseLineWith findJsonObjectI32 S bytes

theorem length_encode_stripAnsi_le (s : Str) : (Utf8.encode (stripAnsi s)).length ≤ (Utf8.encode s).length := by
  have hsub : (Utf8.encode (stripAnsi s)).Sublist (Utf8.encode s) := by
    rw [stripAnsi_eq]
    exact (stripAnsiFrom_sublist .text s).flatMap _
  exact hsub.length_le

/-- **The parser does not see the width of the register**, on lines of up to 4 GiB. -/
theorem parseLineI32_eq (S : Json.Codec) {bytes : Bytes} (h : bytes.length ≤ 2 ^ 32 + 1) :
    parseLineI32 S bytes = parseLine S bytes := by
  unfold parseLineI32 parseLine parseLineWith
  cases htext : Utf8.decode? bytes with
  | none => rfl
  | some text =>
      have hbytes : Utf8.encode text = bytes := Utf8.encode_of_decode? htext
      have hle : (Utf8.encode (stripAnsi text)).length ≤ 2 ^ 32 + 1 := by
        rw [← hbytes] at h
        exact (length_encode_stripAnsi_le text).trans h
      simp only [findJsonObjectI32_eq hle]

/-- A line with a middleware behind its object. -/
theorem parseLineI32_eq_middleware :
    let line :=
      Utf8.encode "INF \x7b\"action\":\"allow\",\"would_block_rules\":[]\x7d middlewareName=strict@file".toList
    (parseLineI32 Json.standard line).toOption.bind ParsedAudit.middleware = some "strict".toList := by
  intro line
  rw [parseLineI32_eq Json.standard (by decide : line.length ≤ 2 ^ 32 + 1)]
  decide +kernel

/-! ### The search over characters -/

theorem findEndI32_step {r : BraceRegisters} {b : UInt8} (h : ¬ r.closes b = true) (i : ℕ) (bs : Bytes) :
    findEndI32 r i (b :: bs) = findEndI32 (r.step b) (i + 1) bs := by
  rw [findEndI32, if_neg h]

theorem not_closes_high (d : ℤ) (q : Quoting) {b : UInt8} (hb : ¬ b.toNat < 0x80) :
    ¬ (reading d q).closes b = true := by
  intro h
  obtain ⟨-, rfl, -⟩ := (closes_reading d q b).mp h
  exact hb (by decide)

theorem findEndI32_high (d : ℤ) {q : Quoting} (hq : q ≠ escaped) (rest : Bytes) : ∀ (i : ℕ) (bs : Bytes),
    (∀ b ∈ bs, ¬ b.toNat < 0x80) →
      findEndI32 (reading d q) i (bs ++ rest) = findEndI32 (reading d q) (i + bs.length) rest
  | _, [], _ => rfl
  | i, b :: bs, h => by
      have hb := h b (by simp)
      rw [List.cons_append, findEndI32_step (not_closes_high d q hb), step_high d q hb, if_neg hq,
        findEndI32_high d hq rest (i + 1) bs (fun x hx => h x (by simp [hx])), List.length_cons]
      congr 1
      omega

/-- One character: a closing brace outside of strings ends the search when the depth that it leaves
is a multiple of `2 ^ 32`, and every other character moves the registers on. -/
theorem findEndI32_char (d : ℤ) (q : Quoting) (i : ℕ) (c : Char) (rest : Bytes) :
    findEndI32 (reading d q) i (String.utf8EncodeChar c ++ rest) =
      if q = outside ∧ c = '\x7d' ∧ (2 ^ 32 : ℤ) ∣ d - 1 then some i
      else findEndI32 (reading (d + q.weight c) (q.next c)) (i + (String.utf8EncodeChar c).length) rest := by
  by_cases hc : c.toNat < 0x80
  · have hbrace : UInt8.ofNat c.toNat = 0x7D ↔ c = '\x7d' := byte_eq_iff hc '\x7d' (by decide)
    rw [Utf8.encodeChar_ascii hc, List.singleton_append, findEndI32, step_ascii d q hc]
    simp only [closes_reading, hbrace, List.length_singleton]
  · have hne : ∀ x : Char, x.toNat < 0x80 → c ≠ x := fun x hx e => hc (e ▸ hx)
    have hnext : q.next c = if q = escaped then inside else q := by
      cases q <;> simp [next, hne '"' (by decide), hne '\\' (by decide)]
    have hweight : q.weight c = 0 := by
      simp [weight, hne '\x7b' (by decide), hne '\x7d' (by decide)]
    have hhigh : ∀ b ∈ String.utf8EncodeChar c, ¬ b.toNat < 0x80 := by
      intro b hb hlt
      obtain ⟨-, he⟩ := Utf8.ascii_of_mem_encodeChar hb hlt
      omega
    have hstay : (if q = escaped then inside else q) ≠ escaped := by
      cases q <;> decide
    rw [if_neg (fun h => hne '\x7d' (by decide) h.2.1), hnext, hweight, add_zero]
    cases he : String.utf8EncodeChar c with
    | nil => exact absurd he (by simp)
    | cons b bs =>
        rw [he] at hhigh
        have hb := hhigh b (by simp)
        rw [List.cons_append, findEndI32_step (not_closes_high d q hb), step_high d q hb,
          findEndI32_high d hstay rest (i + 1) bs (fun x hx => hhigh x (by simp [hx])), List.length_cons]
        congr 1
        omega

/-! ### Where the search stops -/

/-- The text ends in a closing brace outside of strings that leaves a multiple of `2 ^ 32` open. -/
def Stops (t : Str) : Prop := outside.Closes t ∧ (2 ^ 32 : ℤ) ∣ outside.balance t

theorem stops_concat (t : Str) (c : Char) :
    Stops (t ++ [c]) ↔ outside.after t = outside ∧ c = '\x7d' ∧ (2 ^ 32 : ℤ) ∣ outside.balance t - 1 := by
  unfold Stops
  constructor
  · rintro ⟨⟨v, hv, hout⟩, hdvd⟩
    obtain ⟨rfl, hc⟩ := List.append_inj' hv rfl
    obtain rfl : c = '\x7d' := by simpa using hc
    rw [Closes.balance hout] at hdvd
    exact ⟨hout, rfl, hdvd⟩
  · rintro ⟨hout, rfl, hdvd⟩
    rw [Closes.balance hout]
    exact ⟨⟨t, rfl, hout⟩, hdvd⟩

/-- After `t` has been read, `v` is the shortest part of what follows at which the search stops. -/
structure FirstStop (t u v : Str) : Prop where
  part : v <+: u
  nonempty : v ≠ []
  stops : Stops (t ++ v)
  earliest : ∀ w, w <+: v → w ≠ [] → Stops (t ++ w) → w = v

theorem FirstStop.of_stops {t u : Str} {c : Char} (h : Stops (t ++ [c])) (v : Str) :
    FirstStop t (c :: u) v ↔ v = [c] := by
  constructor
  · intro hv
    obtain ⟨d, w, rfl⟩ := List.exists_cons_of_ne_nil hv.nonempty
    obtain ⟨rfl, -⟩ := List.cons_prefix_cons.mp hv.part
    exact (hv.earliest [d] ⟨w, rfl⟩ nofun h).symm
  · rintro rfl
    refine ⟨⟨u, rfl⟩, nofun, h, fun w hw hne _ => ?_⟩
    obtain rfl | rfl := prefix_singleton hw
    · exact absurd rfl hne
    · rfl

theorem FirstStop.of_not_stops {t u : Str} {c : Char} (h : ¬ Stops (t ++ [c])) (v : Str) :
    FirstStop t (c :: u) v ↔ ∃ w, v = c :: w ∧ FirstStop (t ++ [c]) u w := by
  have hcons : ∀ w, (t ++ [c]) ++ w = t ++ c :: w := fun w => by rw [List.append_assoc, List.singleton_append]
  constructor
  · intro hv
    obtain ⟨d, w, rfl⟩ := List.exists_cons_of_ne_nil hv.nonempty
    obtain ⟨rfl, hw⟩ := List.cons_prefix_cons.mp hv.part
    refine ⟨w, rfl, hw, ?_, hcons w ▸ hv.stops, fun x hx _ hstop => ?_⟩
    · rintro rfl
      exact h hv.stops
    · have he := hv.earliest (d :: x) ((List.prefix_cons_inj d).mpr hx) nofun (hcons x ▸ hstop)
      exact (List.cons.inj he).2
  · rintro ⟨w, rfl, hw⟩
    refine ⟨(List.prefix_cons_inj c).mpr hw.part, nofun, hcons w ▸ hw.stops, fun x hx hne hstop => ?_⟩
    obtain ⟨d, x, rfl⟩ := List.exists_cons_of_ne_nil hne
    obtain ⟨rfl, hxw⟩ := List.cons_prefix_cons.mp hx
    have hx' : x ≠ [] := by
      rintro rfl
      exact h hstop
    rw [hw.earliest x hxw hx' (hcons x ▸ hstop)]

/-- **The search ends with the first stop.**  By induction on the text ahead: its first character
either stops the search or joins the text that has been read. -/
theorem findEndI32_eq_some (t u : Str) (i j : ℕ) :
    findEndI32 (reading (outside.balance t) (outside.after t)) i (Utf8.encode u) = some j ↔
      ∃ v, FirstStop t u v ∧ i + (Utf8.encode v).length = j + 1 := by
  induction u generalizing t i with
  | nil =>
      rw [Utf8.encode_nil, findEndI32]
      refine ⟨nofun, fun ⟨v, hv, _⟩ => ?_⟩
      exact absurd (List.prefix_nil.mp hv.part) hv.nonempty
  | cons c u ih =>
      rw [Utf8.encode_cons, findEndI32_char]
      by_cases h : Stops (t ++ [c])
      · have hbrace := (stops_concat t c).mp h
        rw [if_pos hbrace]
        obtain ⟨-, rfl, -⟩ := hbrace
        simp only [FirstStop.of_stops h, exists_eq_left]
        simp [Utf8.encodeChar_ascii]
      · have hbal : outside.balance t + (outside.after t).weight c = outside.balance (t ++ [c]) := by
          rw [balance_append, balance_singleton]
        have hafter : (outside.after t).next c = outside.after (t ++ [c]) := by
          rw [after_append]
          rfl
        rw [if_neg (mt (stops_concat t c).mpr h), hbal, hafter, ih]
        simp only [FirstStop.of_not_stops h]
        constructor
        · rintro ⟨w, hw, hlen⟩
          refine ⟨c :: w, ⟨w, rfl, hw⟩, ?_⟩
          rw [Utf8.encode_cons, List.length_append]
          omega
        · rintro ⟨v, ⟨w, rfl, hw⟩, hlen⟩
          rw [Utf8.encode_cons, List.length_append] at hlen
          exact ⟨w, hw, by omega⟩

end PurpleWolf.Relay
