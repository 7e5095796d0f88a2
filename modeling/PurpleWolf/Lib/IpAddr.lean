import PurpleWolf.Lib.Text

/-! # IP addresses and their textual forms

The address type and parser of the standard library (`std::net::IpAddr` and its
`FromStr`).  The parser reads a prefix of the text and hands the rest on; `parse` accepts
when nothing is left.

* **IPv4.**  Four decimal groups of at most three digits, without leading zeros.
* **IPv6.**  Up to eight hexadecimal groups of at most four digits; `::` stands for one or
  more groups of zeros, and the last two groups may be written as an IPv4 address.

The texts it accepts are made of `AddressChar`s. -/

namespace PurpleWolf

inductive IpAddr where
  | v4 (octets : Vector UInt8 4)
  | v6 (segments : Vector UInt16 8)
  deriving DecidableEq

namespace IpAddr

open Text

/-! ### Reading numbers -/

/-- A number of at most `maxDigits` digits that is below `bound`. -/
def readNumber (radix maxDigits bound : ℕ) (allowZeroPrefix : Bool) (s : List Char) :
    Option (ℕ × List Char) :=
  let (digits, rest) := readDigits radix s
  let value := digits.foldl (fun n d => n * radix + d) 0
  if digits = [] ∨ maxDigits < digits.length ∨ bound ≤ value then none
  else if !allowZeroPrefix && digits.head? == some 0 && 1 < digits.length then none
  else some (value, rest)

def readGivenChar (c : Char) : List Char → Option (List Char)
  | [] => none
  | d :: s => if d = c then some s else none

/-- Before every item but the first (`index = 0`) a separator is read. -/
def readSeparator {α : Type} (sep : Char) (index : ℕ) (inner : List Char → Option (α × List Char))
    (s : List Char) : Option (α × List Char) :=
  if index = 0 then inner s else (readGivenChar sep s).bind inner

/-! ### Reading addresses -/

def readIpv4Addr (s : List Char) : Option (Vector UInt8 4 × List Char) := do
  let group := readNumber 10 3 256 false
  let (a, s) ← readSeparator '.' 0 group s
  let (b, s) ← readSeparator '.' 1 group s
  let (c, s) ← readSeparator '.' 2 group s
  let (d, s) ← readSeparator '.' 3 group s
  some (#v[UInt8.ofNat a, UInt8.ofNat b, UInt8.ofNat c, UInt8.ofNat d], s)

/-- Groups of an IPv6 address, at most `left` more after the `index` already read; the flag
tells whether they end in an embedded IPv4 address. -/
def readGroups : ℕ → ℕ → List Char → List UInt16 × Bool × List Char
  | 0, _, s => ([], false, s)
  | left + 1, index, s =>
      let group :=
        match readSeparator ':' index (readNumber 16 4 0x10000 true) s with
        | some (g, s) =>
            let (gs, ipv4, s) := readGroups left (index + 1) s
            (UInt16.ofNat g :: gs, ipv4, s)
        | none => ([], false, s)
      -- an embedded IPv4 address needs at least two groups of room
      if left = 0 then group
      else
        match readSeparator ':' index readIpv4Addr s with
        | some (o, s) =>
            ([UInt16.ofNat (o[0].toNat * 256 + o[1].toNat), UInt16.ofNat (o[2].toNat * 256 + o[3].toNat)],
              true, s)
        | none => group

def readIpv6Addr (s : List Char) : Option (Vector UInt16 8 × List Char) :=
  let (head, headIpv4, s) := readGroups 8 0 s
  let fill := fun (gs : List UInt16) => Vector.ofFn (fun i : Fin 8 => gs.getD i 0)
  if head.length = 8 then some (fill head, s)
  else if headIpv4 then none
  else do
    let s ← readGivenChar ':' s
    let s ← readGivenChar ':' s
    let (tail, _, s) := readGroups (8 - (head.length + 1)) 0 s
    some (fill (head ++ List.replicate (8 - head.length - tail.length) 0 ++ tail), s)

def readIpAddr (s : List Char) : Option (IpAddr × List Char) :=
  match readIpv4Addr s with
  | some (o, s) => some (v4 o, s)
  | none => (readIpv6Addr s).map (fun (g, s) => (v6 g, s))

/-- `str::parse::<IpAddr>`: the whole text must be an address. -/
def parse (s : List Char) : Option IpAddr :=
  match readIpAddr s with
  | some (ip, []) => some ip
  | _ => none

/-! ### What the parser consumes -/

/-- A hexadecimal digit, a dot or a colon. -/
def AddressChar (c : Char) : Prop := (toDigit 16 c).isSome ∨ c = '.' ∨ c = ':'

/-- A reader has gone from `s` to `rest` over characters of addresses. -/
def Consumes (s rest : List Char) : Prop := ∃ u, s = u ++ rest ∧ ∀ c ∈ u, AddressChar c

namespace Consumes

theorem refl (s : List Char) : Consumes s s := ⟨[], rfl, by simp⟩

theorem cons {c : Char} (hc : AddressChar c) {s rest : List Char} (h : Consumes s rest) : Consumes (c :: s) rest := by
  obtain ⟨u, rfl, hu⟩ := h
  refine ⟨c :: u, rfl, ?_⟩
  intro d hd
  obtain rfl | hd := List.mem_cons.mp hd
  · exact hc
  · exact hu d hd

theorem trans {s t r : List Char} (h : Consumes s t) (h' : Consumes t r) : Consumes s r := by
  obtain ⟨u, rfl, hu⟩ := h
  obtain ⟨v, rfl, hv⟩ := h'
  refine ⟨u ++ v, (List.append_assoc u v r).symm, ?_⟩
  intro c hc
  obtain hc | hc := List.mem_append.mp hc
  · exact hu c hc
  · exact hv c hc

end Consumes

theorem addressChar_of_toDigit {radix : ℕ} (hradix : radix ≤ 16) {c : Char} {d : ℕ} (h : toDigit radix c = some d) :
    AddressChar c := by
  left
  unfold toDigit at h ⊢
  simp only at h ⊢
  split_ifs at h ⊢ <;> first | rfl | omega

theorem readDigits_consumes {radix : ℕ} (hradix : radix ≤ 16) :
    ∀ s : List Char, Consumes s (readDigits radix s).2
  | [] => Consumes.refl []
  | c :: s => by
      unfold readDigits
      cases hc : toDigit radix c with
      | none => exact Consumes.refl _
      | some d => exact (readDigits_consumes hradix s).cons (addressChar_of_toDigit hradix hc)

theorem readNumber_consumes {radix maxDigits bound : ℕ} {allowZeroPrefix : Bool} {s rest : List Char} {n : ℕ}
    (hradix : radix ≤ 16) (h : readNumber radix maxDigits bound allowZeroPrefix s = some (n, rest)) :
    Consumes s rest := by
  unfold readNumber at h
  simp only at h
  split_ifs at h
  cases h
  exact readDigits_consumes hradix s

theorem readGivenChar_consumes {c : Char} (hc : AddressChar c) {s rest : List Char}
    (h : readGivenChar c s = some rest) :
    Consumes s rest := by
  cases s with
  | nil => cases h
  | cons d s =>
      simp only [readGivenChar] at h
      split_ifs at h with hd
      cases h
      exact (Consumes.refl _).cons (hd ▸ hc)

theorem readSeparator_consumes {α : Type} {sep : Char} (hsep : AddressChar sep) {index : ℕ}
    {inner : List Char → Option (α × List Char)} (hinner : ∀ s a rest, inner s = some (a, rest) → Consumes s rest)
    {s rest : List Char} {a : α} (h : readSeparator sep index inner s = some (a, rest)) : Consumes s rest := by
  unfold readSeparator at h
  split_ifs at h
  · exact hinner s a rest h
  · obtain ⟨t, ht, h⟩ := Option.bind_eq_some_iff.mp h
    exact (readGivenChar_consumes hsep ht).trans (hinner t a rest h)

theorem readIpv4Addr_consumes {s rest : List Char} {o : Vector UInt8 4} (h : readIpv4Addr s = some (o, rest)) :
    Consumes s rest := by
  have hdot : AddressChar '.' := Or.inr (Or.inl rfl)
  have hgroup : ∀ (s : List Char) (n : ℕ) (rest : List Char), readNumber 10 3 256 false s = some (n, rest) →
      Consumes s rest := fun s n rest => readNumber_consumes (by decide)
  unfold readIpv4Addr at h
  simp only [Option.bind_eq_bind, Option.bind_eq_some_iff, Prod.exists, Option.some.injEq, Prod.mk.injEq] at h
  obtain ⟨a, s₁, ha, b, s₂, hb, c, s₃, hc, d, s₄, hd, -, rfl⟩ := h
  have h₁ := readSeparator_consumes hdot hgroup ha
  have h₂ := readSeparator_consumes hdot hgroup hb
  have h₃ := readSeparator_consumes hdot hgroup hc
  have h₄ := readSeparator_consumes hdot hgroup hd
  exact ((h₁.trans h₂).trans h₃).trans h₄

theorem readGroups_consumes : ∀ (left index : ℕ) (s : List Char), Consumes s (readGroups left index s).2.2
  | 0, _, s => Consumes.refl s
  | left + 1, index, s => by
      have hcolon : AddressChar ':' := Or.inr (Or.inr rfl)
      have hnum : ∀ (s : List Char) (n : ℕ) (rest : List Char), readNumber 16 4 0x10000 true s = some (n, rest) →
          Consumes s rest := fun s n rest => readNumber_consumes (by decide)
      have hipv4 : ∀ (s : List Char) (o : Vector UInt8 4) (rest : List Char), readIpv4Addr s = some (o, rest) →
          Consumes s rest := fun s o rest => readIpv4Addr_consumes
      have hgroup : Consumes s
          (match readSeparator ':' index (readNumber 16 4 0x10000 true) s with
            | some (g, s) =>
                let (gs, ipv4, s) := readGroups left (index + 1) s
                (UInt16.ofNat g :: gs, ipv4, s)
            | none => ([], false, s)).2.2 := by
        split
        · next g t hg => exact (readSeparator_consumes hcolon hnum hg).trans (readGroups_consumes left (index + 1) t)
        · exact Consumes.refl s
      unfold readGroups
      simp only
      split_ifs
      · exact hgroup
      · split
        · next o t ho => exact readSeparator_consumes hcolon hipv4 ho
        · exact hgroup

theorem readIpv6Addr_consumes {s rest : List Char} {g : Vector UInt16 8} (h : readIpv6Addr s = some (g, rest)) :
    Consumes s rest := by
  have hcolon : AddressChar ':' := Or.inr (Or.inr rfl)
  have hhead := readGroups_consumes 8 0 s
  unfold readIpv6Addr at h
  simp only at h
  split_ifs at h
  · cases h
    exact hhead
  · simp only [Option.bind_eq_bind, Option.bind_eq_some_iff, Option.some.injEq, Prod.mk.injEq] at h
    obtain ⟨s₁, hs₁, s₂, hs₂, -, rfl⟩ := h
    have h₁ := hhead.trans (readGivenChar_consumes hcolon hs₁)
    have h₂ := h₁.trans (readGivenChar_consumes hcolon hs₂)
    exact h₂.trans (readGroups_consumes _ 0 s₂)

theorem addressChar_of_parse {s : List Char} {ip : IpAddr} (h : parse s = some ip) : ∀ c ∈ s, AddressChar c := by
  have hread : readIpAddr s = some (ip, []) := by
    unfold parse at h
    split at h
    · next heq =>
        cases h
        exact heq
    · cases h
  have hconsumes : Consumes s [] := by
    unfold readIpAddr at hread
    split at hread
    · next o t ho =>
        cases hread
        exact readIpv4Addr_consumes ho
    · obtain ⟨⟨g, t⟩, hg, heq⟩ := Option.map_eq_some_iff.mp hread
      cases heq
      exact readIpv6Addr_consumes hg
  obtain ⟨u, rfl, hu⟩ := hconsumes
  rw [List.append_nil]
  exact hu

/-! ### Reading ahead of a colon -/

theorem readDigits_append_colon (r : List Char) : ∀ s : List Char,
    readDigits 10 (s ++ ':' :: r) = ((readDigits 10 s).1, (readDigits 10 s).2 ++ ':' :: r)
  | [] => rfl
  | c :: s => by
      rw [List.cons_append, readDigits, readDigits, readDigits_append_colon r s]
      cases toDigit 10 c <;> rfl

theorem readNumber_append_colon {maxDigits bound : ℕ} {allowZeroPrefix : Bool} {s rest : List Char} {n : ℕ}
    (h : readNumber 10 maxDigits bound allowZeroPrefix s = some (n, rest)) (r : List Char) :
    readNumber 10 maxDigits bound allowZeroPrefix (s ++ ':' :: r) = some (n, rest ++ ':' :: r) := by
  unfold readNumber at h ⊢
  rw [readDigits_append_colon]
  simp only at h ⊢
  split_ifs at h ⊢
  cases h
  rfl

theorem readSeparator_append_colon {α : Type} {index : ℕ} {inner : List Char → Option (α × List Char)}
    (hinner : ∀ s a rest r, inner s = some (a, rest) → inner (s ++ ':' :: r) = some (a, rest ++ ':' :: r))
    {s rest : List Char} {a : α} (h : readSeparator '.' index inner s = some (a, rest)) (r : List Char) :
    readSeparator '.' index inner (s ++ ':' :: r) = some (a, rest ++ ':' :: r) := by
  unfold readSeparator at h ⊢
  split_ifs at h ⊢
  · exact hinner s a rest r h
  · obtain ⟨t, ht, hrest⟩ := Option.bind_eq_some_iff.mp h
    cases s with
    | nil => cases ht
    | cons d s =>
        simp only [readGivenChar] at ht
        split_ifs at ht with hd
        cases ht
        rw [List.cons_append, readGivenChar, if_pos hd]
        exact hinner _ a rest r hrest

theorem readIpv4Addr_append_colon {s rest : List Char} {o : Vector UInt8 4} (h : readIpv4Addr s = some (o, rest))
    (r : List Char) : readIpv4Addr (s ++ ':' :: r) = some (o, rest ++ ':' :: r) := by
  have hgroup : ∀ (s : List Char) (n : ℕ) (rest r : List Char), readNumber 10 3 256 false s = some (n, rest) →
      readNumber 10 3 256 false (s ++ ':' :: r) = some (n, rest ++ ':' :: r) :=
    fun s n rest r h => readNumber_append_colon h r
  unfold readIpv4Addr at h ⊢
  simp only [Option.bind_eq_bind, Option.bind_eq_some_iff, Prod.exists, Option.some.injEq, Prod.mk.injEq] at h ⊢
  obtain ⟨a, s₁, ha, b, s₂, hb, c, s₃, hc, d, s₄, hd, ho, rfl⟩ := h
  exact ⟨a, _, readSeparator_append_colon hgroup ha r, b, _, readSeparator_append_colon hgroup hb r, c, _,
    readSeparator_append_colon hgroup hc r, d, _, readSeparator_append_colon hgroup hd r, ho, rfl⟩

theorem readIpv4Addr_of_parse {s : List Char} {o : Vector UInt8 4} (h : parse s = some (v4 o)) :
    readIpv4Addr s = some (o, []) := by
  unfold parse at h
  split at h
  · next heq =>
      cases h
      unfold readIpAddr at heq
      split at heq
      · next ho =>
          cases heq
          exact ho
      · obtain ⟨⟨g, t⟩, -, hg⟩ := Option.map_eq_some_iff.mp heq
        cases hg
  · cases h

theorem parse_append_colon {s : List Char} {o : Vector UInt8 4} (h : parse s = some (v4 o)) (r : List Char) :
    parse (s ++ ':' :: r) = none := by
  have hread := readIpv4Addr_append_colon (readIpv4Addr_of_parse h) r
  unfold parse readIpAddr
  rw [hread]
  rfl

/-! ### Display -/

def displayV4 (o : Vector UInt8 4) : List Char :=
  ['.'].intercalate (o.toList.map (fun b => decimal b.toNat))

/-- Groups separated by colons, in lower-case hexadecimal without leading zeros. -/
def displayGroups (gs : List UInt16) : List Char :=
  [':'].intercalate (gs.map (fun g => numeral 16 g.toNat))

/-- A run of zero groups. -/
structure ZeroRun where
  start : ℕ
  len : ℕ

/-- The first longest run of zeros among the groups from position `i` on. -/
def longestZeros : ℕ → ZeroRun → ZeroRun → List UInt16 → ZeroRun
  | _, _, longest, [] => longest
  | i, current, longest, g :: gs =>
      if g = 0 then
        let current := if current.len = 0 then ⟨i, 1⟩ else ⟨current.start, current.len + 1⟩
        longestZeros (i + 1) current (if longest.len < current.len then current else longest) gs
      else longestZeros (i + 1) ⟨0, 0⟩ longest gs

def displayV6 (segments : Vector UInt16 8) : List Char :=
  match segments.toList with
  | [0, 0, 0, 0, 0, 0xFFFF, g, h] =>
      -- an IPv4-mapped address
      "::ffff:".toList ++ displayV4 #v[UInt8.ofNat (g.toNat / 256), UInt8.ofNat (g.toNat % 256),
        UInt8.ofNat (h.toNat / 256), UInt8.ofNat (h.toNat % 256)]
  | gs =>
      let zeroes := longestZeros 0 ⟨0, 0⟩ ⟨0, 0⟩ gs
      if 1 < zeroes.len then
        displayGroups (gs.take zeroes.start) ++ "::".toList ++ displayGroups (gs.drop (zeroes.start + zeroes.len))
      else displayGroups gs

/-- `IpAddr::to_string`. -/
def display : IpAddr → List Char
  | v4 o => displayV4 o
  | v6 g => displayV6 g

example : parse "192.168.0.1".toList = some (v4 #v[192, 168, 0, 1]) := by decide
example : parse "::ffff:1.2.3.4".toList = some (v6 #v[0, 0, 0, 0, 0, 0xFFFF, 0x0102, 0x0304]) := by decide
example : parse "10.0.0.01".toList = none := by decide
example : display (v6 #v[0x2001, 0xDB8, 0, 0, 0, 0, 0, 1]) = "2001:db8::1".toList := by decide +kernel

end IpAddr

end PurpleWolf
