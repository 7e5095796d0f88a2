import PurpleWolf.Lib.Json

/-! # A JSON codec

`Json.standard` is a concrete `Codec`: the short escapes where JSON has one and `\u00XX`
for the other control characters, and a parser for compact texts. -/

namespace PurpleWolf.Json

/-! ### Escapes -/

/-- The letter of a two-character escape. -/
def shortEscape (c : Char) : Option Char :=
  match c with
  | '"' => some '"'
  | '\\' => some '\\'
  | '\x08' => some 'b'
  | '\x0c' => some 'f'
  | '\n' => some 'n'
  | '\r' => some 'r'
  | '\t' => some 't'
  | _ => none

def shortUnescape (e : Char) : Option Char :=
  match e with
  | '"' => some '"'
  | '\\' => some '\\'
  | '/' => some '/'
  | 'b' => some '\x08'
  | 'f' => some '\x0c'
  | 'n' => some '\n'
  | 'r' => some '\r'
  | 't' => some '\t'
  | _ => none

/-- The character of `\uXXXX`.  Halves of surrogate pairs are refused. -/
def codePoint (a b c d : Char) : Option Char :=
  match Text.toDigit 16 a, Text.toDigit 16 b, Text.toDigit 16 c, Text.toDigit 16 d with
  | some a, some b, some c, some d =>
      let n := ((a * 16 + b) * 16 + c) * 16 + d
      if n.isValidChar then some (Char.ofNat n) else none
  | _, _, _, _ => none

def escapeChar (c : Char) : List Char :=
  match shortEscape c with
  | some e => ['\\', e]
  | none =>
      if c.toNat < 0x20 then
        ['\\', 'u', '0', '0', Text.digitChar (c.toNat / 16), Text.digitChar (c.toNat % 16)]
      else [c]

theorem shortEscape_eq_none {c : Char} (h : ¬ isSpecial c) : shortEscape c = none := by
  unfold isSpecial at h
  unfold shortEscape
  split <;> first | rfl | exact absurd (by decide) h

theorem shortUnescape_shortEscape {c e : Char} (h : shortEscape c = some e) :
    shortUnescape e = some c ∧ e ≠ 'u' ∧ 0x20 ≤ e.toNat := by
  unfold shortEscape at h
  split at h <;> first | (cases h; decide) | cases h

theorem codePoint_control : ∀ n < 0x20,
    codePoint '0' '0' (Text.digitChar (n / 16)) (Text.digitChar (n % 16)) = some (Char.ofNat n) ∧
      ¬ isSpecial (Text.digitChar (n / 16)) ∧ ¬ isSpecial (Text.digitChar (n % 16)) := by decide

/-- The escapes of JSON. -/
def standardEscaper : Escaper where
  escape := escapeChar
  special := by
    intro c hc
    unfold escapeChar
    cases h : shortEscape c with
    | some e =>
        obtain ⟨-, -, he⟩ := shortUnescape_shortEscape h
        exact ⟨e, [], rfl, he, by simp⟩
    | none =>
        have hlt : c.toNat < 0x20 := by
          rcases hc with rfl | rfl | hlt
          · exact absurd h (by decide)
          · exact absurd h (by decide)
          · exact hlt
        obtain ⟨-, h1, h2⟩ := codePoint_control c.toNat hlt
        refine ⟨'u', _, if_pos hlt, by decide, ?_⟩
        intro x hx
        simp only [List.mem_cons, List.not_mem_nil, or_false] at hx
        rcases hx with rfl | rfl | rfl | rfl
        · decide
        · decide
        · exact h1
        · exact h2
  plain := by
    intro c hc
    have hge : ¬ c.toNat < 0x20 := fun h => hc (Or.inr (Or.inr h))
    unfold escapeChar
    rw [shortEscape_eq_none hc]
    exact if_neg hge

/-! ### Strings -/

/-- Reads a string after its opening quote: the text, and what follows the closing one. -/
def readString : List Char → Option (List Char × List Char)
  | [] => none
  | '"' :: s => some ([], s)
  | '\\' :: 'u' :: a :: b :: c :: d :: s =>
      match codePoint a b c d with
      | some x => (readString s).map (fun r => (x :: r.1, r.2))
      | none => none
  | '\\' :: e :: s =>
      match shortUnescape e with
      | some x => (readString s).map (fun r => (x :: r.1, r.2))
      | none => none
  | c :: s => if isSpecial c then none else (readString s).map (fun r => (c :: r.1, r.2))

theorem readString_short {e x : Char} (hu : e ≠ 'u') (hx : shortUnescape e = some x) (s : List Char) :
    readString ('\\' :: e :: s) = (readString s).map (fun r => (x :: r.1, r.2)) := by
  rw [readString]
  · rw [hx]
  · rintro a b c d t rfl -
    exact hu rfl

theorem readString_plain {c : Char} (h : ¬ isSpecial c) (s : List Char) :
    readString (c :: s) = (readString s).map (fun r => (c :: r.1, r.2)) := by
  have hquote : c ≠ '"' := fun e => h (Or.inl e)
  have hback : c ≠ '\\' := fun e => h (Or.inr (Or.inl e))
  rw [readString]
  · exact if_neg h
  · exact hquote
  · rintro a b x d t rfl
    exact absurd rfl hback
  · rintro e t rfl
    exact absurd rfl hback

theorem readString_escape (c : Char) (s : List Char) :
    readString (escapeChar c ++ s) = (readString s).map (fun r => (c :: r.1, r.2)) := by
  unfold escapeChar
  cases h : shortEscape c with
  | some e =>
      obtain ⟨hx, hu, -⟩ := shortUnescape_shortEscape h
      exact readString_short hu hx s
  | none =>
      by_cases hlt : c.toNat < 0x20
      · obtain ⟨hcode, -, -⟩ := codePoint_control c.toNat hlt
        simp only [if_pos hlt, List.cons_append, List.nil_append]
        rw [readString, hcode, Char.ofNat_toNat]
      · simp only [if_neg hlt, List.cons_append, List.nil_append]
        refine readString_plain ?_ s
        rintro (rfl | rfl | hc)
        · exact absurd h (by decide)
        · exact absurd h (by decide)
        · exact hlt hc

theorem readString_quoted (t s : List Char) :
    readString (t.flatMap escapeChar ++ '"' :: s) = some (t, s) := by
  induction t with
  | nil => rfl
  | cons c t ih =>
      rw [List.flatMap_cons, List.append_assoc, readString_escape, ih]
      rfl

/-! ### Numbers -/

def readNat (s : List Char) : Option (ℕ × List Char) :=
  match Text.readDigits 10 s with
  | ([], _) => none
  | (ds, rest) => some (Nat.ofDigits 10 ds.reverse, rest)

/-- The text cannot extend a number. -/
def NoDigitHead (s : List Char) : Prop := ∀ c t, s = c :: t → Text.toDigit 10 c = none

theorem noDigitHead_cons {c : Char} {s : List Char} (h : Text.toDigit 10 c = none) : NoDigitHead (c :: s) := by
  rintro _ _ ⟨⟩
  exact h

theorem readNat_decimal (n : ℕ) {s : List Char} (hs : NoDigitHead s) :
    readNat (Text.decimal n ++ s) = some (n, s) := by
  have hread : Text.readDigits 10 (Text.decimal n ++ s) = (Text.shownDigits 10 n, s) := by
    unfold Text.decimal
    rw [Text.numeral_eq, Text.readDigits_map (by decide) (Text.shownDigits_lt (by decide) n) hs]
  unfold readNat
  rw [hread]
  cases hds : Text.shownDigits 10 n with
  | nil => exact absurd hds (Text.shownDigits_ne_nil 10 n)
  | cons d ds =>
      simp only
      rw [← hds, Text.ofDigits_shownDigits]

/-! ### Values -/

mutual

/-- Reads one value; `fuel` bounds the recursion by the length of the text. -/
def readValue : ℕ → List Char → Option (Json × List Char)
  | 0, _ => none
  | fuel + 1, s =>
      match s with
      | 'n' :: 'u' :: 'l' :: 'l' :: s => some (null, s)
      | 't' :: 'r' :: 'u' :: 'e' :: s => some (bool true, s)
      | 'f' :: 'a' :: 'l' :: 's' :: 'e' :: s => some (bool false, s)
      | '"' :: s => (readString s).map (fun r => (str r.1, r.2))
      | '[' :: ']' :: s => some (arr [], s)
      | '[' :: s => (readItems fuel s).map (fun r => (arr r.1, r.2))
      | '\x7b' :: '\x7d' :: s => some (obj [], s)
      | '\x7b' :: s => (readMembers fuel s).map (fun r => (obj r.1, r.2))
      | '-' :: s => (readNat s).map (fun r => (num (-r.1), r.2))
      | s => (readNat s).map (fun r => (num r.1, r.2))

/-- Reads the items of an array and its closing bracket. -/
def readItems : ℕ → List Char → Option (List Json × List Char)
  | 0, _ => none
  | fuel + 1, s =>
      match readValue fuel s with
      | some (v, ']' :: s) => some ([v], s)
      | some (v, ',' :: s) => (readItems fuel s).map (fun r => (v :: r.1, r.2))
      | _ => none

/-- Reads the members of an object and its closing brace. -/
def readMembers : ℕ → List Char → Option (List (List Char × Json) × List Char)
  | 0, _ => none
  | fuel + 1, s =>
      match s with
      | '"' :: s =>
          match readString s with
          | some (k, ':' :: s) =>
              match readValue fuel s with
              | some (v, '\x7d' :: s) => some ([(k, v)], s)
              | some (v, ',' :: s) => (readMembers fuel s).map (fun r => ((k, v) :: r.1, r.2))
              | _ => none
          | _ => none
      | _ => none

end

/-- `serde_json::from_str` on compact texts. -/
def fromStr (s : List Char) : Option Json :=
  match readValue s.length s with
  | some (v, []) => some v
  | _ => none

/-! ### Reading back -/

theorem readValue_bracket {c : Char} (h : c ≠ ']') (fuel : ℕ) (s : List Char) :
    readValue (fuel + 1) ('[' :: c :: s) = (readItems fuel (c :: s)).map (fun r => (arr r.1, r.2)) := by
  rw [readValue]
  rintro t ⟨⟩
  exact h rfl

theorem readValue_brace {c : Char} (h : c ≠ '\x7d') (fuel : ℕ) (s : List Char) :
    readValue (fuel + 1) ('\x7b' :: c :: s) = (readMembers fuel (c :: s)).map (fun r => (obj r.1, r.2)) := by
  rw [readValue]
  rintro t ⟨⟩
  exact h rfl

theorem readValue_digit {c : Char} (h : 0x30 ≤ c.toNat ∧ c.toNat ≤ 0x39) (fuel : ℕ) (s : List Char) :
    readValue (fuel + 1) (c :: s) = (readNat (c :: s)).map (fun r => (num r.1, r.2)) := by
  rw [readValue] <;>
  · rintro t ⟨⟩
    exact absurd h (by decide)

theorem decimal_ne_nil (n : ℕ) : Text.decimal n ≠ [] := by
  unfold Text.decimal
  rw [Text.numeral_eq, Ne, List.map_eq_nil_iff]
  exact Text.shownDigits_ne_nil 10 n

theorem readValue_decimal (fuel n : ℕ) {s : List Char} (hs : NoDigitHead s) :
    readValue (fuel + 1) (Text.decimal n ++ s) = some (num n, s) := by
  have hread := readNat_decimal n hs
  cases hd : Text.decimal n with
  | nil => exact absurd hd (decimal_ne_nil n)
  | cons c t =>
      rw [hd, List.cons_append] at hread
      rw [List.cons_append, readValue_digit (Text.mem_decimal (n := n) (hd ▸ List.mem_cons_self)), hread]
      rfl

/-- A compact text does not look like the end of an array. -/
theorem compact_head (v : Json) : ∃ c s, v.compact standardEscaper = c :: s ∧ c ≠ ']' := by
  cases v with
  | null => exact ⟨_, _, rfl, by decide⟩
  | bool b => cases b <;> exact ⟨_, _, rfl, by decide⟩
  | num n =>
      unfold compact
      split_ifs
      · exact ⟨_, _, rfl, by decide⟩
      · cases hd : Text.decimal n.natAbs with
        | nil => exact absurd hd (decimal_ne_nil _)
        | cons c t =>
            have hc : 0x30 ≤ c.toNat ∧ c.toNat ≤ 0x39 := Text.mem_decimal (hd ▸ List.mem_cons_self)
            refine ⟨c, t, rfl, ?_⟩
            rintro rfl
            exact absurd hc (by decide)
  | str s => exact ⟨_, _, rfl, by decide⟩
  | arr items => exact ⟨_, _, rfl, by decide⟩
  | obj members => exact ⟨_, _, rfl, by decide⟩

theorem compactItems_head (v : Json) (items : List Json) :
    ∃ c s, compactItems standardEscaper (v :: items) = c :: s ∧ c ≠ ']' := by
  obtain ⟨c, s, hv, hc⟩ := compact_head v
  cases items with
  | nil => exact ⟨c, s, by rw [compactItems, hv], hc⟩
  | cons w items =>
      refine ⟨c, s ++ ',' :: compactItems standardEscaper (w :: items), ?_, hc⟩
      rw [← List.cons_append, ← hv]
      rfl

theorem compactMembers_head (m : List Char × Json) (members : List (List Char × Json)) :
    ∃ s, compactMembers standardEscaper (m :: members) = '"' :: s := by
  cases members with
  | nil => exact ⟨_, rfl⟩
  | cons m members => exact ⟨_, rfl⟩

mutual

/-- **A printed value is read back.** -/
theorem readValue_compact : ∀ (v : Json) (fuel : ℕ) (s : List Char),
    (v.compact standardEscaper).length ≤ fuel → NoDigitHead s →
      readValue fuel (v.compact standardEscaper ++ s) = some (v, s)
  | v, 0, s, hfuel, _ => by
      obtain ⟨c, t, hv, -⟩ := compact_head v
      rw [hv, List.length_cons] at hfuel
      omega
  | .null, fuel + 1, s, _, _ => by
      unfold compact
      rfl
  | .bool b, fuel + 1, s, _, _ => by
      unfold compact
      cases b <;> rfl
  | .num n, fuel + 1, s, _, hs => by
      unfold compact
      split_ifs with hn
      · have hread := readNat_decimal n.natAbs hs
        rw [List.cons_append, readValue]
        · rw [hread]
          simp only [Option.map_some, Option.some.injEq, Prod.mk.injEq, num.injEq, and_true]
          omega
      · rw [readValue_decimal fuel _ hs]
        simp only [Option.some.injEq, Prod.mk.injEq, num.injEq, and_true]
        omega
  | .str t, fuel + 1, s, _, _ => by
      unfold compact quoted
      rw [List.append_assoc, List.cons_append, readValue]
      exact congrArg (Option.map _) (readString_quoted t s)
  | .arr [], fuel + 1, s, _, _ => by
      unfold compact compactItems
      rfl
  | .arr (v :: items), fuel + 1, s, hfuel, _ => by
      unfold compact at hfuel ⊢
      simp only [List.cons_append, List.length_cons, List.length_append, List.length_nil] at hfuel
      have hitems := readItems_compact v items fuel s (by omega)
      obtain ⟨c, t, ht, hc⟩ := compactItems_head v items
      rw [ht] at hitems ⊢
      simp only [List.cons_append, List.append_assoc, List.nil_append] at hitems ⊢
      rw [readValue_bracket hc, hitems]
      rfl
  | .obj [], fuel + 1, s, _, _ => by
      unfold compact compactMembers
      rfl
  | .obj (m :: members), fuel + 1, s, hfuel, _ => by
      unfold compact at hfuel ⊢
      simp only [List.cons_append, List.length_cons, List.length_append, List.length_nil] at hfuel
      have hmembers := readMembers_compact m members fuel s (by omega)
      obtain ⟨t, ht⟩ := compactMembers_head m members
      rw [ht] at hmembers ⊢
      simp only [List.cons_append, List.append_assoc, List.nil_append] at hmembers ⊢
      rw [readValue_brace (by decide), hmembers]
      rfl

theorem readItems_compact : ∀ (v : Json) (items : List Json) (fuel : ℕ) (s : List Char),
    (compactItems standardEscaper (v :: items)).length + 1 ≤ fuel →
      readItems fuel (compactItems standardEscaper (v :: items) ++ ']' :: s) = some (v :: items, s)
  | _, _, 0, _, hfuel => by omega
  | v, [], fuel + 1, s, hfuel => by
      unfold compactItems at hfuel ⊢
      rw [readItems, readValue_compact v fuel _ (by omega) (noDigitHead_cons (by decide))]
      rfl
  | v, w :: items, fuel + 1, s, hfuel => by
      unfold compactItems at hfuel ⊢
      rw [List.length_append, List.length_cons] at hfuel
      rw [List.append_assoc, List.cons_append, readItems,
        readValue_compact v fuel _ (by omega) (noDigitHead_cons (by decide))]
      simp only
      rw [readItems_compact w items fuel s (by omega)]
      rfl

theorem readMembers_compact : ∀ (m : List Char × Json) (members : List (List Char × Json)) (fuel : ℕ)
    (s : List Char), (compactMembers standardEscaper (m :: members)).length + 1 ≤ fuel →
      readMembers fuel (compactMembers standardEscaper (m :: members) ++ '\x7d' :: s) =
        some (m :: members, s)
  | _, _, 0, _, hfuel => by omega
  | (k, v), [], fuel + 1, s, hfuel => by
      unfold compactMembers quoted at hfuel ⊢
      simp only [List.cons_append, List.length_cons, List.length_append, List.append_assoc,
        List.nil_append] at hfuel ⊢
      rw [readMembers, show standardEscaper.escape = escapeChar from rfl, readString_quoted]
      simp only
      rw [readValue_compact v fuel _ (by omega) (noDigitHead_cons (by decide))]
      rfl
  | (k, v), m :: members, fuel + 1, s, hfuel => by
      unfold compactMembers quoted at hfuel ⊢
      simp only [List.cons_append, List.length_cons, List.length_append, List.append_assoc,
        List.nil_append] at hfuel ⊢
      rw [readMembers, show standardEscaper.escape = escapeChar from rfl, readString_quoted]
      simp only
      rw [readValue_compact v fuel _ (by omega) (noDigitHead_cons (by decide))]
      simp only
      rw [readMembers_compact m members fuel s (by omega)]
      rfl

end

/-- The codec of `serde_json`, on what it prints. -/
def standard : Codec where
  toEscaper := standardEscaper
  fromStr := fromStr
  fromStr_compact := by
    intro v _
    have hread := readValue_compact v (v.compact standardEscaper).length [] le_rfl
      (by rintro _ _ ⟨⟩)
    rw [List.append_nil] at hread
    unfold fromStr
    rw [hread]

end PurpleWolf.Json
