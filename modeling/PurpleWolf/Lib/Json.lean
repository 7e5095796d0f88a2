import PurpleWolf.Lib.Text

/-! # JSON values and their compact text

`Json` is the type of JSON values, numbers being integers and an object the list of its
members.  An object is a map; the order in which a library keeps its members is a matter of
representation, and document order is taken.  `Json.compact` is the text without any white
space; it leaves open how a character inside a string is escaped, which a `Codec` fixes
together with a parser that reads compact texts back. -/

namespace PurpleWolf

inductive Json where
  | null
  | bool (b : Bool)
  | num (n : ℤ)
  | str (s : List Char)
  | arr (items : List Json)
  | obj (members : List (List Char × Json))

namespace Json

/-! ### Access -/

/-- The member of an object. -/
def get (k : List Char) : Json → Option Json
  | obj members => members.lookup k
  | _ => none

def asStr : Json → Option (List Char)
  | str s => some s
  | _ => none

/-- The value without a member. -/
def erase (k : List Char) : Json → Json
  | obj members => obj (members.filter (fun m => m.1 ≠ k))
  | v => v

/-- Arrays and objects are nested at most `depth` deep, every number fits an `i64` or a
`u64`, and every object has distinct keys. -/
inductive WellFormed : ℕ → Json → Prop
  | null (depth : ℕ) : WellFormed depth null
  | bool (depth : ℕ) (b : Bool) : WellFormed depth (bool b)
  | num (depth : ℕ) (n : ℤ) : -2 ^ 63 ≤ n → n < 2 ^ 64 → WellFormed depth (num n)
  | str (depth : ℕ) (s : List Char) : WellFormed depth (str s)
  | arr {depth : ℕ} {items : List Json} : (∀ v ∈ items, WellFormed depth v) →
      WellFormed (depth + 1) (arr items)
  | obj {depth : ℕ} {members : List (List Char × Json)} : (members.map Prod.fst).Nodup →
      (∀ m ∈ members, WellFormed depth m.2) → WellFormed (depth + 1) (obj members)

/-! ### Compact text -/

/-- The characters that cannot stand for themselves inside a string. -/
def isSpecial (c : Char) : Prop := c = '"' ∨ c = '\\' ∨ c.toNat < 0x20

instance (c : Char) : Decidable (isSpecial c) := inferInstanceAs (Decidable (_ ∨ _))

/-- A way to escape characters: a special one becomes a backslash sequence, any other
stands for itself. -/
structure Escaper where
  escape : Char → List Char
  special : ∀ c, isSpecial c → ∃ d rest, escape c = '\\' :: d :: rest ∧ 0x20 ≤ d.toNat ∧
    ∀ x ∈ rest, ¬ isSpecial x
  plain : ∀ c, ¬ isSpecial c → escape c = [c]

variable (E : Escaper)

def quoted (s : List Char) : List Char := '"' :: s.flatMap E.escape ++ ['"']

mutual

def compact : Json → List Char
  | null => "null".toList
  | bool b => if b then "true".toList else "false".toList
  | num n => if n < 0 then '-' :: Text.decimal n.natAbs else Text.decimal n.natAbs
  | str s => quoted E s
  | arr items => '[' :: compactItems items ++ [']']
  | obj members => '\x7b' :: compactMembers members ++ ['\x7d']

def compactItems : List Json → List Char
  | [] => []
  | [v] => compact v
  | v :: vs => compact v ++ ',' :: compactItems vs

def compactMembers : List (List Char × Json) → List Char
  | [] => []
  | [(k, v)] => quoted E k ++ ':' :: compact v
  | (k, v) :: members => quoted E k ++ ':' :: compact v ++ ',' :: compactMembers members

end

/-! ### Compact texts are printable -/

/-- No control character occurs. -/
def Printable (t : List Char) : Prop := ∀ c ∈ t, 0x20 ≤ c.toNat

theorem Printable.append {t u : List Char} (ht : Printable t) (hu : Printable u) : Printable (t ++ u) := by
  intro c hc
  rcases List.mem_append.mp hc with hc | hc
  · exact ht c hc
  · exact hu c hc

theorem Printable.cons {c : Char} {t : List Char} (hc : 0x20 ≤ c.toNat) (ht : Printable t) :
    Printable (c :: t) := by
  intro x hx
  rcases List.mem_cons.mp hx with rfl | hx
  · exact hc
  · exact ht x hx

theorem printable_escape (c : Char) : Printable (E.escape c) := by
  by_cases hc : isSpecial c
  · obtain ⟨d, rest, he, hd, hrest⟩ := E.special c hc
    rw [he]
    refine Printable.cons (by decide) (Printable.cons hd fun x hx => ?_)
    have := hrest x hx
    unfold isSpecial at this
    omega
  · rw [E.plain c hc]
    unfold isSpecial at hc
    intro x hx
    rw [List.mem_singleton.mp hx]
    omega

theorem printable_quoted (s : List Char) : Printable (quoted E s) := by
  have hbody : Printable (s.flatMap E.escape) := by
    intro x hx
    obtain ⟨c, -, hx⟩ := List.mem_flatMap.mp hx
    exact printable_escape E c x hx
  exact Printable.append (Printable.cons (by decide) hbody) (by unfold Printable; decide)

theorem printable_decimal (n : ℕ) : Printable (Text.decimal n) := by
  intro c hc
  have := Text.mem_decimal hc
  omega

mutual

theorem printable_compact : ∀ v : Json, Printable (v.compact E)
  | .null => by
      unfold compact Printable
      decide
  | .bool b => by
      unfold compact Printable
      split_ifs <;> decide
  | .num n => by
      unfold compact
      split_ifs
      · exact Printable.cons (by decide) (printable_decimal _)
      · exact printable_decimal _
  | .str s => by
      unfold compact
      exact printable_quoted E s
  | .arr items => by
      unfold compact
      exact Printable.append (Printable.cons (by decide) (printable_compactItems items))
        (by unfold Printable; decide)
  | .obj members => by
      unfold compact
      exact Printable.append (Printable.cons (by decide) (printable_compactMembers members))
        (by unfold Printable; decide)

theorem printable_compactItems : ∀ items : List Json, Printable (compactItems E items)
  | [] => by
      unfold compactItems Printable
      decide
  | [v] => by
      unfold compactItems
      exact printable_compact v
  | v :: w :: items => by
      unfold compactItems
      exact (printable_compact v).append (Printable.cons (by decide) (printable_compactItems (w :: items)))

theorem printable_compactMembers : ∀ members : List (List Char × Json),
    Printable (compactMembers E members)
  | [] => by
      unfold compactMembers Printable
      decide
  | [(k, v)] => by
      unfold compactMembers
      exact (printable_quoted E k).append (Printable.cons (by decide) (printable_compact v))
  | (k, v) :: m :: members => by
      unfold compactMembers
      exact ((printable_quoted E k).append (Printable.cons (by decide) (printable_compact v))).append
        (Printable.cons (by decide) (printable_compactMembers (m :: members)))

end

/-- How deep a document may be nested. -/
def maxDepth : ℕ := 127

/-- A JSON library: it reads back what it prints. -/
structure Codec extends Escaper where
  fromStr : List Char → Option Json
  fromStr_compact : ∀ v : Json, WellFormed maxDepth v → fromStr (v.compact toEscaper) = some v

end Json

end PurpleWolf
