import PurpleWolf.Lib.Json

/-! # JSON text in a layout

`JsonText` is a JSON value whose numbers are the texts that stand for them.  A `Layout` says what
white space a printer puts between the parts of a value, according to how deep they are nested;
`compact` and `pretty` are the usual two.  `print` is the text of a value, and `nesting` how
many of its objects stand one inside the other. -/

namespace PurpleWolf

/-- The text of a number: an integer, or one with a fraction and an exponent. -/
structure NumberText where
  text : List Char
  plain : ∀ c ∈ text, (0x30 ≤ c.toNat ∧ c.toNat ≤ 0x39) ∨ c ∈ ['+', '-', '.', 'e', 'E']

inductive JsonText where
  | null
  | bool (b : Bool)
  | num (n : NumberText)
  | str (s : List Char)
  | arr (items : List JsonText)
  | obj (members : List (List Char × JsonText))

/-- The white space that JSON allows. -/
def IsBlank (c : Char) : Prop := c = ' ' ∨ c = '\n' ∨ c = '\t' ∨ c = '\r'

/-- What a printer puts between the parts of a value. -/
structure Layout where
  /-- In front of an item, of a member and of the end, in the depth of what follows. -/
  gap : ℕ → List Char
  /-- In front of the value of a member. -/
  afterColon : List Char
  gap_blank : ∀ n, ∀ c ∈ gap n, IsBlank c
  afterColon_blank : ∀ c ∈ afterColon, IsBlank c

namespace Layout

def compact : Layout := ⟨fun _ => [], [], fun _ => nofun, nofun⟩

/-- Every part on a line of its own, indented by two spaces for each level. -/
def pretty : Layout where
  gap n := '\n' :: List.replicate (2 * n) ' '
  afterColon := [' ']
  gap_blank n c hc := by
    obtain rfl | hc := List.mem_cons.mp hc
    · exact Or.inr (Or.inl rfl)
    · exact Or.inl (List.eq_of_mem_replicate hc)
  afterColon_blank c hc := Or.inl (List.mem_singleton.mp hc)

end Layout

namespace JsonText

section Print

variable (E : Json.Escaper) (L : Layout)

mutual

/-- The text of a value that begins at a depth. -/
def print (n : ℕ) : JsonText → List Char
  | null => "null".toList
  | bool b => if b then "true".toList else "false".toList
  | num number => number.text
  | str s => Json.quoted E s
  | arr items =>
      '[' :: printItems (n + 1) [] items ++ (if items.isEmpty then [] else L.gap n) ++ [']']
  | obj members =>
      '\x7b' :: printMembers (n + 1) [] members ++ (if members.isEmpty then [] else L.gap n) ++ ['\x7d']

/-- Items, the first of them after `sep`. -/
def printItems (n : ℕ) (sep : List Char) : List JsonText → List Char
  | [] => []
  | v :: items => sep ++ L.gap n ++ print n v ++ printItems n [','] items

def printMembers (n : ℕ) (sep : List Char) : List (List Char × JsonText) → List Char
  | [] => []
  | (k, v) :: members =>
      sep ++ L.gap n ++ Json.quoted E k ++ ':' :: L.afterColon ++ print n v ++ printMembers n [','] members

end

/-- The first part takes what stands in front of it. -/
theorem printItems_sep (n : ℕ) (sep : List Char) (v : JsonText) (items : List JsonText) :
    printItems E L n sep (v :: items) = sep ++ printItems E L n [] (v :: items) := by
  rw [printItems, printItems, List.nil_append, List.append_assoc, List.append_assoc, List.append_assoc]

theorem printMembers_sep (n : ℕ) (sep : List Char) (m : List Char × JsonText) (members : List (List Char × JsonText)) :
    printMembers E L n sep (m :: members) = sep ++ printMembers E L n [] (m :: members) := by
  obtain ⟨k, v⟩ := m
  rw [printMembers, printMembers]
  simp only [List.nil_append, List.append_assoc]

/-- A value with an item on a line of its own. -/
example : print E Layout.pretty 0 (.arr [.null, .arr []]) =
    "[\n  null,\n  []\n]".toList := by
  simp [print, printItems, Layout.pretty]

end Print

mutual

/-- How many objects stand one inside the other. -/
def nesting : JsonText → ℕ
  | null => 0
  | bool _ => 0
  | num _ => 0
  | str _ => 0
  | arr items => nestingItems items
  | obj members => nestingMembers members + 1

def nestingItems : List JsonText → ℕ
  | [] => 0
  | v :: items => max (nesting v) (nestingItems items)

def nestingMembers : List (List Char × JsonText) → ℕ
  | [] => 0
  | (_, v) :: members => max (nesting v) (nestingMembers members)

end

end JsonText

/-! ### Values with integers -/

namespace Json

/-- The text of an integer. -/
def numberText (n : ℤ) : NumberText where
  text := if n < 0 then '-' :: Text.decimal n.natAbs else Text.decimal n.natAbs
  plain c hc := by
    split_ifs at hc
    · obtain rfl | hc := List.mem_cons.mp hc
      · exact Or.inr (by decide)
      · exact Or.inl (Text.mem_decimal hc)
    · exact Or.inl (Text.mem_decimal hc)

mutual

def toText : Json → JsonText
  | null => .null
  | bool b => .bool b
  | num n => .num (numberText n)
  | str s => .str s
  | arr items => .arr (itemsToText items)
  | obj members => .obj (membersToText members)

def itemsToText : List Json → List JsonText
  | [] => []
  | v :: items => toText v :: itemsToText items

def membersToText : List (List Char × Json) → List (List Char × JsonText)
  | [] => []
  | (k, v) :: members => (k, toText v) :: membersToText members

end

mutual

theorem print_toText (E : Escaper) (n : ℕ) : ∀ v : Json, JsonText.print E Layout.compact n v.toText = v.compact E
  | .null => by simp only [toText, JsonText.print, compact]
  | .bool b => by simp only [toText, JsonText.print, compact]
  | .num k => by simp only [toText, JsonText.print, compact, numberText]
  | .str s => by simp only [toText, JsonText.print, compact]
  | .arr items => by
      rw [toText, JsonText.print, printItems_toText E (n + 1) items, compact]
      simp [Layout.compact]
  | .obj members => by
      rw [toText, JsonText.print, printMembers_toText E (n + 1) members, compact]
      simp [Layout.compact]

theorem printItems_toText (E : Escaper) (n : ℕ) : ∀ items : List Json,
    JsonText.printItems E Layout.compact n [] (itemsToText items) = compactItems E items
  | [] => by rw [itemsToText, JsonText.printItems, compactItems]
  | [v] => by
      rw [itemsToText, itemsToText, JsonText.printItems, JsonText.printItems, print_toText E n v, compactItems]
      simp [Layout.compact]
  | v :: w :: items => by
      have hrest := printItems_toText E n (w :: items)
      rw [itemsToText] at hrest
      have houter : compactItems E (v :: w :: items) = v.compact E ++ ',' :: compactItems E (w :: items) := by
        simp [compactItems]
      rw [itemsToText, itemsToText, JsonText.printItems, JsonText.printItems_sep, hrest, print_toText E n v, houter]
      simp [Layout.compact]

theorem printMembers_toText (E : Escaper) (n : ℕ) : ∀ members : List (List Char × Json),
    JsonText.printMembers E Layout.compact n [] (membersToText members) = compactMembers E members
  | [] => by rw [membersToText, JsonText.printMembers, compactMembers]
  | [(k, v)] => by
      rw [membersToText, membersToText, JsonText.printMembers, JsonText.printMembers, print_toText E n v,
        compactMembers]
      simp [Layout.compact]
  | (k, v) :: m :: members => by
      have hrest := printMembers_toText E n (m :: members)
      have houter : compactMembers E ((k, v) :: m :: members) =
          quoted E k ++ ':' :: v.compact E ++ ',' :: compactMembers E (m :: members) := by
        simp [compactMembers]
      obtain ⟨k', v'⟩ := m
      rw [membersToText] at hrest
      rw [membersToText, membersToText, JsonText.printMembers, JsonText.printMembers_sep, hrest, print_toText E n v,
        houter]
      simp [Layout.compact]

end

end Json

end PurpleWolf
