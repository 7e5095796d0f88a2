import PurpleWolf.Lib.JsonText

/-! # Braces outside strings

A scan of JSON text keeps track of its strings: `Quoting` says whether it stands outside of a
string, inside one, or after a backslash in one.  `unquoted` is what it reads outside of strings
and `balance` the number of opening braces there less that of the closing ones.

A balance moves by one brace at a time, so that a text which comes down from above a height to it
or below closes a brace exactly at that height (`exists_falls`).  `Spans h t` says that `t` comes
back to its own height outside of strings, and rises `h` above it and no further; the text of a
JSON value rises by as much as its objects are nested (`spans_print`), and the text of an object
is a `BraceText`: open throughout, and closed by its last brace. -/

namespace PurpleWolf

theorem prefix_append_cases {u t t' : List Char} (h : u <+: t ++ t') : u <+: t ∨ ∃ v, v <+: t' ∧ u = t ++ v := by
  obtain hu | ⟨v, rfl⟩ := List.prefix_or_prefix_of_prefix h (List.prefix_append t t')
  · exact Or.inl hu
  · exact Or.inr ⟨v, (List.prefix_append_right_inj t).mp h, rfl⟩

theorem prefix_singleton {u : List Char} {c : Char} (h : u <+: [c]) : u = [] ∨ u = [c] := by
  cases u with
  | nil => exact Or.inl rfl
  | cons d u =>
      obtain ⟨rfl, hu⟩ := List.cons_prefix_cons.mp h
      rw [List.prefix_nil.mp hu]
      exact Or.inr rfl

inductive Quoting where
  | outside
  | inside
  | escaped
  deriving DecidableEq

namespace Quoting

def next : Quoting → Char → Quoting
  | outside, c => if c = '"' then inside else outside
  | inside, c => if c = '\\' then escaped else if c = '"' then outside else inside
  | escaped, _ => inside

def after (q : Quoting) (t : List Char) : Quoting := t.foldl next q

variable (q : Quoting) (c : Char) (t u : List Char)

@[simp] theorem after_nil : q.after [] = q := rfl

@[simp] theorem after_cons : q.after (c :: t) = (q.next c).after t := rfl

theorem after_append : q.after (t ++ u) = (q.after t).after u := List.foldl_append

/-- The characters outside of strings; the quote that opens a string is among them. -/
def unquoted : Quoting → List Char → List Char
  | _, [] => []
  | q, c :: t => if q = outside then c :: unquoted (q.next c) t else unquoted (q.next c) t

def balance : ℤ := (q.unquoted t).count '\x7b' - (q.unquoted t).count '\x7d'

/-- What one character adds to the balance. -/
def weight : ℤ :=
  if q = outside then if c = '\x7b' then 1 else if c = '\x7d' then -1 else 0 else 0

theorem weight_outside_open : outside.weight '\x7b' = 1 := rfl

theorem weight_outside_close : outside.weight '\x7d' = -1 := rfl

@[simp] theorem balance_nil : q.balance [] = 0 := rfl

theorem balance_cons : q.balance (c :: t) = q.weight c + (q.next c).balance t := by
  unfold balance weight
  rw [unquoted]
  by_cases hq : q = outside
  · rw [if_pos hq, if_pos hq, List.count_cons, List.count_cons]
    by_cases h1 : c = '\x7b'
    · subst h1
      simp
      omega
    · by_cases h2 : c = '\x7d'
      · subst h2
        simp
        omega
      · simp [h1, h2]
  · rw [if_neg hq, if_neg hq, zero_add]

theorem balance_singleton : q.balance [c] = q.weight c := by rw [balance_cons, balance_nil, add_zero]

theorem balance_append : q.balance (t ++ u) = q.balance t + (q.after t).balance u := by
  induction t generalizing q with
  | nil => rw [List.nil_append, balance_nil, zero_add, after_nil]
  | cons c t ih => rw [List.cons_append, balance_cons, balance_cons, ih, after_cons, add_assoc]

theorem unquoted_sublist : (q.unquoted t).Sublist t := by
  induction t generalizing q with
  | nil =>
      rw [unquoted]
  | cons c t ih =>
      rw [unquoted]
      split_ifs
      · exact (ih _).cons_cons c
      · exact (ih _).cons c

theorem balance_le_count : q.balance t ≤ t.count '\x7b' := by
  have hcount : (q.unquoted t).count '\x7b' ≤ t.count '\x7b' := (unquoted_sublist q t).count_le _
  unfold balance
  omega

theorem weight_cases : q.weight c = -1 ∧ q = outside ∧ c = '\x7d' ∨ 0 ≤ q.weight c ∧ q.weight c ≤ 1 := by
  unfold weight
  split_ifs with hq h1 h2
  · exact Or.inr (by decide)
  · exact Or.inl ⟨rfl, hq, h2⟩
  · exact Or.inr (by decide)
  · exact Or.inr (by decide)

/-- The text ends in a closing brace outside of strings. -/
def Closes : Prop := ∃ v, t = v ++ ['\x7d'] ∧ q.after v = outside

variable {q c t u}

theorem Closes.balance {v : List Char} (h : q.after v = outside) : q.balance (v ++ ['\x7d']) = q.balance v - 1 := by
  rw [balance_append, balance_singleton, h, weight_outside_close]
  rfl

/-- A text that comes down to a height closes a brace there.  By induction on the way down: as
long as it stays above the height nothing happens, and the first character that takes it down is
a closing brace. -/
theorem exists_falls {k : ℤ} (hlow : q.balance (t ++ u) ≤ k) (hhigh : k < q.balance t) :
    ∃ v, v <+: u ∧ q.Closes (t ++ v) ∧ q.balance (t ++ v) = k ∧
      ∀ w, w <+: v → w ≠ v → k < q.balance (t ++ w) := by
  induction u generalizing t with
  | nil =>
      rw [List.append_nil] at hlow
      omega
  | cons c u ih =>
      have hnext : q.balance (t ++ [c]) = q.balance t + (q.after t).weight c := by
        rw [balance_append, balance_singleton]
      by_cases hc : k < q.balance (t ++ [c])
      · have htail : t ++ c :: u = (t ++ [c]) ++ u := by rw [List.append_assoc, List.singleton_append]
        obtain ⟨v, hv, hclose, hbal, hbefore⟩ := ih (htail ▸ hlow) hc
        have hcons : (t ++ [c]) ++ v = t ++ c :: v := by rw [List.append_assoc, List.singleton_append]
        refine ⟨c :: v, List.prefix_cons_inj c |>.mpr hv, hcons ▸ hclose, hcons ▸ hbal, fun w hw hne => ?_⟩
        cases w with
        | nil =>
            rw [List.append_nil]
            exact hhigh
        | cons d w =>
            obtain ⟨rfl, hwv⟩ := List.cons_prefix_cons.mp hw
            have hkeep := hbefore w hwv (fun e => hne (e ▸ rfl))
            rwa [List.append_assoc, List.singleton_append] at hkeep
      · obtain ⟨hweight, hout, hbrace⟩ | ⟨hnonneg, -⟩ := weight_cases (q.after t) c
        · refine ⟨[c], ⟨u, rfl⟩, ⟨t, by rw [hbrace], hout⟩, by omega, fun w hw hne => ?_⟩
          obtain rfl | rfl := prefix_singleton hw
          · rwa [List.append_nil]
          · exact absurd rfl hne
        · omega

end Quoting

open Quoting

/-! ### Text without a brace that counts -/

/-- A scan reads the text from `q` to `q'`, and none of its braces counts. -/
structure Silent (q q' : Quoting) (t : List Char) : Prop where
  after : q.after t = q'
  level : ∀ u, u <+: t → q.balance u = 0

namespace Silent

variable {q q' q'' : Quoting} {c : Char} {t u : List Char}

theorem nil (q : Quoting) : Silent q q [] := ⟨rfl, fun u hu => by rw [List.prefix_nil.mp hu, balance_nil]⟩

theorem append (ht : Silent q q' t) (hu : Silent q' q'' u) : Silent q q'' (t ++ u) := by
  refine ⟨by rw [after_append, ht.after, hu.after], fun w hw => ?_⟩
  obtain hw | ⟨v, hv, rfl⟩ := prefix_append_cases hw
  · exact ht.level w hw
  · rw [balance_append, ht.level t (List.prefix_refl t), ht.after, hu.level v hv, add_zero]

theorem char (hw : q.weight c = 0) (hn : q.next c = q') : Silent q q' [c] := by
  refine ⟨hn, fun u hu => ?_⟩
  obtain rfl | rfl := prefix_singleton hu
  · rw [balance_nil]
  · rw [balance_singleton, hw]

theorem all (h : ∀ c ∈ t, Silent q q [c]) : Silent q q t := by
  induction t with
  | nil => exact nil q
  | cons c t ih => exact (h c (by simp)).append (ih fun x hx => h x (by simp [hx]))

theorem outside_char (h1 : c ≠ '"') (h2 : c ≠ '\x7b') (h3 : c ≠ '\x7d') : Silent outside outside [c] :=
  char (by simp [weight, h2, h3]) (by simp [next, h1])

theorem plain (h : ∀ c ∈ t, c ≠ '"' ∧ c ≠ '\x7b' ∧ c ≠ '\x7d') : Silent outside outside t :=
  all fun c hc => outside_char (h c hc).1 (h c hc).2.1 (h c hc).2.2

theorem inside_char (h1 : c ≠ '"') (h2 : c ≠ '\\') : Silent inside inside [c] :=
  char (by simp [weight]) (by simp [next, h1, h2])

theorem blank (h : IsBlank c) : Silent outside outside [c] := by
  obtain rfl | rfl | rfl | rfl := h <;> exact outside_char (by decide) (by decide) (by decide)

theorem number (n : NumberText) : Silent outside outside n.text := by
  refine plain fun c hc => ?_
  have hnumber := n.plain c hc
  refine ⟨?_, ?_, ?_⟩ <;> rintro rfl <;> revert hnumber <;> decide

theorem escape (E : Json.Escaper) (c : Char) : Silent inside inside (E.escape c) := by
  by_cases hc : Json.isSpecial c
  · obtain ⟨x, rest, he, -, hrest⟩ := E.special c hc
    have hback : Silent inside escaped ['\\'] := char rfl rfl
    have hx : Silent escaped inside [x] := char (by simp [weight]) rfl
    have hplain : Silent inside inside rest := by
      refine all fun y hy => ?_
      have hy' := hrest y hy
      unfold Json.isSpecial at hy'
      exact inside_char (fun e => hy' (Or.inl e)) (fun e => hy' (Or.inr (Or.inl e)))
    rw [he]
    exact hback.append (hx.append hplain)
  · rw [E.plain c hc]
    unfold Json.isSpecial at hc
    exact inside_char (fun e => hc (Or.inl e)) (fun e => hc (Or.inr (Or.inl e)))

theorem quoted (E : Json.Escaper) (s : List Char) : Silent outside outside (Json.quoted E s) := by
  have hopen : Silent outside inside ['"'] := char rfl rfl
  have hclose : Silent inside outside ['"'] := char rfl rfl
  have hbody : Silent inside inside (s.flatMap E.escape) := by
    induction s with
    | nil => exact nil inside
    | cons c s ih =>
        rw [List.flatMap_cons]
        exact (escape E c).append ih
  exact hopen.append (hbody.append hclose)

end Silent

/-! ### Text that comes back to its height -/

/-- The text begins and ends outside of strings, at one height; in between it rises `h` above that
height and no further. -/
structure Spans (h : ℕ) (t : List Char) : Prop where
  after : outside.after t = outside
  level : outside.balance t = 0
  within : ∀ u, u <+: t → 0 ≤ outside.balance u ∧ outside.balance u ≤ h
  reached : ∃ u, u <+: t ∧ outside.balance u = h

namespace Spans

variable {h h' : ℕ} {t t' : List Char}

theorem silent (ht : Silent outside outside t) : Spans 0 t where
  after := ht.after
  level := ht.level t (List.prefix_refl t)
  within u hu := by
    rw [ht.level u hu]
    decide
  reached := ⟨[], List.nil_prefix, rfl⟩

theorem append (ht : Spans h t) (ht' : Spans h' t') : Spans (max h h') (t ++ t') := by
  have hbal : ∀ v, outside.balance (t ++ v) = outside.balance v := by
    intro v
    rw [balance_append, ht.level, ht.after, zero_add]
  refine ⟨by rw [after_append, ht.after, ht'.after], by rw [hbal, ht'.level], fun u hu => ?_, ?_⟩
  · obtain hu | ⟨v, hv, rfl⟩ := prefix_append_cases hu
    · have := ht.within u hu
      omega
    · have := ht'.within v hv
      rw [hbal]
      omega
  · rcases le_total h' h with hle | hle
    · obtain ⟨u, hu, hreach⟩ := ht.reached
      exact ⟨u, hu.trans (List.prefix_append t t'), by rw [hreach, max_eq_left hle]⟩
    · obtain ⟨u, hu, hreach⟩ := ht'.reached
      exact ⟨t ++ u, (List.prefix_append_right_inj t).mpr hu, by rw [hbal, hreach, max_eq_right hle]⟩

/-- Text between silent pieces rises as it does alone. -/
theorem surround {u u' : List Char} (hu : Silent outside outside u) (ht : Spans h t) (hu' : Silent outside outside u') :
    Spans h (u ++ t ++ u') := by
  have hall := ((silent hu).append ht).append (silent hu')
  rwa [Nat.zero_max, Nat.max_zero] at hall

theorem prefix_braces {u : List Char} (hu : u <+: '\x7b' :: t ++ ['\x7d']) :
    u = [] ∨ u = '\x7b' :: t ++ ['\x7d'] ∨ ∃ v, v <+: t ∧ u = '\x7b' :: v := by
  obtain rfl | hu := List.prefix_concat_iff.mp hu
  · exact Or.inr (Or.inl rfl)
  · cases u with
    | nil => exact Or.inl rfl
    | cons c v =>
        obtain ⟨rfl, hv⟩ := List.cons_prefix_cons.mp hu
        exact Or.inr (Or.inr ⟨v, hv, rfl⟩)

theorem balance_open (v : List Char) : outside.balance ('\x7b' :: v) = 1 + outside.balance v := by
  rw [balance_cons, weight_outside_open]
  rfl

theorem balance_braces (ht : Spans h t) : outside.balance ('\x7b' :: t ++ ['\x7d']) = 0 := by
  have hafter : outside.after ('\x7b' :: t) = outside := ht.after
  rw [Closes.balance hafter, balance_open, ht.level]
  rfl

theorem braces (ht : Spans h t) : Spans (h + 1) ('\x7b' :: t ++ ['\x7d']) := by
  have hafter : outside.after ('\x7b' :: t) = outside := ht.after
  refine ⟨by rw [after_append, hafter]; rfl, ht.balance_braces, fun u hu => ?_, ?_⟩
  · obtain rfl | rfl | ⟨v, hv, rfl⟩ := prefix_braces hu
    · rw [balance_nil]
      omega
    · rw [ht.balance_braces]
      omega
    · have := ht.within v hv
      rw [balance_open]
      omega
  · obtain ⟨v, hv, hreach⟩ := ht.reached
    refine ⟨'\x7b' :: v, ?_, by rw [balance_open, hreach]; push_cast; ring⟩
    exact ((List.prefix_cons_inj _).mpr hv).trans (List.prefix_append _ _)

end Spans

/-! ### Text between braces -/

/-- The text opens with a brace and closes with one, and every part of it that begins with the
first brace holds more opening braces than closing ones outside of strings, but for the whole text,
which holds as many. -/
structure BraceText (t : List Char) : Prop where
  first : t.head? = some '\x7b'
  last : t.getLast? = some '\x7d'
  opened : ∀ u, u <+: t → u ≠ [] → u ≠ t →
    (outside.unquoted u).count '\x7d' < (outside.unquoted u).count '\x7b'
  closed : (outside.unquoted t).count '\x7b' = (outside.unquoted t).count '\x7d'

theorem Spans.braceText {h : ℕ} {t : List Char} (ht : Spans h t) : BraceText ('\x7b' :: t ++ ['\x7d']) where
  first := rfl
  last := List.getLast?_concat
  opened u hu hne hwhole := by
    obtain rfl | rfl | ⟨v, hv, rfl⟩ := prefix_braces hu
    · exact absurd rfl hne
    · exact absurd rfl hwhole
    · have hlow := (ht.within v hv).1
      have hopen := balance_open v
      unfold balance at hopen hlow
      omega
  closed := by
    have hlevel := ht.balance_braces
    unfold balance at hlevel
    omega

/-- The last brace stands outside of strings: it takes the balance down to zero. -/
theorem BraceText.closes {t : List Char} (ht : BraceText t) : outside.Closes t := by
  obtain ⟨y, rfl⟩ := List.getLast?_eq_some_iff.mp ht.last
  have hne : y ≠ [] := by
    rintro rfl
    exact absurd ht.first (by decide)
  have hopen := ht.opened y (List.prefix_append y _) hne (by simp)
  have hclosed := ht.closed
  have hbal : outside.balance (y ++ ['\x7d']) = outside.balance y + (outside.after y).weight '\x7d' := by
    rw [balance_append, balance_singleton]
  refine ⟨y, rfl, ?_⟩
  obtain ⟨-, hout, -⟩ | ⟨hnonneg, -⟩ := weight_cases (outside.after y) '\x7d'
  · exact hout
  · unfold balance at hbal
    omega

namespace JsonText

section Print

variable (E : Json.Escaper) (L : Layout)

theorem silent_gap (n : ℕ) : Silent outside outside (L.gap n) :=
  Silent.all fun c hc => Silent.blank (L.gap_blank n c hc)

theorem silent_afterColon : Silent outside outside L.afterColon :=
  Silent.all fun c hc => Silent.blank (L.afterColon_blank c hc)

theorem silent_comma : Silent outside outside [','] := Silent.outside_char (by decide) (by decide) (by decide)

theorem silent_close (b : Bool) (n : ℕ) : Silent outside outside (if b then [] else L.gap n) := by
  cases b
  · exact silent_gap L n
  · exact Silent.nil outside

mutual

/-- **A printed value rises by the nesting of its objects**, whatever its strings hold. -/
theorem spans_print (n : ℕ) : ∀ v : JsonText, Spans (nesting v) (print E L n v)
  | null => by
      rw [print, nesting]
      exact Spans.silent (Silent.plain (by decide))
  | bool b => by
      rw [print, nesting]
      cases b <;> exact Spans.silent (Silent.plain (by decide))
  | num number => by
      rw [print, nesting]
      exact Spans.silent (Silent.number number)
  | str s => by
      rw [print, nesting]
      exact Spans.silent (Silent.quoted E s)
  | arr items => by
      have hopen : Silent outside outside ['['] := Silent.outside_char (by decide) (by decide) (by decide)
      have hclose : Silent outside outside [']'] := Silent.outside_char (by decide) (by decide) (by decide)
      have hitems := spans_printItems (n + 1) items (Silent.nil outside)
      have hall := hitems.surround hopen ((silent_close L items.isEmpty n).append hclose)
      rw [print, nesting]
      simpa using hall
  | obj members => by
      have hmembers := spans_printMembers (n + 1) members (Silent.nil outside)
      have hbody := hmembers.surround (Silent.nil outside) (silent_close L members.isEmpty n)
      rw [print, nesting]
      exact hbody.braces

theorem spans_printItems (n : ℕ) {sep : List Char} : ∀ items : List JsonText, Silent outside outside sep →
    Spans (nestingItems items) (printItems E L n sep items)
  | [], _ => by
      rw [printItems, nestingItems]
      exact Spans.silent (Silent.nil outside)
  | v :: items, hsep => by
      have hv := (spans_print n v).surround (hsep.append (silent_gap L n)) (Silent.nil outside)
      rw [List.append_nil] at hv
      rw [printItems, nestingItems]
      exact hv.append (spans_printItems n items silent_comma)

theorem spans_printMembers (n : ℕ) {sep : List Char} : ∀ members : List (List Char × JsonText),
    Silent outside outside sep → Spans (nestingMembers members) (printMembers E L n sep members)
  | [], _ => by
      rw [printMembers, nestingMembers]
      exact Spans.silent (Silent.nil outside)
  | (k, v) :: members, hsep => by
      have hcolon : Silent outside outside [':'] := Silent.outside_char (by decide) (by decide) (by decide)
      have hkey := (hsep.append (silent_gap L n)).append (Silent.quoted E k)
      have hv := (spans_print n v).surround (hkey.append (hcolon.append (silent_afterColon L))) (Silent.nil outside)
      rw [List.append_nil] at hv
      have hrest := spans_printMembers n members silent_comma
      rw [printMembers, nestingMembers]
      simpa [List.append_assoc] using hv.append hrest

end

/-- **A printed object is closed by its last brace and by no other.** -/
theorem braceText_print (n : ℕ) (members : List (List Char × JsonText)) : BraceText ((obj members).print E L n) := by
  have hmembers := spans_printMembers E L (n + 1) members (Silent.nil outside)
  have hbody := hmembers.surround (Silent.nil outside) (silent_close L members.isEmpty n)
  rw [print]
  exact hbody.braceText

end Print

end JsonText

end PurpleWolf
