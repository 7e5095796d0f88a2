import PurpleWolf.Lib.Wildcard
import PurpleWolf.Relay.Pipeline

/-! # The filter of a subscriber (`subscribers/filter.rs`)

`CompiledFilter.matches` decides which envelopes a subscriber gets: by their labels, by the
severity of the blocking rule, and by a glob on the names of the rules.

`Glob.matches` looks for the parts of its pattern from left to right and keeps a byte offset
into the text; a slice at a bad offset would panic, which is modelled by `none`.  It never
does.  The glob takes each part where it occurs first.  That is right but for one kind of
pattern: a single part after a leading star has to stand at the end, and is missed there if
it also occurs before (`Glob.matchesStr_iff`). -/

namespace PurpleWolf.Relay

open Text Wildcard

/-! ### Globs -/

structure Glob where
  parts : List Str
  startsWild : Bool
  endsWild : Bool

namespace Glob

/-- `Glob::new(pattern)`. -/
def new (pattern : Str) : Glob where
  parts := (pattern.splitOn '*').filter (fun s => !s.isEmpty)
  startsWild := pattern.head? == some '*'
  endsWild := pattern.getLast? == some '*'

/-- `s[cursor..].find(part)` and the cursor behind what is found.  The outer option is about
panicking, the inner one about finding. -/
def findFrom (s : Str) (cursor : ℕ) (part : Str) : Option (Option ℕ) :=
  (sliceFrom cursor s).map fun tail => (find part tail).map (fun idx => cursor + (idx + byteLen part))

/-- The loop over the parts after the first. -/
def matchRest (s : Str) (endsWild : Bool) : List Str → ℕ → Option (Option ℕ)
  | [], cursor => some (some cursor)
  | part :: rest, cursor =>
      let isLast := rest.isEmpty
      let anchorEnd := isLast && !endsWild
      if anchorEnd then
        (sliceFrom cursor s).bind fun tail =>
          if !part.isSuffixOf tail then some none
          else
            let want := byteLen s - byteLen part
            if want < cursor then some none else matchRest s endsWild rest (byteLen s)
      else
        (findFrom s cursor part).bind fun found =>
          match found with
          | some cursor => matchRest s endsWild rest cursor
          | none => some none

/-- The last check: the pattern must cover the string. -/
def covers (s : Str) (endsWild : Bool) : Option ℕ → Bool
  | none => false
  | some cursor => if !endsWild && cursor != byteLen s then false else true

/-- `Glob::matches`; nothing if it panics. -/
def matchesStr (g : Glob) (s : Str) : Option Bool :=
  match g.parts with
  | [] => some true
  | first :: rest =>
      let anchored :=
        if g.startsWild then findFrom s 0 first
        else if first.isPrefixOf s then some (some (byteLen first))
        else some none
      anchored.bind fun cursor =>
        match cursor with
        | none => some false
        | some cursor => (matchRest s g.endsWild rest cursor).map (covers s g.endsWild)

/-! ### What the parts cover -/

theorem findFrom_byteLen (a tail part : Str) :
    findFrom (a ++ tail) (byteLen a) part =
      some ((find part tail).map (fun idx => byteLen a + (idx + byteLen part))) := by
  unfold findFrom
  rw [sliceFrom_append]
  rfl

/-- The cursor is at the end of what has been read, and the loop finds out whether the parts
that are left are spread over the rest. -/
theorem matchRest_spec (endsWild : Bool) : ∀ (parts : List Str) (a tail : Str), ∃ cursor,
    matchRest (a ++ tail) endsWild parts (byteLen a) = some cursor ∧
      (covers (a ++ tail) endsWild cursor = true ↔ Spread endsWild parts tail)
  | [], a, tail => by
      refine ⟨some (byteLen a), rfl, ?_⟩
      have hend : byteLen a = byteLen (a ++ tail) ↔ tail = [] := by
        rw [byteLen_append, ← byteLen_eq_zero]
        omega
      unfold covers Spread
      rw [← hend]
      cases endsWild <;> simp
  | part :: rest, a, tail => by
      unfold matchRest
      by_cases hanchor : (rest.isEmpty && !endsWild) = true
      · obtain ⟨hrest, hends⟩ := (Bool.and_eq_true _ _).mp hanchor
        rw [List.isEmpty_iff] at hrest
        subst hrest
        have hfalse : endsWild = false := by simpa using hends
        subst hfalse
        rw [spread_last_iff]
        simp only [hanchor, if_true, sliceFrom_append, Option.bind_some]
        by_cases hsuffix : part <:+ tail
        · have hroom : ¬ byteLen (a ++ tail) - byteLen part < byteLen a := by
            obtain ⟨b, rfl⟩ := hsuffix
            simp only [byteLen_append]
            omega
          rw [if_neg (by simpa using hsuffix), if_neg hroom]
          refine ⟨some (byteLen (a ++ tail)), rfl, ?_⟩
          simp [covers, hsuffix]
        · have hnot : part.isSuffixOf tail = false := by
            rw [Bool.eq_false_iff, Ne, List.isSuffixOf_iff_suffix]
            exact hsuffix
          rw [hnot, if_pos Bool.not_false]
          refine ⟨none, rfl, ?_⟩
          simp [covers, hsuffix]
      · have hopen : rest ≠ [] ∨ endsWild = true := by
          cases rest with
          | nil =>
              right
              simpa using hanchor
          | cons q rest => exact Or.inl (List.cons_ne_nil _ _)
        simp only [hanchor, findFrom_byteLen, Option.bind_some]
        cases hfind : find part tail with
        | none =>
            refine ⟨none, rfl, ?_⟩
            simp only [covers, Bool.false_eq_true, false_iff]
            rintro ⟨b, c, hsplit, -⟩
            exact find_eq_none hfind b c hsplit
        | some idx =>
            obtain ⟨b, c, rfl, rfl, hfirst⟩ := find_eq_some hfind
            obtain ⟨cursor, hrun, hcovers⟩ := matchRest_spec endsWild rest (a ++ (b ++ part)) c
            refine ⟨cursor, ?_, ?_⟩
            · simp only [byteLen_append] at hrun
              simp only [Option.map_some]
              rw [← hrun]
              simp [List.append_assoc]
            · have hsame : a ++ (b ++ (part ++ c)) = a ++ (b ++ part) ++ c := by simp
              rw [hsame, hcovers]
              exact (spread_first ⟨rfl, hfirst⟩ hopen).symm

section First

variable {g : Glob} {first : Str} {rest : List Str}

theorem matchesStr_anchored (hparts : g.parts = first :: rest) (hstarts : g.startsWild = false) (s : Str) :
    ∃ b, g.matchesStr s = some b ∧ (b = true ↔ ∃ t, s = first ++ t ∧ Spread g.endsWild rest t) := by
  unfold matchesStr
  rw [hparts]
  simp only [hstarts, Bool.false_eq_true, if_false]
  by_cases hprefix : first <+: s
  · obtain ⟨t, rfl⟩ := hprefix
    obtain ⟨cursor, hrun, hcovers⟩ := matchRest_spec g.endsWild rest first t
    have hyes : first.isPrefixOf (first ++ t) = true := List.isPrefixOf_iff_prefix.mpr (List.prefix_append _ _)
    simp only [if_pos hyes, Option.bind_some, hrun, Option.map_some]
    refine ⟨_, rfl, ?_⟩
    rw [hcovers]
    constructor
    · exact fun h => ⟨t, rfl, h⟩
    · rintro ⟨t', heq, h⟩
      rw [List.append_cancel_left heq]
      exact h
  · have hno : ¬ first.isPrefixOf s = true := by
      rw [List.isPrefixOf_iff_prefix]
      exact hprefix
    rw [if_neg hno]
    refine ⟨false, rfl, ?_⟩
    simp only [Bool.false_eq_true, false_iff]
    rintro ⟨t, rfl, -⟩
    exact hprefix (List.prefix_append _ _)

theorem matchesStr_wild (hparts : g.parts = first :: rest) (hstarts : g.startsWild = true) (s : Str) :
    ∃ b, g.matchesStr s = some b ∧
      (((∀ x t, s ≠ x ++ (first ++ t)) ∧ b = false) ∨
        ∃ x t, FirstAt first s x t ∧ (b = true ↔ Spread g.endsWild rest t)) := by
  unfold matchesStr
  rw [hparts]
  have hfrom := findFrom_byteLen [] s first
  rw [List.nil_append] at hfrom
  simp only [hstarts, if_true]
  rw [show 0 = byteLen [] from rfl, hfrom, Option.bind_some]
  cases hfind : find first s with
  | none => exact ⟨false, rfl, Or.inl ⟨find_eq_none hfind, rfl⟩⟩
  | some idx =>
      obtain ⟨x, t, rfl, rfl, hfirst⟩ := find_eq_some hfind
      obtain ⟨cursor, hrun, hcovers⟩ := matchRest_spec g.endsWild rest (x ++ first) t
      have hcursor : byteLen [] + (byteLen x + byteLen first) = byteLen (x ++ first) := by
        rw [byteLen_append]
        exact Nat.zero_add _
      rw [List.append_assoc] at hrun hcovers
      simp only [Option.map_some, hcursor]
      rw [hrun]
      exact ⟨_, rfl, Or.inr ⟨x, t, ⟨rfl, hfirst⟩, hcovers⟩⟩

end First

/-- No slice is out of range or inside a character. -/
theorem matchesStr_isSome (g : Glob) (s : Str) : (g.matchesStr s).isSome := by
  cases hparts : g.parts with
  | nil =>
      unfold matchesStr
      rw [hparts]
      rfl
  | cons first rest =>
      cases hstarts : g.startsWild with
      | false =>
          obtain ⟨b, hrun, -⟩ := matchesStr_anchored hparts hstarts s
          rw [hrun]
          rfl
      | true =>
          obtain ⟨b, hrun, -⟩ := matchesStr_wild hparts hstarts s
          rw [hrun]
          rfl

/-! ### The language of a glob -/

/-- The pattern has a single part, after a star and to stand at the end, and that part is the
end of the string but also occurs in it before. -/
def Recurs (pattern s : Str) : Prop :=
  ∃ p, (new pattern).parts = [p] ∧ (new pattern).startsWild = true ∧ (new pattern).endsWild = false ∧ p <:+ s ∧
    ∃ y z, s = y ++ (p ++ z) ∧ z ≠ []

/-- The part is taken where it occurs first, and has to stand at the end. -/
theorem first_at_end_iff {p s a b : Str} (h : FirstAt p s a b) :
    (b = [] ↔ p <:+ s) ↔ ¬ (p <:+ s ∧ ∃ y z, s = y ++ (p ++ z) ∧ z ≠ []) := by
  obtain ⟨rfl, hfirst⟩ := h
  by_cases hb : b = []
  · subst hb
    have hsuffix : p <:+ a ++ (p ++ []) := ⟨a, by simp⟩
    apply iff_of_true (iff_of_true rfl hsuffix)
    rintro ⟨-, y, z, heq, hz⟩
    have hle := hfirst y z heq
    have hlen := congrArg List.length heq
    have hpos := List.length_pos_of_ne_nil hz
    simp only [List.length_append, List.length_nil] at hlen
    omega
  · constructor
    · rintro h ⟨hsuffix, -⟩
      exact hb (h.mpr hsuffix)
    · intro h
      apply iff_of_false hb
      intro hsuffix
      exact h ⟨hsuffix, a, b, rfl, hb⟩

theorem recurs_iff {pattern s first : Str} {rest : List Str} (hparts : (new pattern).parts = first :: rest)
    (hstarts : (new pattern).startsWild = true) :
    Recurs pattern s ↔
      rest = [] ∧ (new pattern).endsWild = false ∧ first <:+ s ∧ ∃ y z, s = y ++ (first ++ z) ∧ z ≠ [] := by
  constructor
  · rintro ⟨q, hq, -, hends, h⟩
    rw [hparts] at hq
    obtain ⟨rfl, rfl⟩ := List.cons.inj hq
    exact ⟨rfl, hends, h⟩
  · rintro ⟨rfl, hends, h⟩
    exact ⟨first, hparts, hstarts, hends, h⟩

theorem matchesStr_star (p s : Str) : ∃ b, (new ('*' :: p)).matchesStr s = some b ∧
    ((b = true ↔ Matches '*' ('*' :: p) s) ↔ ¬ Recurs ('*' :: p) s) := by
  have hstarts : (new ('*' :: p)).startsWild = true := rfl
  have hlanguage : Matches '*' ('*' :: p) s ↔
      Spread (new ('*' :: p)).endsWild (new ('*' :: p)).parts s := matches_star_iff '*' p
  cases hparts : (new ('*' :: p)).parts with
  | nil =>
      have hends : (new ('*' :: p)).endsWild = true := endsWild_of_parts_eq_nil '*' (List.cons_ne_nil _ _) hparts
      have hnot : ¬ Recurs ('*' :: p) s := by
        rintro ⟨q, hq, -⟩
        rw [hparts] at hq
        cases hq
      refine ⟨true, by unfold matchesStr; rw [hparts], iff_of_true (iff_of_true rfl ?_) hnot⟩
      rw [hlanguage, hparts]
      exact Or.inl hends
  | cons first rest =>
      rw [hparts] at hlanguage
      obtain ⟨b, hrun, h⟩ := matchesStr_wild hparts hstarts s
      refine ⟨b, hrun, ?_⟩
      rw [hlanguage, recurs_iff hparts hstarts]
      obtain ⟨hnone, rfl⟩ | ⟨x, t, hfirst, hb⟩ := h
      · refine iff_of_true (iff_of_false Bool.false_ne_true ?_) ?_
        · rintro ⟨x, t, heq, -⟩
          exact hnone x t heq
        · rintro ⟨-, -, -, y, z, heq, -⟩
          exact hnone y z heq
      · rw [hb]
        by_cases hopen : rest ≠ [] ∨ (new ('*' :: p)).endsWild = true
        · apply iff_of_true (spread_first hfirst hopen).symm
          rintro ⟨hrest, hends, -⟩
          rw [hends] at hopen
          simp [hrest] at hopen
        · rw [not_or, not_not, Bool.not_eq_true] at hopen
          obtain ⟨rfl, hends⟩ := hopen
          have hcode : Spread (new ('*' :: p)).endsWild [] t ↔ t = [] := by
            rw [hends]
            simp [Spread]
          have hsuffix : Spread (new ('*' :: p)).endsWild [first] s ↔ first <:+ s := by
            rw [hends]
            exact spread_last_iff
          rw [hcode, hsuffix, first_at_end_iff hfirst]
          simp [hends]

theorem matchesStr_letter {c : Char} (hc : c ≠ '*') (p s : Str) : ∃ b, (new (c :: p)).matchesStr s = some b ∧
    ((b = true ↔ Matches '*' (c :: p) s) ↔ ¬ Recurs (c :: p) s) := by
  obtain ⟨first, rest, hparts, hlanguage⟩ := matches_letter_iff hc p
  have hstarts : (new (c :: p)).startsWild = false := by
    unfold new
    simpa using hc
  have hnot : ¬ Recurs (c :: p) s := by
    rintro ⟨_, -, h, -⟩
    rw [hstarts] at h
    cases h
  obtain ⟨b, hrun, hb⟩ := matchesStr_anchored hparts hstarts s
  refine ⟨b, hrun, iff_of_true ?_ hnot⟩
  rw [hb, hlanguage]
  rfl

/-- **When a glob matches its language**, for every pattern but the empty one: it never
panics, and it says whether the pattern covers the string, except for a part that recurs. -/
theorem matchesStr_iff {pattern : Str} (hne : pattern ≠ []) (s : Str) :
    ∃ b, (new pattern).matchesStr s = some b ∧
      ((b = true ↔ Matches '*' pattern s) ↔ ¬ Recurs pattern s) := by
  cases pattern with
  | nil => exact absurd rfl hne
  | cons c p =>
      by_cases hc : c = '*'
      · rw [hc]
        exact matchesStr_star p s
      · exact matchesStr_letter hc p s

/-- A glob with two parts, a middle star and a star at the end. -/
theorem matchesStr_rules : ∃ b, (new "sig*/l*".toList).matchesStr "signatures/lfi".toList = some b ∧
    ((b = true ↔ Matches '*' "sig*/l*".toList "signatures/lfi".toList) ↔
      ¬ Recurs "sig*/l*".toList "signatures/lfi".toList) :=
  matchesStr_iff (by decide) _

/-- `*abc` covers `abcabc`, but the glob stops at the first `abc`. -/
theorem matchesStr_misses : ¬ ((new "*abc".toList).matchesStr "abcabc".toList = some true ↔
    Matches '*' "*abc".toList "abcabc".toList) := by
  have hcode : (new "*abc".toList).matchesStr "abcabc".toList = some false := by decide
  have hlanguage : Matches '*' "*abc".toList "abcabc".toList := by
    apply Matches.star "abc".toList
    exact Matches.letter (by decide) (Matches.letter (by decide) (Matches.letter (by decide) Matches.nil))
  rw [hcode]
  simpa using hlanguage

end Glob

/-! ### Filters -/

inductive Severity where
  | low
  | medium
  | high
  | critical
  deriving DecidableEq

namespace Severity

/-- The order of declaration, which `Ord` is derived from. -/
def rank : Severity → ℕ
  | low => 0
  | medium => 1
  | high => 2
  | critical => 3

def parse (s : Str) : Option Severity :=
  if s = "low".toList then some low
  else if s = "medium".toList then some medium
  else if s = "high".toList then some high
  else if s = "critical".toList then some critical
  else none

end Severity

structure SubscriberFilter where
  labels : Labels
  severityMin : Option Severity
  blockedRulePattern : Option Str

structure CompiledFilter where
  labels : Labels
  severityMin : Option Severity
  ruleGlob : Option Glob

namespace CompiledFilter

def compile (f : SubscriberFilter) : CompiledFilter where
  labels := f.labels
  severityMin := f.severityMin
  ruleGlob := f.blockedRulePattern.map Glob.new

/-- `arr.iter().filter_map(|x| x.as_str()).any(|s| g.matches(s))` -/
def anyMatches (g : Glob) : List Json → Option Bool
  | [] => some false
  | .str s :: items => (g.matchesStr s).bind fun found => if found then some true else anyMatches g items
  | _ :: items => anyMatches g items

/-- The severity of the rule that blocked is known and high enough. -/
def severe (min : Option Severity) (event : Json) : Bool :=
  match min with
  | none => true
  | some min =>
      match ((event.get "blocked_severity".toList).bind Json.asStr).bind Severity.parse with
      | some sev => min.rank ≤ sev.rank
      | none => false

/-- The glob matches the rule that blocked, or one that would have. -/
def ruleMatches (glob : Option Glob) (event : Json) : Option Bool :=
  match glob with
  | none => some true
  | some g =>
      let direct := ((event.get "blocked_rule".toList).bind Json.asStr).elim (some false) g.matchesStr
      direct.bind fun direct =>
        if direct then some true
        else
          match event.get "would_block_rules".toList with
          | some (.arr items) => anyMatches g items
          | _ => some false

/-- `CompiledFilter::matches`; nothing if it panics. -/
def matchesEnvelope (f : CompiledFilter) (env : Envelope) : Option Bool :=
  if ¬ ∀ e ∈ f.labels.entries, env.labels.lookup e.1 = some e.2 then some false
  else if !severe f.severityMin env.event then some false
  else ruleMatches f.ruleGlob env.event

theorem anyMatches_isSome (g : Glob) (items : List Json) : (anyMatches g items).isSome := by
  induction items with
  | nil => rfl
  | cons item items ih =>
      cases item with
      | str s =>
          obtain ⟨found, hfound⟩ := Option.isSome_iff_exists.mp (g.matchesStr_isSome s)
          rw [anyMatches, hfound, Option.bind_some]
          split_ifs
          · rfl
          · exact ih
      | _ => exact ih

theorem ruleMatches_isSome (glob : Option Glob) (event : Json) : (ruleMatches glob event).isSome := by
  unfold ruleMatches
  cases glob with
  | none => rfl
  | some g =>
      have hdirect : (((event.get "blocked_rule".toList).bind Json.asStr).elim (some false) g.matchesStr).isSome := by
        cases (event.get "blocked_rule".toList).bind Json.asStr with
        | none => rfl
        | some s => exact g.matchesStr_isSome s
      obtain ⟨direct, hsome⟩ := Option.isSome_iff_exists.mp hdirect
      simp only
      rw [hsome, Option.bind_some]
      split_ifs
      · rfl
      · split
        · exact anyMatches_isSome g _
        · rfl

/-- **A filter always comes to a decision.** -/
theorem matchesEnvelope_isSome (f : CompiledFilter) (env : Envelope) : (f.matchesEnvelope env).isSome := by
  unfold matchesEnvelope
  split_ifs
  · rfl
  · exact ruleMatches_isSome _ _
  · rfl

/-- The predicate a subscriber filters by. -/
def accepts (f : CompiledFilter) (env : Envelope) : Bool :=
  (f.matchesEnvelope env).get (f.matchesEnvelope_isSome env)

end CompiledFilter

end PurpleWolf.Relay
