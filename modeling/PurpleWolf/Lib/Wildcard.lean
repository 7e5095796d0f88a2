import Mathlib.Tactic

/-! # Patterns with a wildcard

A pattern is a text in which one letter, `star`, stands for any text.  Cut at its stars, a
pattern is a list of parts, and the texts it matches are those in which the parts stand one
after the other (`Spread`), the first at the start and the last at the end unless there is
a star (`matches_star_iff`, `matches_letter_iff`).

A part may always be looked for where it occurs first (`spread_first`), except for one that
has to stand at the end. -/

namespace PurpleWolf.Wildcard

variable {α : Type}

/-! ### The language of a pattern -/

/-- The pattern `p` covers the whole of `s`. -/
inductive Matches (star : α) : List α → List α → Prop where
  | nil : Matches star [] []
  | star (a : List α) {p s : List α} (rest : Matches star p s) : Matches star (star :: p) (a ++ s)
  | letter {c : α} (hc : c ≠ star) {p s : List α} (rest : Matches star p s) : Matches star (c :: p) (c :: s)

theorem matches_nil_iff {star : α} {s : List α} : Matches star [] s ↔ s = [] := by
  constructor
  · rintro ⟨⟩
    rfl
  · rintro rfl
    exact Matches.nil

theorem matches_star_cons_iff {star : α} {p s : List α} :
    Matches star (star :: p) s ↔ ∃ a b, s = a ++ b ∧ Matches star p b := by
  constructor
  · rintro (_ | ⟨a, h⟩ | ⟨hc, -⟩)
    · exact ⟨a, _, rfl, h⟩
    · exact absurd rfl hc
  · rintro ⟨a, b, rfl, h⟩
    exact Matches.star a h

theorem matches_letter_cons_iff {star c : α} (hc : c ≠ star) {p s : List α} :
    Matches star (c :: p) s ↔ ∃ b, s = c :: b ∧ Matches star p b := by
  constructor
  · rintro (_ | _ | ⟨-, h⟩)
    · exact absurd rfl hc
    · exact ⟨_, rfl, h⟩
  · rintro ⟨b, rfl, h⟩
    exact Matches.letter hc h

/-! ### Parts in order -/

/-- The parts stand in `s` one after the other, and something may follow the last of them
only if `ends` says so. -/
def Spread (ends : Bool) : List (List α) → List α → Prop
  | [], s => ends = true ∨ s = []
  | p :: ps, s => ∃ a b, s = a ++ (p ++ b) ∧ Spread ends ps b

theorem Spread.append_left {ends : Bool} {ps : List (List α)} {s : List α} (h : Spread ends ps s)
    (hopen : ps ≠ [] ∨ ends = true) (a : List α) : Spread ends ps (a ++ s) := by
  cases ps with
  | nil =>
      obtain hne | hends := hopen
      · exact absurd rfl hne
      · exact Or.inl hends
  | cons p ps =>
      obtain ⟨b, c, rfl, h⟩ := h
      exact ⟨a ++ b, c, by rw [List.append_assoc], h⟩

theorem spread_last_iff {p s : List α} : Spread false [p] s ↔ p <:+ s := by
  constructor
  · rintro ⟨a, b, rfl, h | rfl⟩
    · cases h
    · exact ⟨a, by simp⟩
  · rintro ⟨a, rfl⟩
    exact ⟨a, [], by simp, Or.inr rfl⟩

/-- `p` occurs in `s` between `a` and `b`, and not before that. -/
def FirstAt (p s a b : List α) : Prop := s = a ++ (p ++ b) ∧ ∀ a' b', s = a' ++ (p ++ b') → a.length ≤ a'.length

/-- **Looking for a part where it occurs first is enough**, if something may follow. -/
theorem spread_first {ends : Bool} {p s a b : List α} {ps : List (List α)} (h : FirstAt p s a b)
    (hopen : ps ≠ [] ∨ ends = true) : Spread ends (p :: ps) s ↔ Spread ends ps b := by
  obtain ⟨hs, hfirst⟩ := h
  constructor
  · rintro ⟨a', b', hs', h⟩
    have hle := hfirst a' b' hs'
    rw [hs, ← List.append_assoc, ← List.append_assoc] at hs'
    obtain ⟨gap, hgap, hb⟩ | ⟨gap, hgap, hb⟩ := List.append_eq_append_iff.mp hs'
    · rw [hb]
      exact h.append_left hopen gap
    · have hlen := congrArg List.length hgap
      simp only [List.length_append] at hlen
      have hnil : gap = [] := List.length_eq_zero_iff.mp (by omega)
      rw [hnil, List.nil_append] at hb
      rw [← hb]
      exact h
  · exact fun h => ⟨a, b, hs, h⟩

/-! ### Cutting a pattern -/

/-- The blocks stand one after the other, with anything between them. -/
def Joined : List (List α) → List α → Prop
  | [], _ => False
  | [p], s => s = p
  | p :: q :: ps, s => ∃ a b, s = p ++ (a ++ b) ∧ Joined (q :: ps) b

theorem joined_cons {p s : List α} {ps : List (List α)} (hne : ps ≠ []) :
    Joined (p :: ps) s ↔ ∃ a b, s = p ++ (a ++ b) ∧ Joined ps b := by
  cases ps with
  | nil => exact absurd rfl hne
  | cons q ps => rfl

section Cut

variable [BEq α] [LawfulBEq α] (star : α)

theorem splitOn_star (p : List α) : (star :: p).splitOn star = [] :: p.splitOn star := by
  unfold List.splitOn
  rw [List.splitOnP_cons_eq_if_modifyHead, if_pos (beq_self_eq_true star)]

theorem splitOn_letter {c : α} (hc : c ≠ star) (p : List α) :
    (c :: p).splitOn star = (p.splitOn star).modifyHead (List.cons c) := by
  unfold List.splitOn
  rw [List.splitOnP_cons_eq_if_modifyHead, if_neg (by simpa using hc)]

omit [LawfulBEq α] in
theorem splitOn_ne_nil (p : List α) : p.splitOn star ≠ [] := List.splitOnP_ne_nil _ _

omit [LawfulBEq α] in
theorem exists_splitOn (p : List α) : ∃ q qs, p.splitOn star = q :: qs := by
  cases h : p.splitOn star with
  | nil => exact absurd h (splitOn_ne_nil star p)
  | cons q qs => exact ⟨q, qs, rfl⟩

theorem matches_iff_joined {p s : List α} : Matches star p s ↔ Joined (p.splitOn star) s := by
  induction p generalizing s with
  | nil =>
      rw [matches_nil_iff, List.splitOn_nil]
      rfl
  | cons c p ih =>
      obtain ⟨q, qs, hsplit⟩ := exists_splitOn star p
      by_cases hc : c = star
      · subst hc
        rw [matches_star_cons_iff, splitOn_star, hsplit]
        refine exists_congr fun a => exists_congr fun b => and_congr Iff.rfl ?_
        rw [ih, hsplit]
      · rw [matches_letter_cons_iff hc, splitOn_letter star hc, hsplit, List.modifyHead_cons]
        simp only [ih, hsplit]
        cases qs with
        | nil =>
            constructor
            · rintro ⟨b, rfl, rfl⟩
              rfl
            · rintro rfl
              exact ⟨q, rfl, rfl⟩
        | cons r qs =>
            constructor
            · rintro ⟨_, rfl, a, b, rfl, h⟩
              exact ⟨a, b, rfl, h⟩
            · rintro ⟨a, b, rfl, h⟩
              exact ⟨_, rfl, a, b, rfl, h⟩

theorem getLast?_splitOn (p : List α) : (p.splitOn star).getLast? = some [] ↔ p = [] ∨ p.getLast? = some star := by
  induction p with
  | nil => simp
  | cons c p ih =>
      obtain ⟨q, qs, hsplit⟩ := exists_splitOn star p
      have hends : (c :: p).getLast? = some star ↔ (p = [] ∧ c = star) ∨ (p ≠ [] ∧ p.getLast? = some star) := by
        cases p with
        | nil => simp
        | cons d p => simp [List.getLast?_cons_cons]
      rw [hends]
      by_cases hc : c = star
      · subst hc
        rw [splitOn_star, List.getLast?_cons_of_ne_nil (by rw [hsplit]; simp), ih]
        by_cases hp : p = [] <;> simp [hp]
      · rw [splitOn_letter star hc, hsplit, List.modifyHead_cons]
        cases qs with
        | nil =>
            have hnot : ¬ (p ≠ [] ∧ p.getLast? = some star) := by
              rintro ⟨hp, hlast⟩
              have hq := ih.mpr (Or.inr hlast)
              rw [hsplit] at hq
              have hempty : q = [] := by simpa using hq
              have hwhole : [star].intercalate (p.splitOn star) = p := List.intercalate_splitOn star
              rw [hsplit, hempty] at hwhole
              exact hp hwhole.symm
            simp [hc, hnot]
        | cons r qs =>
            have hp : p ≠ [] := by
              rintro rfl
              simp at hsplit
            rw [hsplit, List.getLast?_cons_cons] at ih
            rw [List.getLast?_cons_cons, ih]
            simp [hp, hc]

/-- The parts of a pattern: its blocks, without the empty ones. -/
def parts (p : List α) : List (List α) := (p.splitOn star).filter (fun q => !q.isEmpty)

/-- Whether a pattern ends with a star. -/
def endsWild (p : List α) : Bool := p.getLast? == some star

theorem endsWild_of_parts_eq_nil {p : List α} (hne : p ≠ []) (h : parts star p = []) : endsWild star p = true := by
  have hempty := List.filter_eq_nil_iff.mp h _ (List.getLast_mem (splitOn_ne_nil star p))
  have hlast : (p.splitOn star).getLast? = some [] := by
    rw [List.getLast?_eq_some_getLast (splitOn_ne_nil star p)]
    simpa using hempty
  obtain hnil | hstar := (getLast?_splitOn star p).mp hlast
  · exact absurd hnil hne
  · unfold endsWild
    rw [hstar]
    exact beq_self_eq_true _

end Cut

/-- Empty blocks impose nothing, being next to a star on either side. -/
theorem exists_joined_iff [BEq α] [LawfulBEq α] {ps : List (List α)} (hne : ps ≠ []) {s : List α} :
    (∃ a b, s = a ++ b ∧ Joined ps b) ↔
      Spread (ps.getLast? == some []) (ps.filter (fun q => !q.isEmpty)) s := by
  induction ps generalizing s with
  | nil => exact absurd rfl hne
  | cons p ps ih =>
      by_cases hps : ps = []
      · subst hps
        by_cases hp : p = []
        · subst hp
          exact ⟨fun _ => Or.inl rfl, fun _ => ⟨s, [], by simp, rfl⟩⟩
        · have hkeep : [p].filter (fun q => !q.isEmpty) = [p] := by simp [hp]
          have hlast : ([p].getLast? == some []) = false := by simpa using hp
          rw [hkeep, hlast]
          constructor
          · rintro ⟨a, b, rfl, rfl⟩
            exact ⟨a, [], by simp, Or.inr rfl⟩
          · rintro ⟨a, b, rfl, h | rfl⟩
            · cases h
            · exact ⟨a, p, by simp, rfl⟩
      · have hlast : (p :: ps).getLast? = ps.getLast? := List.getLast?_cons_of_ne_nil hps
        rw [hlast]
        have hrest : (∃ a b, s = a ++ b ∧ Joined (p :: ps) b) ↔
            ∃ a b, s = a ++ (p ++ b) ∧ Spread (ps.getLast? == some []) (ps.filter (fun q => !q.isEmpty)) b := by
          simp only [joined_cons hps, ← ih hps]
          constructor
          · rintro ⟨a, _, rfl, b, c, rfl, h⟩
            exact ⟨a, b ++ c, rfl, b, c, rfl, h⟩
          · rintro ⟨a, _, rfl, b, c, rfl, h⟩
            exact ⟨a, _, rfl, b, c, rfl, h⟩
        rw [hrest]
        by_cases hp : p = []
        · subst hp
          have hdrop : ([] :: ps).filter (fun q => !q.isEmpty) = ps.filter (fun q => !q.isEmpty) := by simp
          rw [hdrop]
          constructor
          · rintro ⟨a, b, rfl, h⟩
            apply h.append_left
            by_cases hparts : ps.filter (fun q => !q.isEmpty) = []
            · right
              have hempty := List.filter_eq_nil_iff.mp hparts _ (List.getLast_mem hps)
              have hnil : ps.getLast hps = [] := by simpa using hempty
              rw [List.getLast?_eq_some_getLast hps, hnil]
              exact beq_self_eq_true _
            · exact Or.inl hparts
          · exact fun h => ⟨[], s, rfl, h⟩
        · have hkeep : (p :: ps).filter (fun q => !q.isEmpty) = p :: ps.filter (fun q => !q.isEmpty) := by
            simp [hp]
          rw [hkeep]
          rfl

/-- **A pattern that begins with a star** matches where its parts stand in order. -/
theorem matches_star_iff [BEq α] [LawfulBEq α] (star : α) (p : List α) {s : List α} :
    Matches star (star :: p) s ↔ Spread (endsWild star (star :: p)) (parts star (star :: p)) s := by
  have hends : endsWild star (star :: p) = ((p.splitOn star).getLast? == some []) := by
    have hlast := getLast?_splitOn star (star :: p)
    rw [splitOn_star, List.getLast?_cons_of_ne_nil (splitOn_ne_nil star p)] at hlast
    unfold endsWild
    rw [Bool.eq_iff_iff, beq_iff_eq, beq_iff_eq, hlast]
    simp
  have hparts : parts star (star :: p) = (p.splitOn star).filter (fun q => !q.isEmpty) := by
    unfold parts
    rw [splitOn_star]
    simp
  rw [hends, hparts, ← exists_joined_iff (splitOn_ne_nil star p), matches_star_cons_iff]
  simp only [matches_iff_joined]

/-- **A pattern that begins with a letter** matches where its first part stands at the start
and the others follow it in order. -/
theorem matches_letter_iff [BEq α] [LawfulBEq α] {star c : α} (hc : c ≠ star) (p : List α) :
    ∃ q qs, parts star (c :: p) = q :: qs ∧
      ∀ s, Matches star (c :: p) s ↔ ∃ b, s = q ++ b ∧ Spread (endsWild star (c :: p)) qs b := by
  obtain ⟨q, qs, hsplit⟩ := exists_splitOn star p
  have hcut : (c :: p).splitOn star = (c :: q) :: qs := by
    rw [splitOn_letter star hc, hsplit, List.modifyHead_cons]
  have hends : endsWild star (c :: p) = (((c :: q) :: qs).getLast? == some []) := by
    have hlast := getLast?_splitOn star (c :: p)
    rw [hcut] at hlast
    unfold endsWild
    rw [Bool.eq_iff_iff, beq_iff_eq, beq_iff_eq, hlast]
    simp
  refine ⟨c :: q, qs.filter (fun q => !q.isEmpty), ?_, ?_⟩
  · unfold parts
    rw [hcut]
    simp
  · intro s
    rw [hends, matches_iff_joined, hcut]
    by_cases hqs : qs = []
    · subst hqs
      constructor
      · rintro rfl
        exact ⟨[], by simp, Or.inr rfl⟩
      · rintro ⟨b, rfl, h | rfl⟩
        · simp at h
        · simp [Joined]
    · rw [joined_cons hqs, List.getLast?_cons_of_ne_nil hqs]
      simp only [← exists_joined_iff hqs]
      constructor
      · rintro ⟨a, b, rfl, h⟩
        exact ⟨a ++ b, rfl, a, b, rfl, h⟩
      · rintro ⟨_, rfl, a, b, rfl, h⟩
        exact ⟨a, b, rfl, h⟩

end PurpleWolf.Wildcard
