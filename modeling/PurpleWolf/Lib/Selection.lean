import Mathlib.Tactic

/-! # Selecting a maximum from a list

Two operations on vectors, for any elements and any linearly ordered key:

* **`firstMax`** is the index of the first element whose key is maximal, found by one pass
  that replaces its candidate only on a strictly larger key.
* **`swapRemove`** takes an element out by moving the last one into its place
  (`Vec::swap_remove`); `swapRemove_perm` says that nothing else is lost.

`Repeats` relates a list to one that says some of its elements again, which changes
neither the elements nor the first maximum. -/

namespace PurpleWolf.Selection

variable {α β : Type}

/-! ### The first maximum -/

section FirstMax

variable [LinearOrder β]

/-- The better of two candidates, the earlier one on a tie. -/
def better {ι : Type} (key : ι → β) (best i : ι) : ι := if key best < key i then i else best

/-- The index of the first element with maximal key. -/
def firstMax (key : α → β) (xs : List α) (h : 0 < xs.length) : Fin xs.length :=
  (List.finRange xs.length).tail.foldl (better (fun i : Fin xs.length => key xs[i])) ⟨0, h⟩

/-- `m` is the first maximum among the candidates of `seen`. -/
def IsFirstMax {ι : Type} [LinearOrder ι] (key : ι → β) (seen : List ι) (m : ι) : Prop :=
  m ∈ seen ∧ ∀ j ∈ seen, key j ≤ key m ∧ (j < m → key j < key m)

/-- One step: the candidates are visited in increasing order. -/
theorem IsFirstMax.better {ι : Type} [LinearOrder ι] {key : ι → β} {seen : List ι} {m i : ι}
    (h : IsFirstMax key seen m) (hi : ∀ j ∈ seen, j < i) : IsFirstMax key (seen ++ [i]) (better key m i) := by
  obtain ⟨hm, hmax⟩ := h
  unfold Selection.better
  split_ifs with hc
  · refine ⟨by simp, ?_⟩
    intro j hj
    rcases List.mem_append.mp hj with hj | hj
    · exact ⟨((hmax j hj).1.trans_lt hc).le, fun _ => (hmax j hj).1.trans_lt hc⟩
    · rw [List.mem_singleton.mp hj]
      exact ⟨le_rfl, fun h => absurd h (lt_irrefl i)⟩
  · refine ⟨by simp [hm], ?_⟩
    intro j hj
    rcases List.mem_append.mp hj with hj | hj
    · exact hmax j hj
    · rw [List.mem_singleton.mp hj]
      exact ⟨not_lt.mp hc, fun h => absurd (h.trans (hi m hm)) (lt_irrefl i)⟩

theorem IsFirstMax.foldl {ι : Type} [LinearOrder ι] {key : ι → β} :
    ∀ (is seen : List ι) (m : ι), IsFirstMax key seen m → (seen ++ is).Pairwise (· < ·) →
      IsFirstMax key (seen ++ is) (is.foldl (Selection.better key) m)
  | [], seen, m, h, _ => by simpa using h
  | i :: is, seen, m, h, hs => by
      have hi : ∀ j ∈ seen, j < i := by
        intro j hj
        exact (List.pairwise_append.mp hs).2.2 j hj i (by simp)
      have ih := IsFirstMax.foldl is (seen ++ [i]) _ (h.better hi) (by simpa using hs)
      simpa using ih

theorem isFirstMax_firstMax (key : α → β) (xs : List α) (h : 0 < xs.length) :
    IsFirstMax (fun i : Fin xs.length => key xs[i]) (List.finRange xs.length) (firstMax key xs h) := by
  have hcons : List.finRange xs.length = [⟨0, h⟩] ++ (List.finRange xs.length).tail := by
    obtain ⟨n, hn⟩ : ∃ n, xs.length = n + 1 := ⟨xs.length - 1, by omega⟩
    apply List.ext_getElem
    · simp; omega
    · intro i hi hi'
      cases i <;> simp
  have hsorted : (List.finRange xs.length).Pairwise (· < ·) := List.pairwise_lt_finRange _
  rw [hcons] at hsorted ⊢
  refine IsFirstMax.foldl _ [(⟨0, h⟩ : Fin xs.length)] ⟨0, h⟩ ⟨by simp, ?_⟩ hsorted
  intro j hj
  rw [List.mem_singleton.mp hj]
  exact ⟨le_rfl, fun h => absurd h (lt_irrefl _)⟩

theorem IsFirstMax.split {key : α → β} {xs : List α} {m : Fin xs.length}
    (h : IsFirstMax (fun i : Fin xs.length => key xs[i]) (List.finRange xs.length) m) :
    ∃ as bs, xs = as ++ xs[m] :: bs ∧ (∀ a ∈ as, key a < key xs[m]) ∧ ∀ b ∈ bs, key b ≤ key xs[m] := by
  refine ⟨xs.take m, xs.drop (m + 1), ?_, ?_, ?_⟩
  · have := List.take_append_drop m xs
    rw [List.drop_eq_getElem_cons m.isLt] at this
    exact this.symm
  · intro a ha
    obtain ⟨i, hi, rfl⟩ := List.mem_take_iff_getElem.mp ha
    have hi' : i < m.val := by omega
    exact (h.2 ⟨i, by omega⟩ (List.mem_finRange _)).2 hi'
  · intro b hb
    obtain ⟨i, hi, rfl⟩ := List.mem_drop_iff_getElem.mp hb
    exact (h.2 ⟨m + 1 + i, by omega⟩ (List.mem_finRange _)).1

/-- The element that is selected, and what stands around it. -/
def Wins (key : α → β) (xs : List α) (b : α) : Prop :=
  ∃ before after, xs = before ++ b :: after ∧ (∀ a ∈ before, key a < key b) ∧ ∀ a ∈ after, key a ≤ key b

theorem Wins.unique {key : α → β} {xs : List α} {b c : α} (hb : Wins key xs b) (hc : Wins key xs c) : b = c := by
  -- of two winners, the later one beats the earlier one and is beaten by it
  have hlater : ∀ {b c : α} {before after before' after' : List α}, (∀ a ∈ after, key a ≤ key b) →
      (∀ a ∈ before', key a < key c) → (∃ ws, before' = before ++ ws ∧ b :: after = ws ++ c :: after') →
        b = c := by
    rintro b c before after before' after' hafter hbefore ⟨ws, rfl, hws⟩
    cases ws with
    | nil => exact (List.cons.inj hws).1
    | cons w ws =>
        obtain ⟨rfl, rfl⟩ := List.cons.inj hws
        have hlt := hbefore b (by simp)
        have hle := hafter c (by simp)
        exact absurd hlt (not_lt.mpr hle)
  obtain ⟨before, after, rfl, hlt, hle⟩ := hb
  obtain ⟨before', after', heq, hlt', hle'⟩ := hc
  rcases List.append_eq_append_iff.mp heq with h | h
  · exact hlater hle hlt' h
  · exact (hlater hle' hlt h).symm

/-- What has been said does not win when it is said again. -/
theorem Wins.again {key : α → β} {xs ys : List α} {a b : α} (h : Wins key (xs ++ ys) b) (ha : a ∈ xs) :
    Wins key (xs ++ a :: ys) b := by
  obtain ⟨before, after, heq, hlt, hle⟩ := h
  rcases List.append_eq_append_iff.mp heq with ⟨ws, rfl, rfl⟩ | ⟨ws, rfl, hws⟩
  · refine ⟨xs ++ a :: ws, after, by simp, ?_, hle⟩
    intro c hc
    rw [List.mem_append, List.mem_cons] at hc
    rcases hc with hc | rfl | hc
    · exact hlt c (by simp [hc])
    · exact hlt c (by simp [ha])
    · exact hlt c (by simp [hc])
  · cases ws with
    | nil =>
        rw [List.append_nil] at ha ⊢
        rw [List.nil_append] at hws
        subst hws
        refine ⟨before ++ [a], after, by simp, ?_, hle⟩
        intro c hc
        rw [List.mem_append, List.mem_singleton] at hc
        rcases hc with hc | rfl
        · exact hlt c hc
        · exact hlt c ha
    | cons w ws =>
        obtain ⟨rfl, rfl⟩ := List.cons.inj hws
        refine ⟨before, ws ++ a :: ys, by simp, hlt, ?_⟩
        intro c hc
        rw [List.mem_append, List.mem_cons] at hc
        rcases hc with hc | rfl | hc
        · exact hle c (by simp [hc])
        · rw [List.mem_append, List.mem_cons] at ha
          rcases ha with ha | rfl | ha
          · exact (hlt c ha).le
          · exact le_rfl
          · exact hle c (by simp [ha])
        · exact hle c (by simp [hc])

end FirstMax

/-! ### Repetitions -/

/-- `ys` says some elements of `xs` again, each after its first occurrence. -/
inductive Repeats : List α → List α → Prop
  | refl (xs : List α) : Repeats xs xs
  | again {xs ys zs : List α} {a : α} : Repeats xs (ys ++ zs) → a ∈ ys → Repeats xs (ys ++ a :: zs)

namespace Repeats

theorem mem_iff {xs ys : List α} (h : Repeats xs ys) {b : α} : b ∈ ys ↔ b ∈ xs := by
  induction h with
  | refl => rfl
  | @again ys zs a _ ha ih =>
      rw [← ih]
      simp only [List.mem_append, List.mem_cons]
      constructor
      · rintro (hb | rfl | hb)
        · exact Or.inl hb
        · exact Or.inl ha
        · exact Or.inr hb
      · rintro (hb | hb)
        · exact Or.inl hb
        · exact Or.inr (Or.inr hb)

theorem map {γ : Type} (f : α → γ) {xs ys : List α} (h : Repeats xs ys) : Repeats (xs.map f) (ys.map f) := by
  induction h with
  | refl => exact refl _
  | again _ ha ih =>
      rw [List.map_append, List.map_cons]
      rw [List.map_append] at ih
      exact again ih (List.mem_map_of_mem ha)

theorem filter (p : α → Bool) {xs ys : List α} (h : Repeats xs ys) : Repeats (xs.filter p) (ys.filter p) := by
  induction h with
  | refl => exact refl _
  | @again ys zs a _ ha ih =>
      rw [List.filter_append] at ih ⊢
      by_cases hp : p a
      · rw [List.filter_cons_of_pos hp]
        exact again ih (List.mem_filter.mpr ⟨ha, hp⟩)
      · rw [List.filter_cons_of_neg hp]
        exact ih

theorem append (before after : List α) {xs ys : List α} (h : Repeats xs ys) :
    Repeats (before ++ xs ++ after) (before ++ ys ++ after) := by
  induction h with
  | refl => exact refl _
  | @again ys zs a _ ha ih =>
      have hplace : before ++ (ys ++ a :: zs) ++ after = before ++ ys ++ a :: (zs ++ after) := by simp
      rw [hplace]
      apply again
      · simpa using ih
      · exact List.mem_append_right _ ha

theorem wins [LinearOrder β] {key : α → β} {xs ys : List α} {b : α} (h : Repeats xs ys) (hb : Wins key xs b) :
    Wins key ys b := by
  induction h with
  | refl => exact hb
  | again _ ha ih => exact ih.again ha

end Repeats

/-! ### Removal by swapping -/

/-- The list without its `i`-th element, the last one taking its place. -/
def swapRemove (xs : List α) (i : Fin xs.length) : List α :=
  (xs.set i (xs.getLast (List.ne_nil_of_length_pos (Fin.pos i)))).dropLast

theorem swapRemove_perm (xs : List α) (i : Fin xs.length) : (xs[i] :: swapRemove xs i).Perm xs := by
  obtain ⟨ys, z, hz⟩ : ∃ ys z, xs = ys ++ [z] := by
    have hne := List.ne_nil_of_length_pos (Fin.pos i)
    exact ⟨xs.dropLast, xs.getLast hne, (List.dropLast_append_getLast hne).symm⟩
  subst hz
  obtain ⟨i, hi⟩ := i
  rw [List.length_append, List.length_singleton] at hi
  unfold swapRemove
  simp only [List.getLast_append_singleton, Fin.getElem_fin]
  by_cases hlast : i = ys.length
  · subst hlast
    simpa using (List.perm_append_singleton z ys).symm
  · have hi' : i < ys.length := by omega
    have hys : ys = ys.take i ++ ys[i] :: ys.drop (i + 1) := by
      rw [← List.drop_eq_getElem_cons hi', List.take_append_drop]
    rw [List.set_append_left _ _ hi', List.dropLast_concat, List.getElem_append_left hi',
      List.set_eq_take_append_cons_drop, if_pos hi']
    calc (ys[i] :: (ys.take i ++ z :: ys.drop (i + 1))).Perm
          (z :: (ys[i] :: (ys.take i ++ ys.drop (i + 1)))) :=
        (List.perm_middle.cons _).trans (List.Perm.swap _ _ _)
      List.Perm _ (z :: (ys.take i ++ ys[i] :: ys.drop (i + 1))) := List.perm_middle.symm.cons z
      List.Perm _ (ys ++ [z]) := by
        rw [← hys]
        exact (List.perm_append_singleton z ys).symm

end PurpleWolf.Selection
