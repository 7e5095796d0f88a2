import Mathlib.Tactic

/-! # Binary search

The search for the first element of a sorted table that is not less than a key, as it is
written over indices.

* **Answers.**  `exists_search` holds of any table: the search never reads outside of it, and
  ends between its bounds.
* **Finds.**  Where the elements that are less come first, everything in front of the index
  that is found is less, and the element there is not (`Found`). -/

namespace PurpleWolf.BinarySearch

variable {α : Type} (less : α → Bool) (xs : List α)

/-- The loop over `left` and `right`. -/
def search : ℕ → ℕ → ℕ → Option ℕ
  | 0, _, _ => none
  | fuel + 1, left, right =>
      if left < right then do
        let x ← xs[(left + right) / 2]?
        if less x then search fuel ((left + right) / 2 + 1) right else search fuel left ((left + right) / 2)
      else some left

variable {less xs}

theorem search_less {fuel left right : ℕ} {x : α} (hlt : left < right) (hget : xs[(left + right) / 2]? = some x)
    (hx : less x = true) :
    search less xs (fuel + 1) left right = search less xs fuel ((left + right) / 2 + 1) right := by
  conv_lhs => unfold search
  rw [if_pos hlt, hget]
  exact if_pos hx

theorem search_not_less {fuel left right : ℕ} {x : α} (hlt : left < right) (hget : xs[(left + right) / 2]? = some x)
    (hx : less x = false) :
    search less xs (fuel + 1) left right = search less xs fuel left ((left + right) / 2) := by
  conv_lhs => unfold search
  rw [if_pos hlt, hget]
  exact if_neg (by rw [hx]; decide)

theorem exists_search : ∀ (fuel left right : ℕ), left ≤ right → right < xs.length → right - left < fuel →
    ∃ k, search less xs fuel left right = some k ∧ left ≤ k ∧ k ≤ right
  | 0, _, _, _, _, hfuel => absurd hfuel (Nat.not_lt_zero _)
  | fuel + 1, left, right, hle, hin, hfuel => by
      rcases Nat.lt_or_eq_of_le hle with hlt | rfl
      · have hget : xs[(left + right) / 2]? = some xs[(left + right) / 2] := List.getElem?_eq_getElem (by omega)
        cases hx : less xs[(left + right) / 2] with
        | true =>
            rw [search_less hlt hget hx]
            obtain ⟨k, hk, hge, hle⟩ := exists_search fuel ((left + right) / 2 + 1) right (by omega) hin (by omega)
            exact ⟨k, hk, by omega, hle⟩
        | false =>
            rw [search_not_less hlt hget hx]
            obtain ⟨k, hk, hge, hle⟩ := exists_search fuel left ((left + right) / 2) (by omega) (by omega) (by omega)
            exact ⟨k, hk, hge, by omega⟩
      · exact ⟨left, if_neg (lt_irrefl left), le_rfl, le_rfl⟩

/-- What is known of the index `k` where a search between `left` and `right` ends. -/
structure Found (less : α → Bool) (xs : List α) (left right k : ℕ) : Prop where
  ge : left ≤ k
  le : k ≤ right
  below : ∀ i x, left ≤ i → i < k → xs[i]? = some x → less x = true
  atEnd : k < right → ∀ x, xs[k]? = some x → less x = false

/-- Where the lesser elements come first, the search finds the first that is not less. -/
theorem search_eq_some (hmono : xs.Pairwise fun x y => less y = true → less x = true) :
    ∀ {fuel left right k : ℕ}, left ≤ right → right < xs.length → search less xs fuel left right = some k →
      Found less xs left right k
  | 0, _, _, _, _, _, h => by cases h
  | fuel + 1, left, right, k, hle, hin, h => by
      rcases Nat.lt_or_eq_of_le hle with hlt | rfl
      · have hmid : (left + right) / 2 < xs.length := by omega
        have hget : xs[(left + right) / 2]? = some xs[(left + right) / 2] := List.getElem?_eq_getElem hmid
        cases hx : less xs[(left + right) / 2] with
        | true =>
            rw [search_less hlt hget hx] at h
            have found := search_eq_some hmono (by omega) hin h
            refine ⟨by have := found.ge; omega, found.le, fun i x _ hik hi => ?_, found.atEnd⟩
            obtain ⟨hilt, rfl⟩ := List.getElem?_eq_some_iff.mp hi
            rcases Nat.lt_trichotomy i ((left + right) / 2) with hlt' | rfl | hgt
            · exact List.pairwise_iff_getElem.mp hmono i _ hilt hmid hlt' hx
            · exact hx
            · exact found.below i _ hgt hik hi
        | false =>
            rw [search_not_less hlt hget hx] at h
            have found := search_eq_some hmono (by omega) (by omega) h
            refine ⟨found.ge, by have := found.le; omega, found.below, fun _ x hk => ?_⟩
            rcases Nat.lt_or_eq_of_le found.le with hlt' | rfl
            · exact found.atEnd hlt' x hk
            · rw [hget] at hk
              cases hk
              exact hx
      · rw [search, if_neg (lt_irrefl left)] at h
        cases h
        exact ⟨le_rfl, le_rfl, fun i x hge hik => absurd hge (by omega), fun hlt => absurd hlt (lt_irrefl _)⟩

end PurpleWolf.BinarySearch
