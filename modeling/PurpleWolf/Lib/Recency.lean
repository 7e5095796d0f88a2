import Mathlib.Data.List.DropRight
import Mathlib.Tactic

/-! # Keys in the order in which they were touched

A history is the list of the keys that were touched, one after the other.  `since k hist` are the
touches after the last one of `k`, and a list of keys is `Ordered` if every key in it was touched
after those before it.  Such a list is what a least-recently-used policy keeps: its head can make
room for a new key only after as many other keys were touched as the list is long
(`Ordered.length_le_card`). -/

namespace PurpleWolf.Recency

variable {κ : Type} [DecidableEq κ] {k : κ} {keys hist : List κ}

/-- The touches since the last touch of `k`. -/
def since (k : κ) (hist : List κ) : List κ := hist.rtakeWhile (fun k' => k' ≠ k)

theorem since_touch_of_ne {k' : κ} (h : k' ≠ k) (hist : List κ) : since k (hist ++ [k']) = since k hist ++ [k'] :=
  List.rtakeWhile_concat_pos _ _ _ (by simpa using h)

/-- Every key was touched after the keys before it. -/
def Ordered (keys hist : List κ) : Prop := keys.Pairwise (fun k k' => k' ∈ since k hist)

namespace Ordered

theorem sublist {keys' : List κ} (h : Ordered keys hist) (hsub : keys'.Sublist keys) : Ordered keys' hist :=
  List.Pairwise.sublist hsub h

theorem concat (h : Ordered keys hist) (hk : k ∉ keys) : Ordered (keys ++ [k]) (hist ++ [k]) := by
  have hother : ∀ k' ∈ keys, k ≠ k' := by
    rintro k' hk' rfl
    exact hk hk'
  unfold Ordered
  rw [List.pairwise_append]
  refine ⟨?_, List.pairwise_singleton _ k, ?_⟩
  · apply h.imp_of_mem
    intro a b ha _ hab
    rw [since_touch_of_ne (hother a ha)]
    exact List.mem_append_left _ hab
  · intro a ha b hb
    rw [List.mem_singleton.mp hb, since_touch_of_ne (hother a ha)]
    exact List.mem_append_right _ List.mem_cons_self

/-- **The head gives way late**: when a key that is not in the list is touched, as many
different keys as the list is long have been touched since its head was. -/
theorem length_le_card {head new : κ} (h : Ordered (head :: keys) hist) (hnodup : (head :: keys).Nodup)
    (hnew : new ∉ head :: keys) : (head :: keys).length ≤ (since head (hist ++ [new])).toFinset.card := by
  have hne : new ≠ head := List.ne_of_not_mem_cons hnew
  have hsub : (new :: keys).toFinset ⊆ (since head (hist ++ [new])).toFinset := by
    intro k hk
    rw [List.mem_toFinset] at hk ⊢
    rw [since_touch_of_ne hne]
    obtain rfl | hk := List.mem_cons.mp hk
    · exact List.mem_append_right _ List.mem_cons_self
    · exact List.mem_append_left _ (List.rel_of_pairwise_cons h hk)
  have hdistinct : (new :: keys).Nodup :=
    List.nodup_cons.mpr ⟨List.not_mem_of_not_mem_cons hnew, (List.nodup_cons.mp hnodup).2⟩
  calc (head :: keys).length = (new :: keys).toFinset.card := by
        rw [List.toFinset_card_of_nodup hdistinct]
        rfl
    _ ≤ (since head (hist ++ [new])).toFinset.card := Finset.card_le_card hsub

end Ordered

end PurpleWolf.Recency
