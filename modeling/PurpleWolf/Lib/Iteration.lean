import Mathlib.Tactic

/-! # Iterators

An iterator is a state with a function `next` that yields an item, or nothing once it is through.
Nothing says that it ever is through: collecting the items and running a loop over them are
therefore relations (`Collects`, `ForEach`), which hold when the iterator comes to its end.

`Remaining next rest` says that `rest` names the items that are still to come.  It is enough
to look at one call of `next`, and then the iterator ends, with these items (`Remaining.collects_iff`,
`Remaining.forEach_iff`). -/

namespace PurpleWolf.Iteration

variable {σ α β : Type} {next : σ → Option α × σ}

/-- `collect`: the calls of `next`, up to the first that yields nothing, yield these items. -/
inductive Collects (next : σ → Option α × σ) : σ → List α → Prop
  | nil {s s' : σ} (h : next s = (none, s')) : Collects next s []
  | cons {s s' : σ} {x : α} {xs : List α} (h : next s = (some x, s')) (hrest : Collects next s' xs) :
      Collects next s (x :: xs)

/-- The loop `for x in s`, whose body takes one value to another. -/
inductive ForEach (next : σ → Option α × σ) (body : β → α → β) : σ → β → β → Prop
  | done {s s' : σ} {b : β} (h : next s = (none, s')) : ForEach next body s b b
  | again {s s' : σ} {x : α} {b b' : β} (h : next s = (some x, s')) (hrest : ForEach next body s' (body b x) b') :
      ForEach next body s b b'

/-- The items that a state has yet to yield. -/
def Remaining (next : σ → Option α × σ) (rest : σ → List α) : Prop :=
  ∀ s, (next s).1 = (rest s).head? ∧ ((rest s) ≠ [] → rest (next s).2 = (rest s).tail)

namespace Remaining

variable {rest : σ → List α} (h : Remaining next rest)

include h

theorem next_eq_none {s s' : σ} (hnext : next s = (none, s')) : rest s = [] := by
  have hhead := (h s).1
  rw [hnext] at hhead
  exact List.head?_eq_none_iff.mp hhead.symm

theorem next_eq_some {s s' : σ} {x : α} (hnext : next s = (some x, s')) : rest s = x :: rest s' := by
  obtain ⟨hhead, htail⟩ := h s
  rw [hnext] at hhead htail
  obtain ⟨xs, hxs⟩ := List.head?_eq_some_iff.mp hhead.symm
  rw [hxs] at htail ⊢
  rw [htail (List.cons_ne_nil x xs)]
  rfl

theorem next_of_nil {s : σ} (hs : rest s = []) : next s = (none, (next s).2) := by
  have hhead := (h s).1
  rw [hs] at hhead
  exact Prod.ext hhead rfl

theorem next_of_cons {s : σ} {x : α} {xs : List α} (hs : rest s = x :: xs) :
    next s = (some x, (next s).2) ∧ rest (next s).2 = xs := by
  obtain ⟨hhead, htail⟩ := h s
  rw [hs] at hhead htail
  exact ⟨Prod.ext hhead rfl, htail (List.cons_ne_nil x xs)⟩

/-- The iterator comes to its end, and yields what remained. -/
theorem collects_iff {s : σ} {xs : List α} : Collects next s xs ↔ xs = rest s := by
  constructor
  · intro hcollects
    induction hcollects with
    | nil hnext => exact (h.next_eq_none hnext).symm
    | cons hnext _ ih => rw [h.next_eq_some hnext, ih]
  · rintro rfl
    induction hs : rest s generalizing s with
    | nil => exact .nil (h.next_of_nil hs)
    | cons x xs ih =>
        obtain ⟨hnext, hrest⟩ := h.next_of_cons hs
        exact .cons hnext (ih hrest)

/-- A loop over the iterator is a loop over what remained. -/
theorem forEach_iff {body : β → α → β} {s : σ} {b b' : β} : ForEach next body s b b' ↔ b' = (rest s).foldl body b := by
  constructor
  · intro hloop
    induction hloop with
    | done hnext => rw [h.next_eq_none hnext, List.foldl_nil]
    | again hnext _ ih => rw [h.next_eq_some hnext, List.foldl_cons, ih]
  · rintro rfl
    induction hs : rest s generalizing s b with
    | nil => exact .done (h.next_of_nil hs)
    | cons x xs ih =>
        obtain ⟨hnext, hrest⟩ := h.next_of_cons hs
        exact .again hnext (ih hrest)

end Remaining

end PurpleWolf.Iteration
