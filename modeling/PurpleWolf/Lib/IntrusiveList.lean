import Mathlib.Tactic

/-! # Doubly linked lists threaded through link functions

An intrusive list lives inside some other storage: every address `a : α` carries a
forward link `next a` and a backward link `prev a`, two further registers hold the `head`
and the `tail`, and one address `nil` is reserved as the terminator.  `Links` collects the
four components, `Links.unlink` and `Links.pushFront` are the two pointer surgeries every
such list is built from.

`Linked nil L order` says that `L` threads exactly the addresses of `order`, in that
order.  It is stated by splittings: whenever `order = xs ++ a :: ys`, the backward link of
`a` is the last element of `xs` and its forward link is the first element of `ys`.
`Linked.unlink` and `Linked.pushFront` give the effect of the two surgeries on `order`;
`Linked.walk_eq` recovers `order` by following the forward links. -/

namespace PurpleWolf.IntrusiveList

variable {α : Type}

/-- The links of a doubly linked list: one forward and one backward link for every
address, and the two end registers. -/
structure Links (α : Type) where
  next : α → α
  prev : α → α
  head : α
  tail : α

/-- `L` threads exactly the addresses of `order`, in that order. -/
structure Linked (nil : α) (L : Links α) (order : List α) : Prop where
  nodup : order.Nodup
  nil_notMem : nil ∉ order
  head_eq : L.head = order.head?.getD nil
  tail_eq : L.tail = order.getLast?.getD nil
  prev_eq : ∀ xs a ys, order = xs ++ a :: ys → L.prev a = xs.getLast?.getD nil
  next_eq : ∀ xs a ys, order = xs ++ a :: ys → L.next a = ys.head?.getD nil

namespace Linked

variable {nil : α} {L L' : Links α} {order xs ys : List α} {a b : α}

/-! ### End registers -/

theorem getLast?_getD_mem (h : xs.getLast?.getD nil ≠ nil) : xs.getLast?.getD nil ∈ xs := by
  cases hl : xs.getLast? with
  | none => simp [hl] at h
  | some c => simpa using List.mem_of_getLast? hl

theorem head?_getD_mem (h : xs.head?.getD nil ≠ nil) : xs.head?.getD nil ∈ xs := by
  cases hl : xs.head? with
  | none => simp [hl] at h
  | some c => simpa using List.mem_of_head? hl

theorem empty (hh : L.head = nil) (ht : L.tail = nil) : Linked nil L [] where
  nodup := List.nodup_nil
  nil_notMem := List.not_mem_nil
  head_eq := by simpa using hh
  tail_eq := by simpa using ht
  prev_eq xs a ys h := by simp at h
  next_eq xs a ys h := by simp at h

theorem tail_eq_nil_iff (h : Linked nil L order) : L.tail = nil ↔ order = [] := by
  rw [h.tail_eq]
  rcases List.eq_nil_or_concat order with rfl | ⟨cs, c, rfl⟩
  · simp
  · have : nil ≠ c := fun e => h.nil_notMem (e ▸ by simp)
    simpa using this.symm

/-- Splitting `xs ++ ys` at `b`: either `b` lies in `ys` or in `xs`. -/
theorem split_append {us vs : List α} (hs : xs ++ ys = us ++ b :: vs) :
    (∃ ws, us = xs ++ ws ∧ ys = ws ++ b :: vs) ∨ (∃ ws, xs = us ++ b :: ws ∧ vs = ws ++ ys) := by
  rcases List.append_eq_append_iff.mp hs with ⟨ws, h1, h2⟩ | ⟨ws, h1, h2⟩
  · exact Or.inl ⟨ws, h1, h2⟩
  · cases ws with
    | nil => exact Or.inl ⟨[], by simpa using h1.symm, by simpa using h2.symm⟩
    | cons c ws =>
        obtain ⟨rfl, h3⟩ := List.cons.inj h2
        exact Or.inr ⟨ws, h1, h3⟩

/-- On the addresses of the list the backward link inverts the forward one. -/
theorem prev_next (h : Linked nil L order) (ha : a ∈ order) (hne : L.next a ≠ nil) :
    L.prev (L.next a) = a := by
  obtain ⟨xs, ys, rfl⟩ := List.append_of_mem ha
  have hn : L.next a = ys.head?.getD nil := h.next_eq xs a ys rfl
  cases ys with
  | nil => simp [hn] at hne
  | cons b ys =>
      have hb : L.next a = b := by simp [hn]
      rw [hb, h.prev_eq (xs ++ [a]) b ys (by simp)]
      simp

theorem next_prev (h : Linked nil L order) (ha : a ∈ order) (hne : L.prev a ≠ nil) :
    L.next (L.prev a) = a := by
  obtain ⟨xs, ys, rfl⟩ := List.append_of_mem ha
  have hp : L.prev a = xs.getLast?.getD nil := h.prev_eq xs a ys rfl
  rcases List.eq_nil_or_concat xs with rfl | ⟨cs, c, rfl⟩
  · simp [hp] at hne
  · have hc : L.prev a = c := by simp [hp]
    rw [hc, h.next_eq cs c (a :: ys) (by simp)]
    simp

end Linked

/-! ### Pointer surgery -/

variable [DecidableEq α]

namespace Links

variable (L : Links α) (nil a : α)

/-- Take `a` out: its neighbours (or the end registers) are linked to each other.  The
links of `a` itself are left dangling. -/
def unlink : Links α where
  next := if L.prev a = nil then L.next else Function.update L.next (L.prev a) (L.next a)
  head := if L.prev a = nil then L.next a else L.head
  prev := if L.next a = nil then L.prev else Function.update L.prev (L.next a) (L.prev a)
  tail := if L.next a = nil then L.prev a else L.tail

/-- Put `a` in front of the current head. -/
def pushFront : Links α where
  next := Function.update L.next a L.head
  prev :=
    if L.head = nil then Function.update L.prev a nil
    else Function.update (Function.update L.prev a nil) L.head a
  head := a
  tail := if L.tail = nil then a else L.tail

/-- The addresses met by following the forward links from `a`, at most `fuel` of them. -/
def walk : ℕ → α → List α
  | 0, _ => []
  | fuel + 1, a => if a = nil then [] else a :: walk fuel (L.next a)

end Links

namespace Linked

variable {nil : α} {L L' : Links α} {order xs ys : List α} {a b : α}

/-! ### Unlinking -/

theorem unlink (h : Linked nil L (xs ++ a :: ys)) : Linked nil (L.unlink nil a) (xs ++ ys) := by
  have hp : L.prev a = xs.getLast?.getD nil := h.prev_eq xs a ys rfl
  have hn : L.next a = ys.head?.getD nil := h.next_eq xs a ys rfl
  have hnd := h.nodup
  rw [List.nodup_append] at hnd
  obtain ⟨hxs, hays, hdis⟩ := hnd
  obtain ⟨hays, hys⟩ := List.nodup_cons.mp hays
  have hnil : nil ∉ xs ++ ys := fun hm => h.nil_notMem (by
    rcases List.mem_append.mp hm with hm | hm <;> simp [hm])
  have hxy : ∀ b ∈ xs, ∀ c ∈ ys, b ≠ c := fun b hb c hc => hdis b hb c (List.mem_cons_of_mem _ hc)
  have hpx : L.prev a ≠ nil → L.prev a ∈ xs := by rw [hp]; exact getLast?_getD_mem
  have hny : L.next a ≠ nil → L.next a ∈ ys := by rw [hn]; exact head?_getD_mem
  refine ⟨?_, hnil, ?_, ?_, ?_, ?_⟩
  · exact List.nodup_append.mpr ⟨hxs, hys, hxy⟩
  · have hh := h.head_eq
    simp only [Links.unlink, hp, hn, hh]
    cases xs with
    | nil => simp
    | cons c cs =>
        rw [if_neg]
        · simp
        · intro e
          exact hnil (e ▸ List.mem_append_left _ (by
            rw [List.getLast?_eq_getLast_of_ne_nil (by simp)]; exact List.getLast_mem _))
  · have ht := h.tail_eq
    simp only [Links.unlink, hp, hn, ht]
    cases ys with
    | nil => simp
    | cons c cs =>
        have hc : c ≠ nil := fun e => hnil (by simp [e])
        simp [hc, List.getLast?_append, List.getLast?_cons]
  · intro us b vs hs
    simp only [Links.unlink]
    rcases split_append hs with ⟨ws, rfl, rfl⟩ | ⟨ws, rfl, rfl⟩
    · have hb : L.prev b = (xs ++ a :: ws).getLast?.getD nil :=
        h.prev_eq _ b vs (by simp)
      have hbnil : b ≠ nil := fun e => hnil (by simp [e])
      cases ws with
      | nil =>
          have hnb : L.next a = b := by rw [hn]; simp
          rw [if_neg (by rw [hnb]; exact hbnil), hnb, Function.update_self, hp]
          simp
      | cons c cs =>
          have hnc : L.next a = c := by rw [hn]; simp
          have hbc : b ≠ c := fun e => (List.nodup_cons.mp hys).1 (by simp [e])
          have hcnil : c ≠ nil := fun e => hnil (by simp [e])
          rw [if_neg (by rw [hnc]; exact hcnil), hnc, Function.update_of_ne hbc, hb]
          simp [List.getLast?_append, List.getLast?_cons]
    · have hb : L.prev b = us.getLast?.getD nil := h.prev_eq us b (ws ++ a :: ys) (by simp)
      split_ifs with hc
      · exact hb
      · rw [Function.update_of_ne, hb]
        exact hxy b (by simp) _ (hny hc)
  · intro us b vs hs
    simp only [Links.unlink]
    rcases split_append hs with ⟨ws, rfl, rfl⟩ | ⟨ws, rfl, rfl⟩
    · have hb : L.next b = vs.head?.getD nil := h.next_eq (xs ++ a :: ws) b vs (by simp)
      split_ifs with hc
      · exact hb
      · rw [Function.update_of_ne, hb]
        exact (hxy _ (hpx hc) b (by simp)).symm
    · have hb : L.next b = (ws ++ a :: ys).head?.getD nil := h.next_eq us b _ (by simp)
      have hbnil : b ≠ nil := fun e => hnil (by simp [e])
      rcases List.eq_nil_or_concat ws with rfl | ⟨cs, c, rfl⟩
      · have hpb : L.prev a = b := by rw [hp]; simp
        rw [if_neg (by rw [hpb]; exact hbnil), hpb, Function.update_self, hn]
        simp
      · have hpc : L.prev a = c := by rw [hp]; simp [List.getLast?_cons]
        have hbc : b ≠ c := by
          rintro rfl
          have := (List.nodup_append.mp hxs).2.1
          exact (List.nodup_cons.mp this).1 (by simp)
        have hcnil : c ≠ nil := fun e => hnil (by simp [e])
        rw [if_neg (by rw [hpc]; exact hcnil), hpc, Function.update_of_ne hbc, hb]
        cases cs <;> simp

/-! ### Pushing to the front -/

theorem pushFront (h : Linked nil L order) (ha : a ∉ order) (hnil : a ≠ nil) :
    Linked nil (L.pushFront nil a) (a :: order) := by
  have hhead : L.head ≠ nil → L.head ∈ order := by rw [h.head_eq]; exact head?_getD_mem
  refine ⟨List.nodup_cons.mpr ⟨ha, h.nodup⟩, ?_, ?_, ?_, ?_, ?_⟩
  · rw [List.mem_cons, not_or]
    exact ⟨hnil.symm, h.nil_notMem⟩
  · simp [Links.pushFront]
  · simp only [Links.pushFront, h.tail_eq_nil_iff]
    rw [h.tail_eq]
    split_ifs with he
    · simp [he]
    · rw [List.getLast?_cons, List.getLast?_eq_getLast_of_ne_nil he]
      simp
  · intro us b vs hs
    cases us with
    | nil =>
        obtain ⟨rfl, rfl⟩ := List.cons.inj hs
        simp only [Links.pushFront]
        split_ifs with hc
        · simp
        · rw [Function.update_of_ne, Function.update_self]
          · simp
          · rintro rfl
            exact ha (hhead hc)
    | cons c us =>
        obtain ⟨rfl, ho⟩ := List.cons.inj hs
        have hba : b ≠ a := fun e => ha (by simp [ho, e])
        have hb := h.prev_eq us b vs ho
        simp only [Links.pushFront]
        cases us with
        | nil =>
            have hbh : L.head = b := by rw [h.head_eq, ho]; simp
            have hbnil : b ≠ nil := fun e => h.nil_notMem (by simp [ho, e])
            rw [if_neg (by rw [hbh]; exact hbnil), hbh, Function.update_self]
            simp
        | cons d ds =>
            have hbd : b ≠ L.head := by
              rw [h.head_eq, ho]
              rintro rfl
              have := h.nodup
              rw [ho] at this
              exact (List.nodup_cons.mp this).1 (by simp)
            split_ifs with hc
            · rw [Function.update_of_ne hba, hb]
              simp [List.getLast?_cons]
            · rw [Function.update_of_ne hbd, Function.update_of_ne hba, hb]
              simp [List.getLast?_cons]
  · intro us b vs hs
    cases us with
    | nil =>
        obtain ⟨rfl, rfl⟩ := List.cons.inj hs
        simp [Links.pushFront, h.head_eq]
    | cons c us =>
        obtain ⟨rfl, ho⟩ := List.cons.inj hs
        have hba : b ≠ a := fun e => ha (by simp [ho, e])
        simp only [Links.pushFront]
        rw [Function.update_of_ne hba, h.next_eq us b vs ho]

/-! ### Following the links -/

theorem walk_suffix (h : Linked nil L order) : ∀ (ys xs : List α) (fuel : ℕ), order = xs ++ ys →
    ys.length ≤ fuel → L.walk nil fuel (ys.head?.getD nil) = ys
  | [], _, 0, _, _ => rfl
  | [], _, fuel + 1, _, _ => by simp [Links.walk]
  | b :: ys, xs, fuel + 1, hs, hf => by
      have hbnil : b ≠ nil := fun e => h.nil_notMem (by simp [hs, e])
      have ih := h.walk_suffix ys (xs ++ [b]) fuel (by simp [hs]) (by simpa using hf)
      rw [← h.next_eq xs b ys hs] at ih
      simp [Links.walk, hbnil, ih]

/-- Following the forward links from the head visits every address once, in order. -/
theorem walk_eq (h : Linked nil L order) {fuel : ℕ} (hf : order.length ≤ fuel) :
    L.walk nil fuel L.head = order := by
  rw [h.head_eq]
  exact h.walk_suffix order [] fuel rfl hf

end Linked

end PurpleWolf.IntrusiveList
