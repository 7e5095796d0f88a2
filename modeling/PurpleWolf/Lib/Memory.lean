import Mathlib.Data.List.TakeWhile
import Mathlib.Tactic

/-! # Reading memory by index

Code that is handed a pointer and a length reads by index, and nothing stops it at the end.
Here a read outside of the memory, and a difference of sizes that would wrap, is `none`; a
program over these reads that returns something has stayed inside.

* **Loops.**  `scan` is the loop that walks on until a test succeeds: where it stops, and
  what it has found there.
* **Searches.**  `memchr` is the C function on the rest of the memory, `span` counts the
  elements of a kind there, and `memmem` looks for a block in a slice. -/

namespace PurpleWolf.Memory

variable {α : Type}

/-- `a - b` on sizes. -/
def sizeSub (a b : ℕ) : Option ℕ := if b ≤ a then some (a - b) else none

theorem sizeSub_of_le {a b : ℕ} (h : b ≤ a) : sizeSub a b = some (a - b) := if_pos h

/-- The bytes from `start` on, `n` of them. -/
def slice (s : List α) (start n : ℕ) : Option (List α) :=
  if start + n ≤ s.length then some ((s.drop start).take n) else none

theorem slice_of_le {s : List α} {start n : ℕ} (h : start + n ≤ s.length) :
    slice s start n = some ((s.drop start).take n) := if_pos h

theorem slice_append (u v w : List α) : slice (u ++ (v ++ w)) u.length v.length = some v := by
  rw [slice_of_le (by simp only [List.length_append]; omega), List.drop_left, List.take_left]

/-! ### Walking on -/

/-- The loop of `scan`, on the elements that are left; `i` is the position of the first. -/
def scanFrom (stop : α → Bool) : ℕ → List α → Option (ℕ × α)
  | _, [] => none
  | i, x :: xs => if stop x then some (i, x) else scanFrom stop (i + 1) xs

/-- The first position from `pos` on where the test succeeds, and what is there. -/
def scan (stop : α → Bool) (s : List α) (pos : ℕ) : Option (ℕ × α) := scanFrom stop pos (s.drop pos)

variable {stop : α → Bool}

theorem scanFrom_skip : ∀ {w : List α} (i : ℕ) (t : List α), (∀ y ∈ w, stop y = false) →
    scanFrom stop i (w ++ t) = scanFrom stop (i + w.length) t
  | [], i, t, _ => rfl
  | y :: w, i, t, hw => by
      have hy : stop y = false := hw y List.mem_cons_self
      rw [List.cons_append, scanFrom, if_neg (by rw [hy]; decide),
        scanFrom_skip (i + 1) t (fun z hz => hw z (List.mem_cons_of_mem _ hz)), List.length_cons]
      congr 1
      omega

theorem scanFrom_eq_none {i : ℕ} {s : List α} : scanFrom stop i s = none ↔ ∀ y ∈ s, stop y = false := by
  induction s generalizing i with
  | nil => simp [scanFrom]
  | cons x s ih =>
      unfold scanFrom
      cases hx : stop x with
      | true => simp [hx]
      | false => simp [hx, ih]

theorem scanFrom_eq_some {i j : ℕ} {s : List α} {x : α} (h : scanFrom stop i s = some (j, x)) :
    ∃ w t, s = w ++ x :: t ∧ j = i + w.length ∧ stop x = true ∧ ∀ y ∈ w, stop y = false := by
  induction s generalizing i with
  | nil => cases h
  | cons y s ih =>
      unfold scanFrom at h
      cases hy : stop y with
      | true =>
          rw [hy, if_pos rfl] at h
          obtain ⟨rfl, rfl⟩ := Prod.mk.inj (Option.some.inj h)
          exact ⟨[], s, rfl, rfl, hy, fun z hz => absurd hz List.not_mem_nil⟩
      | false =>
          rw [hy, if_neg (by decide)] at h
          obtain ⟨w, t, rfl, rfl, hx, hw⟩ := ih h
          refine ⟨y :: w, t, rfl, by rw [List.length_cons]; omega, hx, fun z hz => ?_⟩
          rcases List.mem_cons.mp hz with rfl | hz
          · exact hy
          · exact hw z hz

theorem scan_append {u w : List α} {x : α} (t : List α) (hw : ∀ y ∈ w, stop y = false) (hx : stop x = true) :
    scan stop (u ++ (w ++ x :: t)) u.length = some (u.length + w.length, x) := by
  unfold scan
  rw [List.drop_left, scanFrom_skip u.length _ hw]
  exact if_pos hx

theorem scan_rest {u w : List α} (hw : ∀ y ∈ w, stop y = false) : scan stop (u ++ w) u.length = none := by
  unfold scan
  rw [List.drop_left]
  exact scanFrom_eq_none.mpr hw

theorem scan_eq_some {s : List α} {pos j : ℕ} {x : α} (h : scan stop s pos = some (j, x)) :
    pos ≤ j ∧ j < s.length ∧ s[j]? = some x ∧ stop x = true ∧ s.drop j = x :: s.drop (j + 1) := by
  obtain ⟨w, t, hs, rfl, hx, -⟩ := scanFrom_eq_some h
  have hdrop : s.drop (pos + w.length) = x :: t := by
    rw [← List.drop_drop, hs, List.drop_left]
  have hlt : pos + w.length < s.length := by
    have hlen := congrArg List.length hdrop
    rw [List.length_drop, List.length_cons] at hlen
    omega
  have hget : s[pos + w.length]? = some x := by
    rw [← Nat.add_zero (pos + w.length), ← List.getElem?_drop, hdrop]
    rfl
  refine ⟨by omega, hlt, hget, hx, ?_⟩
  rw [hdrop, ← List.drop_drop, hdrop]
  rfl

theorem scan_eq_none {s : List α} {pos : ℕ} : scan stop s pos = none ↔ ∀ y ∈ s.drop pos, stop y = false :=
  scanFrom_eq_none

/-! ### Searching -/

variable [DecidableEq α]

/-- `memchr(s + pos, c, len - pos)`: the position of the first `c`. -/
def memchr (s : List α) (pos : ℕ) (c : α) : Option (Option ℕ) :=
  if pos ≤ s.length then some ((scan (fun x => decide (x = c)) s pos).map Prod.fst) else none

theorem memchr_append {u w : List α} {c : α} (t : List α) (hw : c ∉ w) :
    memchr (u ++ (w ++ c :: t)) u.length c = some (some (u.length + w.length)) := by
  unfold memchr
  rw [if_pos (by rw [List.length_append]; omega), scan_append t (fun y hy => ?_) (decide_eq_true rfl)]
  · rfl
  · exact decide_eq_false (fun h => hw (h ▸ hy))

theorem memchr_rest {u w : List α} {c : α} (hw : c ∉ w) : memchr (u ++ w) u.length c = some none := by
  have hnone : scan (fun x => decide (x = c)) (u ++ w) u.length = none :=
    scan_rest fun y hy => decide_eq_false fun h => hw (h ▸ hy)
  unfold memchr
  rw [if_pos (by rw [List.length_append]; omega), hnone]
  rfl

theorem memchr_of_le {s : List α} {pos : ℕ} (c : α) (h : pos ≤ s.length) : ∃ r, memchr s pos c = some r :=
  ⟨_, if_pos h⟩

theorem memchr_eq_some {s : List α} {pos i : ℕ} {c : α} (h : memchr s pos c = some (some i)) :
    pos ≤ i ∧ i < s.length ∧ s[i]? = some c := by
  unfold memchr at h
  split_ifs at h
  obtain ⟨⟨j, x⟩, hscan, rfl⟩ := Option.map_eq_some_iff.mp (Option.some.inj h)
  obtain ⟨hle, hlt, hget, hx, -⟩ := scan_eq_some hscan
  exact ⟨hle, hlt, by rw [hget, of_decide_eq_true hx]⟩

theorem memchr_eq_none {s : List α} {pos : ℕ} {c : α} (h : memchr s pos c = some none) : c ∉ s.drop pos := by
  unfold memchr at h
  split_ifs at h
  have hnone := scan_eq_none.mp (Option.map_eq_none_iff.mp (Option.some.inj h))
  exact fun hc => absurd (hnone c hc) (by rw [decide_eq_true rfl]; decide)

/-! ### Counting -/

/-- How many elements from `pos` on pass the test. -/
def span (accept : α → Bool) (s : List α) (pos : ℕ) : Option ℕ :=
  if pos ≤ s.length then some ((s.drop pos).takeWhile accept).length else none

variable {accept : α → Bool}

omit [DecidableEq α] in
theorem span_of_le {s : List α} {pos : ℕ} (h : pos ≤ s.length) :
    span accept s pos = some ((s.drop pos).takeWhile accept).length := if_pos h

omit [DecidableEq α] in
theorem exists_span (accept : α → Bool) {s : List α} {pos : ℕ} (h : pos ≤ s.length) :
    ∃ n, span accept s pos = some n ∧ pos + n ≤ s.length := by
  refine ⟨_, span_of_le h, ?_⟩
  have hle := (List.takeWhile_sublist accept (l := s.drop pos)).length_le
  rw [List.length_drop] at hle
  omega

omit [DecidableEq α] in
theorem exists_span_pos {s : List α} {pos : ℕ} {x : α} (hget : s[pos]? = some x) (hx : accept x = true) :
    ∃ n, span accept s pos = some n ∧ 0 < n ∧ pos + n ≤ s.length := by
  obtain ⟨hlt, rfl⟩ := List.getElem?_eq_some_iff.mp hget
  obtain ⟨n, hn, hle⟩ := exists_span accept hlt.le
  refine ⟨n, hn, ?_, hle⟩
  rw [span_of_le hlt.le, List.drop_eq_getElem_cons hlt, List.takeWhile_cons_of_pos hx] at hn
  exact Option.some.inj hn ▸ Nat.succ_pos _

omit [DecidableEq α] in
/-- What is counted is a block of elements that pass, in front of one that does not, or of the end. -/
theorem span_append {u w rest : List α} (hw : ∀ y ∈ w, accept y = true) (hrest : ∀ y ∈ rest.head?, accept y = false) :
    span accept (u ++ (w ++ rest)) u.length = some w.length := by
  have htake : rest.takeWhile accept = [] := by
    cases rest with
    | nil => rfl
    | cons y rest => exact List.takeWhile_cons_of_neg (by rw [hrest y rfl]; decide)
  rw [span_of_le (by rw [List.length_append]; omega), List.drop_left, List.takeWhile_append_of_pos hw, htake,
    List.append_nil]

/-! ### Blocks -/

/-- The first position from `i` on where the block starts. -/
def blockFrom (needle : List α) : ℕ → List α → Option ℕ
  | _, [] => none
  | i, x :: xs => if needle.isPrefixOf (x :: xs) then some i else blockFrom needle (i + 1) xs

/-- `memmem(s + pos, n, needle, needle_len)`: where the block starts first. -/
def memmem (s : List α) (pos n : ℕ) (needle : List α) : Option (Option ℕ) :=
  (slice s pos n).map (blockFrom needle pos)

theorem blockFrom_eq_some {needle s : List α} {i j : ℕ} (h : blockFrom needle i s = some j) :
    i ≤ j ∧ j + needle.length ≤ i + s.length ∧ needle <+: s.drop (j - i) := by
  induction s generalizing i with
  | nil => cases h
  | cons x s ih =>
      unfold blockFrom at h
      split_ifs at h with hx
      · cases h
        have hprefix := List.isPrefixOf_iff_prefix.mp hx
        refine ⟨le_rfl, by have := hprefix.length_le; omega, ?_⟩
        rw [Nat.sub_self]
        exact hprefix
      · obtain ⟨hle, hlen, hprefix⟩ := ih h
        refine ⟨by omega, by rw [List.length_cons]; omega, ?_⟩
        rw [show j - i = j - (i + 1) + 1 by omega]
        exact hprefix

theorem memmem_of_le {s : List α} {pos n : ℕ} (needle : List α) (h : pos + n ≤ s.length) :
    ∃ r, memmem s pos n needle = some r ∧ ∀ i, r = some i → pos ≤ i ∧ i + needle.length ≤ pos + n := by
  refine ⟨_, by unfold memmem; rw [slice_of_le h]; rfl, fun i hi => ?_⟩
  obtain ⟨hle, hlen, -⟩ := blockFrom_eq_some hi
  rw [List.length_take, List.length_drop] at hlen
  omega

end PurpleWolf.Memory
