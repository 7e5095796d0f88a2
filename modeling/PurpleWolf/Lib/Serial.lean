import Mathlib.Tactic

/-! # The log of a worker

A worker takes up jobs one after the other and tries each of them some number of times.
Its log has an entry for every try, with the job and the number of the try.

* **`Serial`.**  The log is the tries of the first job, then those of the second, and so on:
  no try of one job stands between the tries of another.
* **`Holding`.**  The same, with a further job that is being tried.

Both grow with the log: a job is taken up (`Serial.take`), tried again (`Holding.again`) and
laid aside (`Holding.settle`). -/

namespace PurpleWolf

variable {ι : Type}

/-- The entries of a job that is tried `k` times. -/
def tries (x : ι) (k : ℕ) : List (ι × ℕ) := (List.range' 1 k).map fun n => (x, n)

theorem tries_succ (x : ι) (k : ℕ) : tries x (k + 1) = tries x k ++ [(x, k + 1)] := by
  unfold tries
  rw [List.range'_concat, List.map_append, List.map_singleton, one_mul, Nat.add_comm]

/-- **The worker has tried these jobs**, in this order, each at least once. -/
inductive Serial : List ι → List (ι × ℕ) → Prop
  | nil : Serial [] []
  | settle {jobs : List ι} {log : List (ι × ℕ)} (x : ι) (k : ℕ) :
      Serial jobs log → 0 < k → Serial (jobs ++ [x]) (log ++ tries x k)

/-- **The worker has tried these jobs** and has tried `x`, which it has in hand, `k` times. -/
def Holding (jobs : List ι) (x : ι) (k : ℕ) (log : List (ι × ℕ)) : Prop :=
  0 < k ∧ ∃ before, Serial jobs before ∧ log = before ++ tries x k

variable {jobs : List ι} {x : ι} {k : ℕ} {log : List (ι × ℕ)}

theorem Serial.take (h : Serial jobs log) (x : ι) : Holding jobs x 1 (log ++ [(x, 1)]) :=
  ⟨Nat.one_pos, log, h, rfl⟩

theorem Holding.again (h : Holding jobs x k log) : Holding jobs x (k + 1) (log ++ [(x, k + 1)]) := by
  obtain ⟨-, before, hbefore, rfl⟩ := h
  refine ⟨Nat.succ_pos k, before, hbefore, ?_⟩
  rw [tries_succ, List.append_assoc]

theorem Holding.settle (h : Holding jobs x k log) : Serial (jobs ++ [x]) log := by
  obtain ⟨hk, before, hbefore, rfl⟩ := h
  exact hbefore.settle x k hk

/-! ### Bookkeeping -/

theorem perm_concat_left {m a b : List ι} (h : m.Perm (a ++ b)) (x : ι) : (m ++ [x]).Perm (a ++ [x] ++ b) := by
  apply (h.append_right [x]).trans
  rw [List.append_assoc, List.append_assoc]
  exact List.perm_append_comm.append_left a

end PurpleWolf
