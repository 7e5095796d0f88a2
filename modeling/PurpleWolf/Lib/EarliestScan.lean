import Mathlib.Tactic

/-! # Non-overlapping search for many patterns

The standard search of a multi-pattern matcher runs through a text once: it reports the
occurrence that ends earliest, resumes after its end, and so on.  `Scan` is this search as
a relation; `scan` computes it.

Reported occurrences hide others that overlap them.  An occurrence is `Visible` when no
visible occurrence ends strictly inside it, and `mem_iff_visible` says that the visible
occurrences are exactly the reported ones, provided no pattern is empty and none is a
suffix of another. -/

namespace PurpleWolf.EarliestScan

variable {α : Type}

/-- A pattern, with the positions its occurrence starts at and stops before. -/
structure Match (n : ℕ) where
  pattern : Fin n
  start : ℕ
  stop : ℕ
  deriving DecidableEq

/-- The pattern of `m` stands at its place in the text. -/
structure Occurs (pats : List (List α)) (text : List α) (m : Match pats.length) : Prop where
  stands : pats[m.pattern] <+: text.drop m.start
  stop_eq : m.stop = m.start + pats[m.pattern].length

/-- The search from position `start` on reports exactly `ms`. -/
inductive Scan (pats : List (List α)) (text : List α) : ℕ → List (Match pats.length) → Prop
  | finished {start : ℕ} : (∀ m, Occurs pats text m → m.start < start) → Scan pats text start []
  | found {start : ℕ} {m : Match pats.length} {ms : List (Match pats.length)} :
      Occurs pats text m → start ≤ m.start →
      (∀ m', Occurs pats text m' → start ≤ m'.start → m.stop ≤ m'.stop) →
      Scan pats text m.stop ms → Scan pats text start (m :: ms)

/-- `m'` ends strictly inside `m`. -/
def Cuts {n : ℕ} (m' m : Match n) : Prop := m.start < m'.stop ∧ m'.stop < m.stop

/-- An occurrence that no visible occurrence cuts. -/
def Visible (pats : List (List α)) (text : List α) (m : Match pats.length) : Prop :=
  Occurs pats text m ∧ ∀ m' : Match pats.length, m'.stop < m.stop → m.start < m'.stop → ¬ Visible pats text m'
termination_by m.stop

/-! ### Occurrences -/

section Occurrences

variable {pats : List (List α)} {text : List α} {m m' : Match pats.length}

theorem Occurs.start_lt (hne : ∀ p ∈ pats, p ≠ []) (h : Occurs pats text m) : m.start < m.stop := by
  have := List.length_pos_iff.mpr (hne pats[m.pattern] (List.getElem_mem _))
  have := h.stop_eq
  omega

theorem Occurs.stop_le (hne : ∀ p ∈ pats, p ≠ []) (h : Occurs pats text m) : m.stop ≤ text.length := by
  have := h.stands.length_le
  rw [List.length_drop] at this
  have := h.start_lt hne
  have := h.stop_eq
  omega

theorem Occurs.suffix_take (h : Occurs pats text m) : pats[m.pattern] <:+ text.take m.stop := by
  rw [h.stop_eq, List.take_add, ← List.prefix_iff_eq_take.mp h.stands]
  exact List.suffix_append _ _

theorem Occurs.eq_of_stop_eq (hsuf : ∀ i j : Fin pats.length, pats[i] <:+ pats[j] → i = j)
    (h : Occurs pats text m) (h' : Occurs pats text m') (hstop : m.stop = m'.stop) : m = m' := by
  have hs := h.suffix_take
  have hs' := h'.suffix_take
  rw [← hstop] at hs'
  have hpat : m.pattern = m'.pattern := by
    rcases List.suffix_or_suffix_of_suffix hs hs' with hc | hc
    · exact hsuf _ _ hc
    · exact (hsuf _ _ hc).symm
  have e := h.stop_eq
  have e' := h'.stop_eq
  obtain ⟨i, a, z⟩ := m
  obtain ⟨i', a', z'⟩ := m'
  subst hpat hstop
  simp only at e e'
  rw [Match.mk.injEq]
  exact ⟨rfl, by omega, rfl⟩

end Occurrences

/-! ### What the search reports -/

section Reported

variable {pats : List (List α)} {text : List α} {start : ℕ} {ms : List (Match pats.length)}

theorem Scan.sound (h : Scan pats text start ms) : ∀ m ∈ ms, Occurs pats text m ∧ start ≤ m.start := by
  induction h with
  | finished _ => simp
  | @found start m ms hm hstart _ _ ih =>
      intro m' hm'
      rcases List.mem_cons.mp hm' with rfl | hm'
      · exact ⟨hm, hstart⟩
      · have := hm.stop_eq
        obtain ⟨ho, hle⟩ := ih m' hm'
        exact ⟨ho, by omega⟩

theorem Scan.not_cuts (hne : ∀ p ∈ pats, p ≠ []) (h : Scan pats text start ms) :
    ∀ m ∈ ms, ∀ m' ∈ ms, ¬ Cuts m' m := by
  unfold Cuts
  induction h with
  | finished _ => simp
  | @found start m₀ ms hm₀ _ hfirst hrest ih =>
      intro m hm m' hm'
      have hlt := hm₀.start_lt hne
      rcases List.mem_cons.mp hm with rfl | hin <;> rcases List.mem_cons.mp hm' with rfl | hin'
      · omega
      · have := (hrest.sound m' hin').2
        have := (hrest.sound m' hin').1.start_lt hne
        omega
      · have := (hrest.sound m hin).2
        omega
      · exact ih m hin m' hin'

/-- An occurrence in the searched part is reported or cut by a reported one. -/
theorem Scan.complete (hsuf : ∀ i j : Fin pats.length, pats[i] <:+ pats[j] → i = j) (h : Scan pats text start ms) :
    ∀ m, Occurs pats text m → start ≤ m.start → m ∈ ms ∨ ∃ m' ∈ ms, Cuts m' m := by
  induction h with
  | finished hnone =>
      intro m hm hstart
      have := hnone m hm
      omega
  | @found start m₀ ms hm₀ hstart₀ hfirst hrest ih =>
      intro m hm hstart
      have hle := hfirst m hm hstart
      by_cases hc : m₀.stop ≤ m.start
      · rcases ih m hm hc with hin | ⟨m', hm', hcut⟩
        · exact Or.inl (List.mem_cons_of_mem _ hin)
        · exact Or.inr ⟨m', List.mem_cons_of_mem _ hm', hcut⟩
      · by_cases heq : m.stop = m₀.stop
        · rw [hm.eq_of_stop_eq hsuf hm₀ heq]
          exact Or.inl List.mem_cons_self
        · refine Or.inr ⟨m₀, List.mem_cons_self, ?_⟩
          unfold Cuts
          omega

/-- **The search reports the visible occurrences**, and only those. -/
theorem mem_iff_visible (hne : ∀ p ∈ pats, p ≠ [])
    (hsuf : ∀ i j : Fin pats.length, pats[i] <:+ pats[j] → i = j) (h : Scan pats text 0 ms)
    (m : Match pats.length) : m ∈ ms ↔ Visible pats text m := by
  induction hn : m.stop using Nat.strong_induction_on generalizing m with
  | _ n ih =>
      subst hn
      unfold Visible
      constructor
      · intro hm
        refine ⟨(h.sound m hm).1, ?_⟩
        intro m' hstop hstart hvis
        exact h.not_cuts hne m hm m' ((ih m'.stop hstop m' rfl).mpr hvis) ⟨hstart, hstop⟩
      · rintro ⟨hocc, hvis⟩
        rcases h.complete hsuf m hocc (Nat.zero_le _) with hin | ⟨m', hm', hstart, hstop⟩
        · exact hin
        · exact absurd ((ih m'.stop hstop m' rfl).mp hm') (hvis m' hstop hstart)

end Reported

/-! ### Computing the search -/

section Compute

variable [DecidableEq α] (pats : List (List α)) (text : List α)

/-- The pattern, if any, whose occurrence ends at `stop` without reaching before `start`. -/
def endingAt (start stop : ℕ) : Option (Match pats.length) :=
  ((List.finRange pats.length).find? fun i =>
    decide (pats[i].length ≤ stop - start ∧ pats[i].isSuffixOf (text.take stop))).map
      fun i => ⟨i, stop - pats[i].length, stop⟩

/-- The search from `start` on, when no occurrence in that part ends before `stop`. -/
def scanFrom : ℕ → ℕ → ℕ → List (Match pats.length)
  | 0, _, _ => []
  | fuel + 1, start, stop =>
      match endingAt pats text start stop with
      | some m => m :: scanFrom fuel stop (stop + 1)
      | none => scanFrom fuel start (stop + 1)

def scan : List (Match pats.length) := scanFrom pats text (text.length + 1) 0 0

variable {pats text}

theorem endingAt_some {start stop : ℕ} {m : Match pats.length} (hstart : start ≤ stop)
    (hstop : stop ≤ text.length) (h : endingAt pats text start stop = some m) :
    Occurs pats text m ∧ m.stop = stop ∧ start ≤ m.start := by
  unfold endingAt at h
  obtain ⟨i, hfind, rfl⟩ := Option.map_eq_some_iff.mp h
  have hi := List.find?_some hfind
  simp only [decide_eq_true_eq, List.isSuffixOf_iff_suffix] at hi
  obtain ⟨hlen, xs, hxs⟩ := hi
  have hxl : xs.length = stop - pats[i].length := by
    have := congrArg List.length hxs
    rw [List.length_append, List.length_take] at this
    omega
  refine ⟨⟨?_, ?_⟩, rfl, ?_⟩
  · refine ⟨text.drop stop, ?_⟩
    have htext : xs ++ (pats[i] ++ text.drop stop) = text := by
      rw [← List.append_assoc, hxs, List.take_append_drop]
    show pats[i] ++ text.drop stop = text.drop (stop - pats[i].length)
    rw [← hxl, ← htext, List.drop_left, htext]
  · show stop = stop - pats[i].length + pats[i].length
    omega
  · show start ≤ stop - pats[i].length
    omega

theorem endingAt_none {start stop : ℕ} {m : Match pats.length} (h : endingAt pats text start stop = none)
    (hm : Occurs pats text m) (hstart : start ≤ m.start) : m.stop ≠ stop := by
  rintro rfl
  unfold endingAt at h
  rw [Option.map_eq_none_iff, List.find?_eq_none] at h
  have hi := h m.pattern (List.mem_finRange _)
  simp only [decide_eq_true_eq, List.isSuffixOf_iff_suffix] at hi
  have := hm.stop_eq
  exact hi ⟨by omega, hm.suffix_take⟩

theorem scanFrom_scans (hne : ∀ p ∈ pats, p ≠ []) :
    ∀ (fuel start stop : ℕ), fuel + stop = text.length + 1 → start ≤ stop →
      (∀ m, Occurs pats text m → start ≤ m.start → stop ≤ m.stop) →
      Scan pats text start (scanFrom pats text fuel start stop)
  | 0, start, stop, hfuel, _, hall => by
      apply Scan.finished
      intro m hm
      by_contra hc
      have := hall m hm (by omega)
      have := hm.stop_le hne
      omega
  | fuel + 1, start, stop, hfuel, hle, hall => by
      unfold scanFrom
      cases he : endingAt pats text start stop with
      | some m =>
          obtain ⟨hm, hstop, hstart⟩ := endingAt_some hle (by omega) he
          apply Scan.found hm hstart (fun m' hm' hs' => hstop ▸ hall m' hm' hs')
          rw [hstop]
          apply scanFrom_scans hne fuel stop (stop + 1) (by omega) (by omega)
          intro m' hm' hs'
          have := hm'.start_lt hne
          omega
      | none =>
          apply scanFrom_scans hne fuel start (stop + 1) (by omega) (by omega)
          intro m hm hs
          have := hall m hm hs
          have := endingAt_none he hm hs
          omega

theorem scan_scans (hne : ∀ p ∈ pats, p ≠ []) : Scan pats text 0 (scan pats text) :=
  scanFrom_scans hne _ 0 0 (by omega) le_rfl (fun _ _ _ => Nat.zero_le _)

end Compute

end PurpleWolf.EarliestScan
