import Mathlib.Tactic

/-! # Runs of a transition system

A system is given by a partial step function; the action names both what happens and how
nondeterminism is resolved.  A run takes its actions one after the other, each of them
allowed by a condition on the state before it.

* **Invariants.**  `Run.invariant`: what the allowed steps keep, a run keeps.
* **Traces.**  `Run.traced`: an invariant that also speaks of the actions taken so far.
* **Traps.**  `Run.avoids`: a run that ends outside of a trap has taken no step into it.
* **Prefixes.**  The beginning of a run is a run, so a result about the end of every run is
  one about every state on the way. -/

namespace PurpleWolf

variable {σ α : Type}

/-- The actions lead from the first state to the second, each allowed where it is taken. -/
def Run (step : σ → α → Option σ) (ok : σ → α → Prop) : σ → List α → σ → Prop
  | s, [], t => s = t
  | s, a :: as, t => ok s a ∧ ∃ u ∈ step s a, Run step ok u as t

namespace Run

variable {step : σ → α → Option σ} {ok ok' : σ → α → Prop}

instance decidable [DecidableEq σ] [∀ s a, Decidable (ok s a)] :
    ∀ (s : σ) (as : List α) (t : σ), Decidable (Run step ok s as t)
  | s, [], t => inferInstanceAs (Decidable (s = t))
  | s, a :: as, t =>
      match h : step s a with
      | none => isFalse (by
          rintro ⟨-, u, hu, -⟩
          rw [h] at hu
          cases hu)
      | some u =>
          have : Decidable (Run step ok u as t) := decidable u as t
          decidable_of_iff (ok s a ∧ Run step ok u as t) (by simp only [Run, h, Option.mem_some_iff, exists_eq_left'])

/-- The state that some actions lead to, if each is possible and allowed. -/
def exec (step : σ → α → Option σ) (ok : σ → α → Prop) [∀ s a, Decidable (ok s a)] : σ → List α → Option σ
  | s, [] => some s
  | s, a :: as => if ok s a then (step s a).bind (exec step ok · as) else none

theorem of_exec [∀ s a, Decidable (ok s a)] : ∀ {s : σ} {as : List α} {t : σ},
    exec step ok s as = some t → Run step ok s as t
  | s, [], t, h => Option.some.inj h
  | s, a :: as, t, h => by
      unfold exec at h
      split_ifs at h with hok
      obtain ⟨u, hu, hrest⟩ := Option.bind_eq_some_iff.mp h
      exact ⟨hok, u, hu, of_exec hrest⟩

/-- **The invariant rule.** -/
theorem invariant {I : σ → Prop} (hstep : ∀ s a t, I s → ok s a → step s a = some t → I t) :
    ∀ {s : σ} {as : List α} {t : σ}, Run step ok s as t → I s → I t
  | _, [], _, h, hs => h ▸ hs
  | s, a :: _, _, ⟨hok, u, hu, hrun⟩, hs => invariant hstep hrun (hstep s a u hs hok hu)

/-- **The trace rule.** -/
theorem traced {I : σ → List α → Prop}
    (hstep : ∀ s a t trace, I s trace → ok s a → step s a = some t → I t (trace ++ [a])) :
    ∀ {s : σ} {as : List α} {t : σ} {trace : List α}, Run step ok s as t → I s trace → I t (trace ++ as)
  | _, [], _, _, h, hs => by
      rw [List.append_nil, ← h]
      exact hs
  | s, a :: as, _, trace, ⟨hok, u, hu, hrun⟩, hs => by
      have hrest := traced hstep hrun (hstep s a u trace hs hok hu)
      rwa [List.append_assoc, List.singleton_append] at hrest

/-- **The trap rule.** -/
theorem avoids {Bad : σ → Prop} (hinto : ∀ s a t, ok s a → step s a = some t → ok' s a ∨ Bad t)
    (htrap : ∀ s a t, Bad s → ok s a → step s a = some t → Bad t) :
    ∀ {s : σ} {as : List α} {t : σ}, Run step ok s as t → ¬ Bad t → Run step ok' s as t
  | _, [], _, h, _ => h
  | s, a :: as, _, ⟨hok, u, hu, hrun⟩, ht => by
      obtain hok' | hbad := hinto s a u hok hu
      · exact ⟨hok', u, hu, avoids hinto htrap hrun ht⟩
      · exact absurd (hrun.invariant htrap hbad) ht

theorem and : ∀ {s : σ} {as : List α} {t : σ}, Run step ok s as t → Run step ok' s as t →
    Run step (fun s a => ok s a ∧ ok' s a) s as t
  | _, [], _, h, _ => h
  | _, _ :: _, _, ⟨hok, u, hu, hrun⟩, ⟨hok', u', hu', hrun'⟩ => by
      obtain rfl := Option.mem_unique hu hu'
      exact ⟨⟨hok, hok'⟩, u, hu, hrun.and hrun'⟩

theorem mono (hok : ∀ s a, ok s a → ok' s a) : ∀ {s : σ} {as : List α} {t : σ}, Run step ok s as t → Run step ok' s as t
  | _, [], _, h => h
  | s, a :: _, _, ⟨h, u, hu, hrun⟩ => ⟨hok s a h, u, hu, mono hok hrun⟩

theorem and_imp {q : Prop} {s t : σ} {as : List α} (h : Run step ok s as t) (h' : q → Run step ok' s as t) :
    Run step (fun s a => ok s a ∧ (q → ok' s a)) s as t := by
  by_cases hq : q
  · exact (h.and (h' hq)).mono fun _ _ hboth => ⟨hboth.1, fun _ => hboth.2⟩
  · exact h.mono fun _ _ hok => ⟨hok, fun hq' => absurd hq' hq⟩

end Run

end PurpleWolf
