import PurpleWolf.Core.Policy
import PurpleWolf.Core.Signatures

/-! # Reporting each signature once

The detector keeps a table of the signatures it has `matched` and reports each at its first
match.  `decide_inspectEvery` compares it with the same scan without the table: the decision
is the same, whatever other detectors report before and after. -/

namespace PurpleWolf

namespace Signatures

open Selection

variable (A : AhoCorasick patterns) (req : Request)

/-- The scan without the `matched` table: one verdict for every match. -/
def inspectEvery : List Verdict :=
  (req.inspectableFields.flatMap A.findIter).map (fun m => verdict (entry m.pattern))

/-- The loop leaves out what it has reported, here `done`, and nothing else. -/
theorem repeats_report {n : ℕ} (ms : List (EarliestScan.Match n)) :
    ∀ (matched : Fin n → Bool) (done : List (Fin n)), (∀ i, matched i = true → i ∈ done) →
      Repeats (done ++ report matched ms) (done ++ ms.map EarliestScan.Match.pattern) := by
  induction ms with
  | nil =>
      intro matched done _
      exact Repeats.refl _
  | cons m ms ih =>
      intro matched done hdone
      rw [List.map_cons]
      unfold report
      split_ifs with hm
      · apply Repeats.again
        · exact ih matched done hdone
        · exact hdone _ hm
      · have hrest := ih (Function.update matched m.pattern true) (done ++ [m.pattern]) ?_
        · simpa using hrest
        · intro i hi
          by_cases heq : i = m.pattern
          · simp [heq]
          · rw [Function.update_of_ne heq] at hi
            exact List.mem_append_left _ (hdone i hi)

theorem repeats_inspect : Repeats (inspect A req) (inspectEvery A req) := by
  have hloop := repeats_report (req.inspectableFields.flatMap A.findIter) (fun _ => false) [] (by simp)
  have hverdicts := hloop.map (fun i => verdict (entry i))
  unfold inspect inspectEvery reported
  simpa [Function.comp_def] using hverdicts

theorem length_inspect_le : (inspect A req).length ≤ SIGNATURES.length := by
  have hnd : (reported A req).Nodup := (report_spec _ _).1
  calc (inspect A req).length = (reported A req).length := List.length_map _
    _ ≤ Fintype.card (Fin patterns.length) := hnd.length_le_card
    _ = patterns.length := Fintype.card_fin _
    _ = SIGNATURES.length := length_patterns

/-- **Reporting once decides nothing.**  Action, named verdict and the set of rules are
those of the scan that reports every match, and the report is never longer than the table. -/
theorem decide_inspectEvery (global : Mode) (groupMode : Group → GroupMode) (before after : List Verdict) :
    (Policy.decide (before ++ inspect A req ++ after) global groupMode).action =
        (Policy.decide (before ++ inspectEvery A req ++ after) global groupMode).action ∧
      (Policy.decide (before ++ inspect A req ++ after) global groupMode).blockedBy =
        (Policy.decide (before ++ inspectEvery A req ++ after) global groupMode).blockedBy ∧
      Policy.rules (Policy.decide (before ++ inspect A req ++ after) global groupMode) =
        Policy.rules (Policy.decide (before ++ inspectEvery A req ++ after) global groupMode) ∧
      (inspect A req).length ≤ SIGNATURES.length := by
  obtain ⟨haction, hnamed, hrules⟩ :=
    Policy.decide_repeats global groupMode ((repeats_inspect A req).append before after)
  exact ⟨haction.symm, hnamed.symm, hrules.symm, length_inspect_le A req⟩

end Signatures

end PurpleWolf
