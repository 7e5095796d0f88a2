import PurpleWolf.Core.Config
import PurpleWolf.Core.Detectors
import PurpleWolf.Lib.Selection

/-! # Request decision (`policy.rs`)

`Policy.decide` resolves the verdicts of one request into an action.  `decide_resolves`
is its specification, `decide_engine` adds the tie rule for verdicts that come from the
engine. -/

namespace PurpleWolf

open Selection

inductive Action where
  | allow
  | block
  deriving DecidableEq

/-- The final decision for one request. -/
structure Decision where
  action : Action
  /-- The verdict that caused a block. -/
  blockedBy : Option Verdict
  /-- Verdicts seen but not enforced. -/
  wouldBlock : List Verdict

namespace Policy

/-- Partition by enforcement: the enforced verdicts, and the others that are not off. -/
def pools (global : Mode) (groupMode : Group → GroupMode) : List Verdict → List Verdict × List Verdict
  | [] => ([], [])
  | v :: vs =>
      let (enforcedPool, wouldBlock) := pools global groupMode vs
      let gm := groupMode v.group
      if gm = .off then (enforcedPool, wouldBlock)
      else if global = .enforce ∧ gm = .enforce then (v :: enforcedPool, wouldBlock)
      else (enforcedPool, v :: wouldBlock)

def decide (verdicts : List Verdict) (global : Mode) (groupMode : Group → GroupMode) : Decision :=
  let (enforcedPool, wouldBlock) := pools global groupMode verdicts
  if h : 0 < enforcedPool.length then
    let idx := firstMax Verdict.severity enforcedPool h
    { action := .block
      blockedBy := some enforcedPool[idx]
      wouldBlock := wouldBlock ++ swapRemove enforcedPool idx }
  else { action := .allow, blockedBy := none, wouldBlock := wouldBlock }

/-! ### The partition -/

/-- The verdicts whose group is not off. -/
def seen (groupMode : Group → GroupMode) (verdicts : List Verdict) : List Verdict :=
  verdicts.filter (fun v => groupMode v.group ≠ .off)

/-- The verdicts that may block. -/
def enforced (global : Mode) (groupMode : Group → GroupMode) (verdicts : List Verdict) : List Verdict :=
  verdicts.filter (fun v => global = .enforce ∧ groupMode v.group = .enforce)

variable (global : Mode) (groupMode : Group → GroupMode)

theorem pools_fst (verdicts : List Verdict) :
    (pools global groupMode verdicts).1 = enforced global groupMode verdicts := by
  unfold enforced
  induction verdicts with
  | nil => rfl
  | cons v vs ih =>
      unfold pools
      simp only
      split_ifs with hoff henf
      · rw [List.filter_cons_of_neg (by simp [hoff]), ih]
      · rw [List.filter_cons_of_pos (by simpa using henf), ih]
      · rw [List.filter_cons_of_neg (by simpa using henf), ih]

theorem pools_perm (verdicts : List Verdict) :
    ((pools global groupMode verdicts).1 ++ (pools global groupMode verdicts).2).Perm
      (seen groupMode verdicts) := by
  unfold seen
  induction verdicts with
  | nil => exact List.Perm.refl _
  | cons v vs ih =>
      unfold pools
      simp only
      split_ifs with hoff henf
      · rw [List.filter_cons_of_neg (by simp [hoff])]
        exact ih
      · rw [List.filter_cons_of_pos (by simp [hoff])]
        exact ih.cons v
      · rw [List.filter_cons_of_pos (by simp [hoff])]
        exact List.perm_middle.trans (ih.cons v)

/-- Verdicts of groups that are off are not looked at. -/
theorem pools_seen (verdicts : List Verdict) :
    pools global groupMode (seen groupMode verdicts) = pools global groupMode verdicts := by
  unfold seen
  induction verdicts with
  | nil => rfl
  | cons v vs ih =>
      by_cases hoff : groupMode v.group = .off
      · rw [List.filter_cons_of_neg (by simp [hoff]), ih]
        conv_rhs => unfold pools
        simp only [hoff, if_true]
      · rw [List.filter_cons_of_pos (by simp [hoff])]
        unfold pools
        rw [ih]

theorem decide_seen (verdicts : List Verdict) :
    decide (seen groupMode verdicts) global groupMode = decide verdicts global groupMode := by
  unfold decide
  rw [pools_seen]

/-! ### The decision -/

/-- What a decision says about the verdicts it was made from. -/
structure Resolves (verdicts : List Verdict) (d : Decision) : Prop where
  /-- A request is blocked when some verdict is enforced, and only then. -/
  block_iff : d.action = .block ↔
    global = .enforce ∧ ∃ v ∈ seen groupMode verdicts, groupMode v.group = .enforce
  named_iff : d.action = .block ↔ d.blockedBy.isSome
  /-- `blockedBy` is the earliest enforced verdict of maximal severity. -/
  worst : ∀ b, d.blockedBy = some b → ∃ before after,
    enforced global groupMode verdicts = before ++ b :: after ∧
      (∀ v ∈ before, v.severity < b.severity) ∧ ∀ v ∈ after, v.severity ≤ b.severity
  /-- No verdict is lost, duplicated or invented. -/
  conserved : (d.blockedBy.toList ++ d.wouldBlock).Perm (seen groupMode verdicts)

theorem enforced_ne_nil_iff (verdicts : List Verdict) :
    0 < (enforced global groupMode verdicts).length ↔
      global = .enforce ∧ ∃ v ∈ seen groupMode verdicts, groupMode v.group = .enforce := by
  unfold enforced seen
  rw [List.length_pos_iff_exists_mem]
  constructor
  · rintro ⟨v, hv⟩
    simp only [List.mem_filter, decide_eq_true_eq] at hv
    exact ⟨hv.2.1, v, by simp [hv.1, hv.2.2], hv.2.2⟩
  · rintro ⟨hg, v, hv, henf⟩
    simp only [List.mem_filter, decide_eq_true_eq] at hv
    exact ⟨v, by simp [hv.1, hg, henf]⟩

/-- **The decision is right**, for every list of verdicts and every mode function. -/
theorem decide_resolves (verdicts : List Verdict) :
    Resolves global groupMode verdicts (decide verdicts global groupMode) := by
  have hiff := enforced_ne_nil_iff global groupMode verdicts
  have hperm := pools_perm global groupMode verdicts
  have hfst := pools_fst global groupMode verdicts
  unfold decide
  generalize pools global groupMode verdicts = p at hperm hfst
  obtain ⟨pool, rest⟩ := p
  simp only at hperm hfst
  subst hfst
  simp only
  split_ifs with h
  · refine ⟨by simpa using hiff.mp h, by simp, ?_, ?_⟩
    · rintro b ⟨⟩
      exact (isFirstMax_firstMax Verdict.severity _ h).split
    · -- the winner in front, then the two halves change places
      refine List.Perm.trans ?_ hperm
      have hswap := swapRemove_perm _ (firstMax Verdict.severity _ h)
      refine List.Perm.trans ?_ (hswap.append_right rest)
      simpa using List.perm_append_comm
  · refine ⟨by simpa using fun hg v hv he => h (hiff.mpr ⟨hg, v, hv, he⟩), by simp, by simp, ?_⟩
    have hnil : enforced global groupMode verdicts = [] := by simpa using h
    simpa [hnil] using hperm

theorem blockedBy_iff (verdicts : List Verdict) (b : Verdict) :
    (decide verdicts global groupMode).blockedBy = some b ↔
      Wins Verdict.severity (enforced global groupMode verdicts) b := by
  have hres := decide_resolves global groupMode verdicts
  constructor
  · exact hres.worst b
  · intro hwins
    have hmem : b ∈ enforced global groupMode verdicts := by
      obtain ⟨before, after, heq, -⟩ := hwins
      rw [heq]
      simp
    have hblock : (decide verdicts global groupMode).action = .block := by
      rw [hres.block_iff, ← enforced_ne_nil_iff]
      exact List.length_pos_of_mem hmem
    obtain ⟨c, hc⟩ := Option.isSome_iff_exists.mp (hres.named_iff.mp hblock)
    rw [hc, hwins.unique (hres.worst c hc)]

/-- The rules of all verdicts that a decision speaks of. -/
def rules (d : Decision) : Set Str := {rule | ∃ v ∈ d.blockedBy.toList ++ d.wouldBlock, v.rule = rule}

/-- Verdicts that are repeated change nothing but the number of repetitions. -/
theorem decide_repeats {verdicts verdicts' : List Verdict} (h : Repeats verdicts verdicts') :
    (decide verdicts' global groupMode).action = (decide verdicts global groupMode).action ∧
      (decide verdicts' global groupMode).blockedBy = (decide verdicts global groupMode).blockedBy ∧
      rules (decide verdicts' global groupMode) = rules (decide verdicts global groupMode) := by
  have hres := decide_resolves global groupMode verdicts
  have hres' := decide_resolves global groupMode verdicts'
  have hpool : Repeats (enforced global groupMode verdicts) (enforced global groupMode verdicts') := h.filter _
  have hseen : Repeats (seen groupMode verdicts) (seen groupMode verdicts') := h.filter _
  have haction : (decide verdicts' global groupMode).action = .block ↔
      (decide verdicts global groupMode).action = .block := by
    rw [hres.block_iff, hres'.block_iff]
    simp only [hseen.mem_iff]
  have hnamed : (decide verdicts' global groupMode).blockedBy =
      (decide verdicts global groupMode).blockedBy := by
    cases hb : (decide verdicts global groupMode).blockedBy with
    | none =>
        have hno : ¬ (decide verdicts' global groupMode).blockedBy.isSome := by
          rw [← hres'.named_iff, haction, hres.named_iff, hb]
          decide
        exact Option.not_isSome_iff_eq_none.mp hno
    | some b =>
        rw [blockedBy_iff] at hb ⊢
        exact hpool.wins hb
  refine ⟨?_, hnamed, ?_⟩
  · cases hd : (decide verdicts global groupMode).action with
    | block => exact haction.mpr hd
    | allow =>
        cases hd' : (decide verdicts' global groupMode).action with
        | allow => rfl
        | block =>
            rw [haction.mp hd'] at hd
            cases hd
  · unfold rules
    ext rule
    simp only [Set.mem_ofPred_eq, hres.conserved.mem_iff, hres'.conserved.mem_iff, hseen.mem_iff]

/-! ### Verdicts from the engine -/

theorem flatMap_split {ι α : Type} {f : ι → List α} {b : α} {after : List α} :
    ∀ {xs : List ι} {before : List α}, xs.flatMap f = before ++ b :: after →
      ∃ us x vs, xs = us ++ x :: vs ∧ b ∈ f x ∧ (∀ u ∈ us, ∀ a ∈ f u, a ∈ before) ∧
        ∀ v ∈ vs, ∀ a ∈ f v, a ∈ after
  | [], before, h => by simp at h
  | x :: xs, before, h => by
      rw [List.flatMap_cons] at h
      rcases List.append_eq_append_iff.mp h with ⟨ws, rfl, h2⟩ | ⟨ws, h1, h2⟩
      · obtain ⟨us, y, vs, rfl, hb, hus, hvs⟩ := flatMap_split h2
        refine ⟨x :: us, y, vs, rfl, hb, ?_, hvs⟩
        intro u hu a ha
        rcases List.mem_cons.mp hu with rfl | hu
        · exact List.mem_append_left _ ha
        · exact List.mem_append_right _ (hus u hu a ha)
      · cases ws with
        | nil =>
            rw [List.append_nil] at h1
            have h3 : xs.flatMap f = [] ++ b :: after := h2.symm
            obtain ⟨us, y, vs, rfl, hb, hus, hvs⟩ := flatMap_split h3
            refine ⟨x :: us, y, vs, rfl, hb, ?_, hvs⟩
            intro u hu a ha
            rcases List.mem_cons.mp hu with rfl | hu
            · exact h1 ▸ ha
            · exact absurd (hus u hu a ha) List.not_mem_nil
        | cons w ws =>
            obtain ⟨rfl, hafter⟩ := List.cons.inj h2
            refine ⟨[], x, xs, rfl, by simp [h1], by simp, ?_⟩
            intro v hv a ha
            rw [hafter]
            exact List.mem_append_right _ (List.mem_flatMap.mpr ⟨v, hv, ha⟩)

variable {Env : Type}

/-- **The decision of the plugin.**  `decide` resolves any list of verdicts; with the
verdicts of an engine, the detectors that run before the one named by `blockedBy` reported
less severe enforced verdicts only, and those after it no more severe ones. -/
theorem decide_engine (engine : Engine Env) (req : Request) (enabledGroups : List Group) (env : Env) :
    (∀ verdicts, Resolves global groupMode verdicts (decide verdicts global groupMode)) ∧
      ∀ b, (decide (engine.inspect req enabledGroups env).1 global groupMode).blockedBy = some b →
        ∃ before d vs after,
          (Engine.reports req (engine.running enabledGroups) env).1 = before ++ (d, vs) :: after ∧ b ∈ vs ∧
            (∀ r ∈ before, ∀ v ∈ enforced global groupMode r.2, v.severity < b.severity) ∧
            ∀ r ∈ after, ∀ v ∈ enforced global groupMode r.2, v.severity ≤ b.severity := by
  refine ⟨decide_resolves global groupMode, ?_⟩
  intro b hb
  obtain ⟨before, after, hsplit, hlt, hle⟩ := (decide_resolves global groupMode _).worst b hb
  have hflat : enforced global groupMode (engine.inspect req enabledGroups env).1 =
      (Engine.reports req (engine.running enabledGroups) env).1.flatMap
        (fun r => enforced global groupMode r.2) := by
    unfold enforced Engine.inspect
    rw [List.filter_flatMap]
  rw [hflat] at hsplit
  obtain ⟨us, ⟨d, vs⟩, ws, hr, hmem, hus, hws⟩ := flatMap_split hsplit
  refine ⟨us, d, vs, ws, hr, (List.mem_filter.mp hmem).1, ?_, ?_⟩
  · intro r hr v hv
    exact hlt v (hus r hr v hv)
  · intro r hr v hv
    exact hle v (hws r hr v hv)

end Policy

end PurpleWolf
