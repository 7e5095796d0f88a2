import PurpleWolf.Core.Request

/-! # Detectors and the engine (`detectors/mod.rs`)

A detector turns a request into verdicts.  A detector may keep state between requests (the
rate limiter does), so `inspect` threads an environment `Env` through; a stateless
detector returns it unchanged. -/

namespace PurpleWolf

/-- Logical grouping of detectors. -/
inductive Group where
  | injection
  | signatures
  | structural
  | reputation
  deriving DecidableEq

def Group.asStr : Group → Str
  | .injection => "injection".toList
  | .signatures => "signatures".toList
  | .structural => "structural".toList
  | .reputation => "reputation".toList

/-- Verdict severity: `low < medium < high < critical`. -/
inductive Severity where
  | low
  | medium
  | high
  | critical
  deriving DecidableEq

namespace Severity

def asStr : Severity → Str
  | .low => "low".toList
  | .medium => "medium".toList
  | .high => "high".toList
  | .critical => "critical".toList

/-- The position of a variant in the declaration. -/
def rank : Severity → ℕ
  | .low => 0
  | .medium => 1
  | .high => 2
  | .critical => 3

theorem rank_injective : Function.Injective rank := by
  intro s t h
  cases s <;> cases t <;> first | rfl | exact absurd h (by decide)

/-- The derived order. -/
instance : LinearOrder Severity := LinearOrder.lift' rank rank_injective

end Severity

/-- One detection hit. -/
structure Verdict where
  group : Group
  rule : Str
  severity : Severity
  detail : Str
  deriving DecidableEq

structure Detector (Env : Type) where
  group : Group
  inspect : Request → Env → List Verdict × Env

/-- Every detector, in the order in which they run. -/
structure Engine (Env : Type) where
  detectors : List (Detector Env)

namespace Engine

variable {Env : Type}

/-- Each detector in turn with the verdicts it returns. -/
def reports (req : Request) : List (Detector Env) → Env → List (Detector Env × List Verdict) × Env
  | [], env => ([], env)
  | d :: ds, env =>
      let (vs, env) := d.inspect req env
      let (rs, env) := reports req ds env
      ((d, vs) :: rs, env)

/-- The detectors whose group is in `enabled`. -/
def running (engine : Engine Env) (enabled : List Group) : List (Detector Env) :=
  engine.detectors.filter (fun d => enabled.contains d.group)

/-- Run the enabled detectors; all verdicts, in engine order. -/
def inspect (engine : Engine Env) (req : Request) (enabled : List Group) (env : Env) :
    List Verdict × Env :=
  let (rs, env) := reports req (engine.running enabled) env
  (rs.flatMap Prod.snd, env)

/-- A detector that may be left out when its group is not among those of `p`: it speaks for
its own group only, and `R`, which relates the environment of a run without the detectors
outside `p` to that of a run with all of them, is kept by either run. -/
structure Skippable (p : Group → Bool) (R : Env → Env → Prop) (d : Detector Env) : Prop where
  own : ∀ req env, ∀ v ∈ (d.inspect req env).1, v.group = d.group
  kept : p d.group = true → ∀ req env env', R env env' →
    (d.inspect req env).1 = (d.inspect req env').1 ∧ R (d.inspect req env).2 (d.inspect req env').2
  left : p d.group = false → ∀ req env env', R env env' → R env (d.inspect req env').2

theorem Skippable.of_stateless {p : Group → Bool} {R : Env → Env → Prop} {d : Detector Env}
    {f : Request → List Verdict} (hd : ∀ req env, d.inspect req env = (f req, env))
    (hown : ∀ req, ∀ v ∈ f req, v.group = d.group) : Skippable p R d := by
  constructor
  · intro req env v hv
    rw [hd] at hv
    exact hown req v hv
  · intro _ req env env' h
    rw [hd, hd]
    exact ⟨rfl, h⟩
  · intro _ req env env' h
    rw [hd]
    exact h

/-- **Leaving detectors out** leaves out their verdicts, and nothing else. -/
theorem reports_skip {p : Group → Bool} {R : Env → Env → Prop} (req : Request) :
    ∀ (ds : List (Detector Env)) (env env' : Env), (∀ d ∈ ds, Skippable p R d) → R env env' →
      (reports req (ds.filter (fun d => p d.group)) env).1.flatMap Prod.snd =
          ((reports req ds env').1.flatMap Prod.snd).filter (fun v => p v.group) ∧
        R (reports req (ds.filter (fun d => p d.group)) env).2 (reports req ds env').2
  | [], _, _, _, hR => ⟨rfl, hR⟩
  | d :: ds, env, env', hds, hR => by
      have hd := hds d List.mem_cons_self
      have hrest := fun d' (hd' : d' ∈ ds) => hds d' (List.mem_cons_of_mem _ hd')
      have hown := hd.own req env'
      by_cases hp : p d.group = true
      · obtain ⟨hsame, hR'⟩ := hd.kept hp req env env' hR
        obtain ⟨hvs, hR''⟩ := reports_skip req ds _ _ hrest hR'
        have hall : (d.inspect req env').1.filter (fun v => p v.group) = (d.inspect req env').1 := by
          apply List.filter_eq_self.mpr
          intro v hv
          rw [hown v hv, hp]
        rw [List.filter_cons_of_pos (by simpa using hp)]
        simp only [reports, List.flatMap_cons, List.filter_append]
        rw [hvs, hall, hsame]
        exact ⟨rfl, hR''⟩
      · rw [Bool.not_eq_true] at hp
        obtain ⟨hvs, hR''⟩ := reports_skip req ds _ _ hrest (hd.left hp req env env' hR)
        have hnone : (d.inspect req env').1.filter (fun v => p v.group) = [] := by
          apply List.filter_eq_nil_iff.mpr
          intro v hv
          rw [hown v hv, hp]
          decide
        rw [List.filter_cons_of_neg (by simp [hp])]
        simp only [reports, List.flatMap_cons, List.filter_append]
        rw [hvs, hnone, List.nil_append]
        exact ⟨rfl, hR''⟩

end Engine

end PurpleWolf
