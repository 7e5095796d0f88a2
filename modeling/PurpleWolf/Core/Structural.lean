import PurpleWolf.Core.Detectors

/-! # The structural detector (`detectors/structural.rs`)

Plain anomaly checks: the method, the size and number of the headers, and control
characters in the path and the query values. -/

namespace PurpleWolf

namespace Structural

def ALLOWED_METHODS : List Str :=
  ["GET".toList, "POST".toList, "PUT".toList, "PATCH".toList, "DELETE".toList, "HEAD".toList, "OPTIONS".toList]

def MAX_HEADER_BYTES : ℕ := 16 * 1024

def MAX_HEADER_COUNT : ℕ := 100

/-- A verdict of this detector; all of them are of medium severity. -/
def verdict (rule detail : Str) : Verdict := ⟨.structural, rule, .medium, detail⟩

def methodNotAllowed (req : Request) : List Verdict :=
  if req.method ∉ ALLOWED_METHODS then
    [verdict "method_not_allowed".toList
      ("method `".toList ++ req.method ++ "` not in allowlist".toList)]
  else []

def headersTooLarge (req : Request) : List Verdict :=
  if MAX_HEADER_BYTES < req.headerBytes then
    [verdict "headers_too_large".toList
      (Text.decimal req.headerBytes ++ " header bytes exceeds ".toList ++ Text.decimal MAX_HEADER_BYTES)]
  else []

def tooManyHeaders (req : Request) : List Verdict :=
  if MAX_HEADER_COUNT < req.headers.length then
    [verdict "too_many_headers".toList
      (Text.decimal req.headers.length ++ " headers exceeds ".toList ++ Text.decimal MAX_HEADER_COUNT)]
  else []

def hasNul (s : Str) : Bool := (Utf8.encode s).contains 0

def hasLineBreak (s : Str) : Bool := s.any (fun c => c == '\r' || c == '\n')

/-- The loop over the query values, left once both findings have been made. -/
def scanQuery : Bool → Bool → List (Str × Str) → Bool × Bool
  | hasNull, hasCrlf, [] => (hasNull, hasCrlf)
  | hasNull, hasCrlf, (_, value) :: params =>
      let hasNull := hasNull || hasNul value
      let hasCrlf := hasCrlf || hasLineBreak value
      if hasNull && hasCrlf then (hasNull, hasCrlf) else scanQuery hasNull hasCrlf params

def controlBytes (req : Request) : List Verdict :=
  let (hasNull, hasCrlf) := scanQuery (hasNul req.path) (hasLineBreak req.path) req.queryParams
  (if hasNull then [verdict "null_byte".toList "NUL byte in request path or query".toList] else []) ++
    (if hasCrlf then [verdict "crlf_injection".toList "CR/LF in request path or query".toList] else [])

/-- `StructuralDetector::inspect`. -/
def inspect (req : Request) : List Verdict :=
  methodNotAllowed req ++ headersTooLarge req ++ tooManyHeaders req ++ controlBytes req

def detector {Env : Type} : Detector Env where
  group := .structural
  inspect req env := (inspect req, env)

/-! ### What is reported -/

/-- Leaving the loop early changes nothing. -/
theorem scanQuery_eq (params : List (Str × Str)) : ∀ hasNull hasCrlf,
    scanQuery hasNull hasCrlf params =
      (hasNull || params.any (fun p => hasNul p.2), hasCrlf || params.any (fun p => hasLineBreak p.2)) := by
  induction params with
  | nil => simp [scanQuery]
  | cons p params ih =>
      intro hasNull hasCrlf
      obtain ⟨k, value⟩ := p
      unfold scanQuery
      simp only [List.any_cons, ← Bool.or_assoc]
      split_ifs with hboth
      · rw [Bool.and_eq_true] at hboth
        rw [hboth.1, hboth.2, Bool.true_or, Bool.true_or]
      · exact ih _ _

theorem group_of_mem {req : Request} {v : Verdict} (h : v ∈ inspect req) : v.group = .structural := by
  have hite : ∀ {p : Prop} [Decidable p] {rule detail : Str},
      v ∈ (if p then [verdict rule detail] else []) → v.group = .structural := by
    intro p _ rule detail h
    split_ifs at h
    · rw [List.mem_singleton.mp h]
      rfl
    · cases h
  unfold inspect methodNotAllowed headersTooLarge tooManyHeaders controlBytes at h
  simp only [List.mem_append] at h
  rcases h with ((h | h) | h) | h | h
  all_goals exact hite h

theorem exists_rule_ite {p : Prop} [Decidable p] {r d rule : Str} :
    (∃ v ∈ (if p then [verdict r d] else []), v.rule = rule) ↔ rule = r ∧ p := by
  split_ifs with h <;> simp [verdict, h, eq_comm]

theorem exists_mem_append {α : Type} {P : α → Prop} {as bs : List α} :
    (∃ v ∈ as ++ bs, P v) ↔ (∃ v ∈ as, P v) ∨ ∃ v ∈ bs, P v := by
  simp only [List.mem_append, or_and_right, exists_or]

theorem reports_iff (req : Request) (rule : Str) : (∃ v ∈ inspect req, v.rule = rule) ↔
    (rule = "method_not_allowed".toList ∧ req.method ∉ ALLOWED_METHODS) ∨
      (rule = "headers_too_large".toList ∧ MAX_HEADER_BYTES < req.headerBytes) ∨
      (rule = "too_many_headers".toList ∧ MAX_HEADER_COUNT < req.headers.length) ∨
      (rule = "null_byte".toList ∧ (hasNul req.path ∨ ∃ p ∈ req.queryParams, hasNul p.2)) ∨
      (rule = "crlf_injection".toList ∧ (hasLineBreak req.path ∨ ∃ p ∈ req.queryParams, hasLineBreak p.2)) := by
  unfold inspect methodNotAllowed headersTooLarge tooManyHeaders controlBytes
  rw [scanQuery_eq]
  simp only [exists_mem_append, exists_rule_ite, Bool.or_eq_true, List.any_eq_true, or_assoc]

end Structural

end PurpleWolf
