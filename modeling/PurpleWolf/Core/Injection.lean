import PurpleWolf.Core.Detectors

/-! # The injection detector (`detectors/injection.rs`)

Every inspected field is handed to libinjection, as raw bytes.  When no field is taken for
SQL, the tails of the User-Agent are tried once more on their own.

libinjection is C code behind two calls.  Here the calls are parameters of which nothing is
assumed, so what is shown holds of any detector; `Libinjection.Xss` and `Libinjection.Sqli`
model the C code, and `Traefik.ScriptTags` and `Traefik.Payloads` put it in. -/

namespace PurpleWolf

open Text

/-- The calls of `ffi.rs`. -/
structure Libinjection where
  isSqli : Bytes → Bool
  isXss : Bytes → Bool

namespace Injection

/-- Log-safe preview of a field: at most 80 characters, none of them a control character. -/
def truncateBytes (s : Bytes) : Str :=
  ((Utf8.decodeLossy s).take 80).map (fun c => if c.toNat < 0x20 ∨ c = '\x7f' then '.' else c)

def sqli (place : Str) (field : Bytes) : Verdict :=
  ⟨.injection, "sqli".toList, .critical, place ++ truncateBytes field⟩

def xss (field : Bytes) : Verdict :=
  ⟨.injection, "xss".toList, .high, "XSS in field: ".toList ++ truncateBytes field⟩

/-- A tail of the value that is not the whole of it. -/
def tailOf (ua : Str) (tail : Str) : Option Str :=
  let tail := trim tail
  if tail ≠ [] ∧ strLen tail < strLen ua then some tail else none

/-- The text after the last `)`, and the text after the first space. -/
def uaSuffixCandidates (ua : Str) : Option Str × Option Str :=
  let afterParen := (rsplitOnce ')' ua).bind (fun (_, tail) => tailOf ua tail)
  let afterSpace := ((splitOnce ' ' ua).bind (fun (_, tail) => tailOf ua tail)).filter
    (fun tail => some tail ≠ afterParen)
  (afterParen, afterSpace)

/-- The verdicts on one field. -/
def inspectField (L : Libinjection) (field : Bytes) : List Verdict :=
  (if L.isSqli field then [sqli "SQLi in field: ".toList field] else []) ++
    (if L.isXss field then [xss field] else [])

/-- The suffixes of the User-Agent are tried in order, until one is taken for SQL. -/
def probeUserAgent (L : Libinjection) (req : Request) : List Verdict :=
  match req.userAgent with
  | none => []
  | some ua =>
      let (afterParen, afterSpace) := uaSuffixCandidates ua
      match (afterParen.toList ++ afterSpace.toList).find? (fun c => L.isSqli (Utf8.encode c)) with
      | none => []
      | some c => [sqli "SQLi in User-Agent suffix: ".toList (Utf8.encode c)]

/-- The fields that are passed to `isSqli` and `isXss`. -/
def scannedFields (req : Request) : List Bytes := req.inspectableFields

/-- `InjectionDetector::inspect`. -/
def inspect (L : Libinjection) (req : Request) : List Verdict :=
  let fields := scannedFields req
  let sqliFound := fields.any L.isSqli
  fields.flatMap (inspectField L) ++ if sqliFound then [] else probeUserAgent L req

def detector {Env : Type} (L : Libinjection) : Detector Env where
  group := .injection
  inspect req env := (inspect L req, env)

theorem group_of_mem {L : Libinjection} {req : Request} {v : Verdict} (h : v ∈ inspect L req) :
    v.group = .injection := by
  unfold inspect at h
  rcases List.mem_append.mp h with h | h
  · obtain ⟨field, -, h⟩ := List.mem_flatMap.mp h
    unfold inspectField at h
    rcases List.mem_append.mp h with h | h
    all_goals
      split_ifs at h
      · rw [List.mem_singleton.mp h]
        rfl
      · cases h
  · unfold probeUserAgent at h
    split_ifs at h
    · cases h
    · split at h
      · cases h
      · simp only at h
        split at h
        · cases h
        · rw [List.mem_singleton.mp h]
          rfl

/-- A browser's User-Agent with SQL at its end is tried without its prefix. -/
example : uaSuffixCandidates "Mozilla/5.0 (X11) 1 OR 1=1".toList =
    (some "1 OR 1=1".toList, some "(X11) 1 OR 1=1".toList) := by decide +kernel

end Injection

end PurpleWolf
