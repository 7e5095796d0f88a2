import PurpleWolf.Basic
import PurpleWolf.Lib.Json
import PurpleWolf.Lib.Utf8

/-! # The audit-line parser of the relay (`parser.rs`)

`parseLine` extracts an audit event from one line of Traefik's log: it strips the ANSI
escapes, finds the first balanced JSON object, hands it to `serde_json` (a `Json.Codec`
here) and checks that it carries the fields of an audit event.  Traefik's own
`key=value` pairs are then looked up in the stripped text.

Offsets are byte offsets, as in the source; the search for the object runs over the bytes
of the stripped text. -/

namespace PurpleWolf.Relay

inductive ParseError where
  | notPurpleWolf
  | malformed (message : Str)

structure ParsedAudit where
  event : Json
  middleware : Option Str
  router : Option Str
  entryPoint : Option Str

/-! ### ANSI escapes -/

/-- Where the scan of `strip_ansi` stands: in the text, after an ESC, or inside the
sequence that it opens. -/
inductive AnsiState where
  | text
  | escape
  | body

/-- An escape sequence ends with its first ASCII letter; a `[` directly after ESC is part
of it. -/
def stripAnsiFrom : AnsiState → Str → Str
  | _, [] => []
  | .text, c :: s => if c = '\x1b' then stripAnsiFrom .escape s else c :: stripAnsiFrom .text s
  | .escape, c :: s =>
      if c = '[' then stripAnsiFrom .body s
      else if c.isAlpha then stripAnsiFrom .text s
      else stripAnsiFrom .body s
  | .body, c :: s => if c.isAlpha then stripAnsiFrom .text s else stripAnsiFrom .body s

def stripAnsi (s : Str) : Str := if '\x1b' ∈ s then stripAnsiFrom .text s else s

/-! ### The JSON object -/

/-- The registers of the brace scan.  The depth has no bound here; the register of the source has
32 bits, which makes no difference on lines of up to 4 GiB (`parseLineI32_eq`). -/
structure BraceScan where
  depth : ℕ
  inString : Bool
  escape : Bool
  deriving DecidableEq

namespace BraceScan

def step (s : BraceScan) (b : UInt8) : BraceScan :=
  if s.inString then
    if s.escape then { s with escape := false }
    else if b = 0x5C then { s with escape := true }
    else if b = 0x22 then { s with inString := false }
    else s
  else if b = 0x22 then { s with inString := true }
  else if b = 0x7B then { s with depth := s.depth + 1 }
  else if b = 0x7D then { s with depth := s.depth - 1 }
  else s

/-- The brace that closes the object: the depth falls back to zero. -/
def closes (s : BraceScan) (b : UInt8) : Bool := !s.inString && b == 0x7D && s.depth == 1

end BraceScan

/-- The index of the closing brace, counting from `i`. -/
def findEnd : BraceScan → ℕ → Bytes → Option ℕ
  | _, _, [] => none
  | s, i, b :: bs => if s.closes b then some i else findEnd (s.step b) (i + 1) bs

/-- The first opening brace and its matching closing one. -/
def findJsonObject (bytes : Bytes) : Option (ℕ × ℕ) :=
  match bytes.findIdx? (fun b => b == 0x7B) with
  | some start => (findEnd ⟨0, false, false⟩ start (bytes.drop start)).map (fun stop => (start, stop))
  | none => none

/-- `&s[start..=end]`.  Both ends are ASCII bytes here, so the slice is a text. -/
def sliceInclusive (s : Str) (start stop : ℕ) : Str :=
  Utf8.decodeLossy (((Utf8.encode s).take (stop + 1)).drop start)

/-! ### Traefik's fields -/

/-- The text after the first occurrence of `key`. -/
def afterKey (key : Str) : Str → Option Str
  | [] => if key.isEmpty then some [] else none
  | c :: s => if key.isPrefixOf (c :: s) then some ((c :: s).drop key.length) else afterKey key s

def isQuote (c : Char) : Bool := c == '"' || c == '\''

/-- `str::trim_matches` with the two quote characters. -/
def trimQuotes (s : Str) : Str := (s.dropWhile isQuote).rdropWhile isQuote

def findValue (haystack key : Str) : Option Str :=
  match afterKey key haystack with
  | some rest =>
      let v := trimQuotes (rest.takeWhile (fun c => !Text.isWhitespace c))
      if v.isEmpty then none else some v
  | none => none

/-- The name without its `@file` or `@kubernetescrd` suffix. -/
def stripTraefikSuffix (v : Str) : Str :=
  match Text.splitOnce '@' v with
  | some (k, _) => k
  | none => v

def middlewareKey : Str := "middlewareName=".toList

def routerKey : Str := "routerName=".toList

def entryPointKey : Str := "entryPointName=".toList

/-- `extract_traefik_enrichment`: middleware, router and entry point. -/
def extractTraefikEnrichment (s : Str) : Option Str × Option Str × Option Str :=
  ((findValue s middlewareKey).map stripTraefikSuffix, (findValue s routerKey).map stripTraefikSuffix,
    findValue s entryPointKey)

/-! ### The parser -/

/-- Whether a JSON value carries the fields of an audit event. -/
def hasSignature (event : Json) : Bool :=
  (event.get "would_block_rules".toList).isSome &&
    match (event.get "action".toList).bind Json.asStr with
    | some action => action == "block".toList || action == "allow".toList
    | none => false

/-- `parse_line(bytes)`, over the search for the object. -/
def parseLineWith (find : Bytes → Option (ℕ × ℕ)) (S : Json.Codec) (bytes : Bytes) : Except ParseError ParsedAudit :=
  match Utf8.decode? bytes with
  | none => .error .notPurpleWolf
  | some text =>
      if 0x7B ∉ bytes then .error .notPurpleWolf
      else
        let stripped := stripAnsi text
        match find (Utf8.encode stripped) with
        | none => .error .notPurpleWolf
        | some (start, stop) =>
            match S.fromStr (sliceInclusive stripped start stop) with
            | none => .error .notPurpleWolf
            | some event =>
                if hasSignature event then
                  let (middleware, router, entryPoint) := extractTraefikEnrichment stripped
                  .ok { event, middleware, router, entryPoint }
                else .error .notPurpleWolf

def parseLine (S : Json.Codec) (bytes : Bytes) : Except ParseError ParsedAudit := parseLineWith findJsonObject S bytes

/-! ### Stripping -/

theorem stripAnsiFrom_sublist : ∀ (st : AnsiState) (s : Str), (stripAnsiFrom st s).Sublist s
  | st, [] => by cases st <;> exact List.Sublist.refl []
  | .text, c :: s => by
      unfold stripAnsiFrom
      split_ifs
      · exact (stripAnsiFrom_sublist .escape s).cons c
      · exact (stripAnsiFrom_sublist .text s).cons_cons c
  | .escape, c :: s => by
      unfold stripAnsiFrom
      split_ifs
      · exact (stripAnsiFrom_sublist .body s).cons c
      · exact (stripAnsiFrom_sublist .text s).cons c
      · exact (stripAnsiFrom_sublist .body s).cons c
  | .body, c :: s => by
      unfold stripAnsiFrom
      split_ifs
      · exact (stripAnsiFrom_sublist .text s).cons c
      · exact (stripAnsiFrom_sublist .body s).cons c

theorem stripAnsiFrom_text_eq {s : Str} (h : '\x1b' ∉ s) : stripAnsiFrom .text s = s := by
  induction s with
  | nil => rfl
  | cons c s ih =>
      rw [List.mem_cons, not_or] at h
      unfold stripAnsiFrom
      rw [if_neg (Ne.symm h.1), ih h.2]

theorem stripAnsi_eq (s : Str) : stripAnsi s = stripAnsiFrom .text s := by
  unfold stripAnsi
  split_ifs with h
  · rfl
  · exact (stripAnsiFrom_text_eq h).symm

/-- The state of the strip after a text. -/
def ansiAfter : AnsiState → Str → AnsiState
  | st, [] => st
  | .text, c :: s => if c = '\x1b' then ansiAfter .escape s else ansiAfter .text s
  | .escape, c :: s =>
      if c = '[' then ansiAfter .body s else if c.isAlpha then ansiAfter .text s else ansiAfter .body s
  | .body, c :: s => if c.isAlpha then ansiAfter .text s else ansiAfter .body s

theorem stripAnsiFrom_append (t : Str) : ∀ (s : Str) (st : AnsiState),
    stripAnsiFrom st (s ++ t) = stripAnsiFrom st s ++ stripAnsiFrom (ansiAfter st s) t
  | [], st => by cases st <;> rfl
  | c :: s, st => by
      cases st <;> simp only [List.cons_append, stripAnsiFrom, ansiAfter]
      · split_ifs
        · exact stripAnsiFrom_append t s .escape
        · rw [stripAnsiFrom_append t s .text, List.cons_append]
      · split_ifs <;> exact stripAnsiFrom_append t s _
      · split_ifs <;> exact stripAnsiFrom_append t s _

theorem ansiAfter_text_eq {s : Str} (h : '\x1b' ∉ s) : ansiAfter .text s = .text := by
  induction s with
  | nil => rfl
  | cons c s ih =>
      rw [List.mem_cons, not_or] at h
      unfold ansiAfter
      rw [if_neg (Ne.symm h.1), ih h.2]

end PurpleWolf.Relay
