import PurpleWolf.Libinjection.SqliFold

/-! # The SQL injection detector (`libinjection_sqli.c`, `ffi.rs`)

The types of the folded tokens are the fingerprint of the input.  The input is reported when
the fingerprint is in the table (`blacklist`) and none of the exceptions of `notWhitelist` is
made for it.  It is read as it stands, and as if it stood behind a single or a double quote
when it has one. -/

namespace PurpleWolf.Sqli

open Memory Html5 Xss

/-- What one reading of the input leaves behind. -/
structure Reading where
  sf : SqliState
  toks : List Token
  fingerprint : List TokenType
  deriving DecidableEq

/-- The size of `fingerprint` and of `fp2`. -/
def FINGERPRINT_SIZE : ℕ := 8

/-- A PHP comment: an empty word behind a back tick at the end. -/
def Token.isTickComment (st : Token) : Bool :=
  st.type = .bareword && st.strOpen = CHAR_TICK && st.val.length = 0 && st.strClose = 0

/-- The last of more than two tokens may be a comment. -/
def markTickComment (toks : List Token) : List Token :=
  match toks.getLast? with
  | some last =>
      if 2 < toks.length ∧ last.isTickComment then toks.set (toks.length - 1) (last.withType .comment) else toks
  | none => toks

section

variable (signedChar : Bool) (T : KeywordTable)

/-- `libinjection_sqli_fingerprint(sql_state, flags)`.  Where a token is evil, the fingerprint
says no more than that. -/
def fingerprint (s : Bytes) (flags : Flags) : Option Reading := do
  let (sf, toks) ← (SqliState.init s flags).fold signedChar T
  let toks := markTickComment toks
  if FINGERPRINT_SIZE ≤ toks.length then none
  else
    let types := (toks.map Token.type).takeWhile (· ≠ .none)
    some ⟨sf, toks, if .evil ∈ types then [.evil] else types⟩

namespace Reading

def blacklist (r : Reading) : Option Bool := do
  if r.fingerprint.length < 1 then some false
  else if FINGERPRINT_SIZE ≤ r.fingerprint.length + 1 then none
  else
    let ch ← isKeyword signedChar T (chr '0' :: r.fingerprint.map fun type => upcase type.code)
    some (decide (ch = .fingerprint))

/-- The exceptions for two tokens. -/
def notWhitelistTwo (r : Reading) : Option Bool := do
  if r.fingerprint[1]? = some .union then some (decide (r.sf.tokens ≠ 2))
  else
    let t0 ← r.toks[0]?
    let t1 ← r.toks[1]?
    if t1.char 0 = chr '#' then some false
    -- `foo --` is no comment, `foo /*` is
    else if t0.type = .bareword ∧ t1.type = .comment ∧ t1.char 0 ≠ CHAR_SLASH then some false
    else if t0.type = .number ∧ t1.type = .comment ∧ t1.char 0 = CHAR_SLASH then some true
    else if t0.type = .number ∧ t1.type = .comment then
      if 2 < r.sf.tokens then some true
      else
        -- the byte behind the number, as if the input started with it
        let ch ← r.sf.s[t0.val.length]?
        if charDiff signedChar ch 32 ≤ 0 then some true
        else if ← andAlso (ch = CHAR_SLASH) (r.sf.charIs (t0.val.length + 1) (chr '*')) then some true
        else andAlso (ch = CHAR_DASH) (r.sf.charIs (t0.val.length + 1) CHAR_DASH)
    else some (!(2 < t1.val.length && t1.char 0 = CHAR_DASH))

/-- The exceptions for three tokens. -/
def notWhitelistThree (r : Reading) : Option Bool := do
  if r.fingerprint = [.string, .operator, .string] ∨ r.fingerprint = [.string, .logicOperator, .string] then
    let t0 ← r.toks[0]?
    let t2 ← r.toks[2]?
    -- `foo" + "bar`
    some (decide (t0.strOpen = 0 ∧ t2.strClose = 0 ∧ t0.strClose = t2.strOpen))
  else if r.fingerprint ∈ [[.string, .logicOperator, .bareword], [.bareword, .logicOperator, .number],
      [.number, .logicOperator, .number], [.number, .logicOperator, .variable], [.number, .logicOperator, .string]] then
    some (decide (r.sf.tokens ≠ 3))
  else
    let t1 ← r.toks[1]?
    if t1.type = .keyword then
      -- `INTO OUTFILE`, `INTO DUMPFILE`
      some (decide (5 ≤ t1.val.length ∧ cstrcasecmp signedChar (ascii "INTO") (t1.val.take 4) = 0))
    else some true

def notWhitelist (r : Reading) : Option Bool := do
  if ← andAlso (1 < r.fingerprint.length ∧ r.fingerprint.getLast? = some .comment) (do
      some (← memmem r.sf.s 0 r.sf.len (ascii "sp_password")).isSome) then
    some true
  else if r.fingerprint.length = 2 then r.notWhitelistTwo signedChar
  else if r.fingerprint.length = 3 then r.notWhitelistThree signedChar
  else some true

/-- `libinjection_sqli_check_fingerprint`. -/
def check (r : Reading) : Option Bool := do
  if ← r.blacklist signedChar T then r.notWhitelist signedChar else some false

def reparseAsMysql (r : Reading) : Bool := r.sf.commentDdx || r.sf.commentHash

end Reading

/-- One reading of the input, and whether it is reported. -/
def checkAs (s : Bytes) (flags : Flags) : Option (Reading × Bool) := do
  let r ← fingerprint signedChar T s flags
  some (r, ← r.check signedChar T)

/-- The readings of the input behind a quote, or none: in ANSI mode, and again in MySQL mode when
there are comments that MySQL reads in another way. -/
def isSqliBehind (s : Bytes) (quote : Quote) : Option Bool := do
  let (r, reported) ← checkAs signedChar T s ⟨quote, false⟩
  if reported then some true
  else if r.reparseAsMysql then (checkAs signedChar T s ⟨quote, true⟩).map Prod.snd
  else some false

def libinjectionIsSqli (s : Bytes) : Option Bool := do
  if s.length = 0 then some false
  else if ← isSqliBehind signedChar T s .none then some true
  else if ← andAlso (← memchr s 0 CHAR_SINGLE).isSome (isSqliBehind signedChar T s .single) then some true
  else if (← memchr s 0 CHAR_DOUBLE).isSome then (checkAs signedChar T s ⟨.double, true⟩).map Prod.snd
  else some false

def isSqli (s : Bytes) : Bool := libinjectionIsSqli signedChar T s = some true

end

end PurpleWolf.Sqli
