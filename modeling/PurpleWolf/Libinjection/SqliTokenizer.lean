import PurpleWolf.Lib.BinarySearch
import PurpleWolf.Lib.Memory
import PurpleWolf.Libinjection.Xss
import Mathlib.Data.List.DropRight

/-! # The SQL tokenizer (`libinjection_sqli.c`)

The tokenizer reads one token a call.  The byte at the position decides which of the
`parse_...` functions reads it; a function may also read nothing but white space, or a number
that counts for nothing, and the loop goes on.  The functions are named without
`libinjection_sqli_` and `st_`.

* **Memory.**  As in the HTML tokenizer, a read outside of the input and a difference of sizes
  that would wrap are `none`, and so is a loop that runs out of fuel.
* **Keywords.**  The table of words and fingerprints has over nine thousand entries and is a
  parameter, `KeywordTable`, with what holds of the entries.
* **Characters.**  Whether `char` is signed is up to the target. -/

namespace PurpleWolf.Sqli

open Memory Html5 Xss

/-- `sqli_token_types`. -/
inductive TokenType where
  | none
  | keyword
  | union
  | group
  | expression
  | sqltype
  | function
  | bareword
  | number
  | variable
  | string
  | operator
  | logicOperator
  | comment
  | collate
  | leftparens
  | rightparens
  | leftbrace
  | rightbrace
  | dot
  | comma
  | colon
  | semicolon
  | tsql
  | unknown
  | evil
  | fingerprint
  | backslash
  deriving DecidableEq

/-- The byte of a character. -/
abbrev chr (c : Char) : UInt8 := c.toUInt8

abbrev CHAR_BACKSLASH : UInt8 := 92

/-- The character that stands for a type. -/
def TokenType.code : TokenType → UInt8
  | .none => 0
  | .keyword => chr 'k'
  | .union => chr 'U'
  | .group => chr 'B'
  | .expression => chr 'E'
  | .sqltype => chr 't'
  | .function => chr 'f'
  | .bareword => chr 'n'
  | .number => chr '1'
  | .variable => chr 'v'
  | .string => chr 's'
  | .operator => chr 'o'
  | .logicOperator => chr '&'
  | .comment => chr 'c'
  | .collate => chr 'A'
  | .leftparens => chr '('
  | .rightparens => chr ')'
  | .leftbrace => 123
  | .rightbrace => 125
  | .dot => chr '.'
  | .comma => chr ','
  | .colon => chr ':'
  | .semicolon => chr ';'
  | .tsql => chr 'T'
  | .unknown => chr '?'
  | .evil => chr 'X'
  | .fingerprint => chr 'F'
  | .backslash => CHAR_BACKSLASH

/-! ### The table -/

/-- `*a - *b` as the target sees characters. -/
def charDiff (signedChar : Bool) (a b : UInt8) : ℤ :=
  if signedChar then a.toInt8.toInt - b.toInt8.toInt else (a.toNat : ℤ) - b.toNat

/-- `cstrcasecmp(a, b, n)`, where `b` is what the `n` bytes are. -/
def cstrcasecmp (signedChar : Bool) : Bytes → Bytes → ℤ
  | a, [] => if a.headD 0 = 0 then 0 else 1
  | a, cb :: b =>
      if a.headD 0 ≠ upcase cb then charDiff signedChar (a.headD 0) (upcase cb)
      else if a.headD 0 = 0 then -1
      else cstrcasecmp signedChar a.tail b

/-- A word of the table: ASCII, in upper case. -/
def IsWord (w : Bytes) : Prop := w ≠ [] ∧ ∀ b ∈ w, 0 < b ∧ b < 128 ∧ upcase b = b

/-- The types that words have. -/
def KEYWORD_TYPES : List TokenType :=
  [.keyword, .union, .group, .expression, .sqltype, .function, .bareword, .number, .variable, .operator,
    .logicOperator, .collate, .tsql, .fingerprint]

/-- `sql_keywords`. -/
structure KeywordTable where
  entries : List (Bytes × TokenType)
  nonempty : entries ≠ []
  sorted : entries.Pairwise fun e e' => e.1 < e'.1
  words : ∀ e ∈ entries, IsWord e.1
  types : ∀ e ∈ entries, e.2 ∈ KEYWORD_TYPES

section

variable (signedChar : Bool)

def bsearchKeywordType (key : Bytes) (keywords : List (Bytes × TokenType)) : Option TokenType := do
  let right ← sizeSub keywords.length 1
  let k ← BinarySearch.search (fun e => cstrcasecmp signedChar e.1 key < 0) keywords (keywords.length + 1) 0 right
  let e ← keywords[k]?
  if cstrcasecmp signedChar e.1 key = 0 then some e.2 else some .none

def isKeyword (T : KeywordTable) (key : Bytes) : Option TokenType := bsearchKeywordType signedChar key T.entries

end

/-! ### Tokens -/

def TOKEN_SIZE : ℕ := 32

/-- `stoken_t`; `val` holds the `len` bytes in front of the final NUL. -/
structure Token where
  pos : ℕ
  type : TokenType
  strOpen : UInt8
  strClose : UInt8
  val : Bytes
  deriving DecidableEq

namespace Token

def clear : Token := ⟨0, .none, 0, 0, []⟩

/-- `val[i]`, up to the final NUL. -/
def char (st : Token) (i : ℕ) : UInt8 := st.val.getD i 0

/-- `val` as a C string. -/
def cstr (st : Token) : Bytes := st.val.takeWhile (· ≠ 0)

def isArithmeticOp (st : Token) : Bool :=
  st.type = .operator && st.val.length = 1 && (ascii "*/-+%").contains (st.char 0)

def isUnaryOp (signedChar : Bool) (st : Token) : Bool :=
  if st.type ≠ .operator then false
  else
    match st.val.length with
    | 1 => (ascii "+-!~").contains (st.char 0)
    | 2 => st.char 0 = chr '!' && st.char 1 = chr '!'
    | 3 => cstrcasecmp signedChar (ascii "NOT") st.val = 0
    | _ => false

end Token

/-- `FLAG_QUOTE_NONE`, `FLAG_QUOTE_SINGLE` and `FLAG_QUOTE_DOUBLE`. -/
inductive Quote where
  | none
  | single
  | double
  deriving DecidableEq

/-- The flags; the dialect is `FLAG_SQL_MYSQL` or `FLAG_SQL_ANSI`. -/
structure Flags where
  quote : Quote
  mysql : Bool
  deriving DecidableEq

def flag2delim : Quote → UInt8
  | .single => CHAR_SINGLE
  | .double => CHAR_DOUBLE
  | .none => 0

/-- `struct libinjection_sqli_state` as the tokenizer uses it; of two counters only whether
they are zero is asked. -/
structure SqliState where
  s : Bytes
  flags : Flags
  pos : ℕ
  current : Token
  commentDdx : Bool
  commentHash : Bool
  tokens : ℕ
  deriving DecidableEq

namespace SqliState

/-- `slen`. -/
def len (sf : SqliState) : ℕ := sf.s.length

/-- `st_assign_char(sf->current, type, pos, 1, value)`; the tokenizer goes on at `next`. -/
def assignChar (sf : SqliState) (type : TokenType) (pos : ℕ) (value : UInt8) (next : ℕ) : SqliState :=
  { sf with current := { sf.current with type := type, pos := pos, val := [value] }, pos := next }

/-- `st_assign(sf->current, type, pos, len, cs + pos)`; the tokenizer goes on at `next`. -/
def assign (sf : SqliState) (type : TokenType) (pos n next : ℕ) : Option SqliState := do
  let val ← slice sf.s pos (if n < TOKEN_SIZE then n else TOKEN_SIZE - 1)
  some { sf with current := { sf.current with type := type, pos := pos, val := val }, pos := next }

/-- `str_open` and `str_close` are set. -/
def withQuotes (sf : SqliState) (strOpen strClose : UInt8) : SqliState :=
  { sf with current := { sf.current with strOpen := strOpen, strClose := strClose } }

def withType (sf : SqliState) (type : TokenType) : SqliState := { sf with current := { sf.current with type := type } }

/-- `cs[i] == ch`. -/
def charIs (sf : SqliState) (i : ℕ) (ch : UInt8) : Option Bool := (sf.s[i]?).map (· == ch)

end SqliState

/-- `c && t` where `t` reads. -/
def andAlso (c : Prop) [Decidable c] (t : Option Bool) : Option Bool := if c then t else some false

def memchr2 (s : Bytes) (pos n : ℕ) (c0 c1 : UInt8) : Option (Option ℕ) := memmem s pos n [c0, c1]

/-- `strchr(accept, ch) != NULL`; the NUL at the end of the list is found as well. -/
def inList (accept : Bytes) (ch : UInt8) : Bool := ch == 0 || accept.contains ch

def charIsWhite (ch : UInt8) : Bool := inList [32, 9, 10, 11, 12, 13, 160] ch

def isDigit (ch : UInt8) : Bool := 48 ≤ ch && ch ≤ 57

/-- What ends a word. -/
def wordEnd (ch : UInt8) : Bool := inList (ascii " []\x7b\x7d<>:\\?=@!#~+-*/&|^%(),';\t\n\"" ++ [11, 12, 13, 160]) ch

/-- What ends the name of a variable. -/
def varEnd (ch : UInt8) : Bool := inList (ascii " <>:\\?=@!#~+-*/&|^%(),';\t\n\"" ++ [11, 12, 13, CHAR_TICK]) ch

namespace SqliState

/-! ### Single characters and comments -/

def parseWhite (sf : SqliState) : Option SqliState := some { sf with pos := sf.pos + 1 }

def parseOperator1 (sf : SqliState) : Option SqliState := do
  let ch ← sf.s[sf.pos]?
  some (sf.assignChar .operator sf.pos ch (sf.pos + 1))

def parseOther (sf : SqliState) : Option SqliState := do
  let ch ← sf.s[sf.pos]?
  some (sf.assignChar .unknown sf.pos ch (sf.pos + 1))

/-- The characters that are types of their own. -/
def charType (ch : UInt8) : TokenType :=
  if ch = chr '(' then .leftparens
  else if ch = chr ')' then .rightparens
  else if ch = chr ',' then .comma
  else if ch = chr ';' then .semicolon
  else if ch = 123 then .leftbrace
  else if ch = 125 then .rightbrace
  else .none

def parseChar (sf : SqliState) : Option SqliState := do
  let ch ← sf.s[sf.pos]?
  some (sf.assignChar (charType ch) sf.pos ch (sf.pos + 1))

def parseEolComment (sf : SqliState) : Option SqliState := do
  match ← memchr sf.s sf.pos 10 with
  | none => sf.assign .comment sf.pos (← sizeSub sf.len sf.pos) sf.len
  | some endpos => sf.assign .comment sf.pos (endpos - sf.pos) (endpos + 1)

def parseHash (sf : SqliState) : Option SqliState :=
  let sf := { sf with commentHash := true }
  if sf.flags.mysql then sf.parseEolComment
  else some (sf.assignChar .operator sf.pos (chr '#') (sf.pos + 1))

def parseDash (sf : SqliState) : Option SqliState := do
  if ← andAlso (sf.pos + 2 < sf.len) (do
      some ((← sf.charIs (sf.pos + 1) CHAR_DASH) && charIsWhite (← sf.s[sf.pos + 2]?))) then
    sf.parseEolComment
  else if ← andAlso (sf.pos + 2 = sf.len) (sf.charIs (sf.pos + 1) CHAR_DASH) then sf.parseEolComment
  -- `--x` is a comment for everyone but MySQL
  else if ← andAlso (sf.pos + 1 < sf.len) (do some ((← sf.charIs (sf.pos + 1) CHAR_DASH) && !sf.flags.mysql)) then
    parseEolComment { sf with commentDdx := true }
  else some (sf.assignChar .operator sf.pos CHAR_DASH (sf.pos + 1))

def isMysqlComment (sf : SqliState) : Option Bool := andAlso (sf.pos + 2 < sf.len) (sf.charIs (sf.pos + 2) CHAR_BANG)

def parseSlash (sf : SqliState) : Option SqliState := do
  if !(← andAlso (sf.pos + 1 ≠ sf.len) (sf.charIs (sf.pos + 1) (chr '*'))) then sf.parseOperator1
  else
    let rest ← sizeSub sf.len (sf.pos + 2)
    match ← memchr2 sf.s (sf.pos + 2) rest (chr '*') CHAR_SLASH with
    | none =>
        let type := if ← sf.isMysqlComment then .evil else .comment
        let clen ← sizeSub sf.len sf.pos
        sf.assign type sf.pos clen (sf.pos + clen)
    | some ptr =>
        -- PostgreSQL allows comments in comments
        let nested ← memchr2 sf.s (sf.pos + 2) (ptr - (sf.pos + 1)) CHAR_SLASH (chr '*')
        let type := if nested.isSome || (← sf.isMysqlComment) then .evil else .comment
        let clen := ptr + 2 - sf.pos
        sf.assign type sf.pos clen (sf.pos + clen)

def parseBackslash (sf : SqliState) : Option SqliState := do
  if ← andAlso (sf.pos + 1 < sf.len) (sf.charIs (sf.pos + 1) (chr 'N')) then sf.assign .number sf.pos 2 (sf.pos + 2)
  else
    let ch ← sf.s[sf.pos]?
    some (sf.assignChar .backslash sf.pos ch (sf.pos + 1))

/-! ### Strings -/

/-- `is_backslash_escaped(end, start)` on the bytes in between. -/
def isBackslashEscaped (w : Bytes) : Bool := (w.rtakeWhile (· = CHAR_BACKSLASH)).length % 2 = 1

def isDoubleDelimEscaped (sf : SqliState) (cur : ℕ) : Option Bool :=
  andAlso (cur + 1 < sf.len) (do some ((← sf.s[cur + 1]?) == (← sf.s[cur]?)))

/-- The loop of `parse_string_core`, for a string that starts at `start`. -/
def stringLoop (sf : SqliState) (delim : UInt8) (start : ℕ) : ℕ → Option ℕ → Option SqliState
  | 0, _ => none
  | _ + 1, none => do
      -- no trailing quote
      let st ← sf.assign .string start (← sizeSub sf.len start) sf.len
      some (st.withQuotes st.current.strOpen 0)
  | fuel + 1, some qpos => do
      if isBackslashEscaped (← slice sf.s start (qpos - start)) then
        sf.stringLoop delim start fuel (← memchr sf.s (qpos + 1) delim)
      else if ← sf.isDoubleDelimEscaped qpos then
        sf.stringLoop delim start fuel (← memchr sf.s (qpos + 2) delim)
      else
        let st ← sf.assign .string start (qpos - start) (qpos + 1)
        some (st.withQuotes st.current.strOpen delim)

/-- `parse_string_core(cs, len, pos, st, delim, offset)`; without an offset the quote in front
is only imagined. -/
def parseStringCore (sf : SqliState) (pos : ℕ) (delim : UInt8) (offset : ℕ) : Option SqliState := do
  let qpos ← memchr sf.s (pos + offset) delim
  let sf := sf.withQuotes (if 0 < offset then delim else 0) sf.current.strClose
  sf.stringLoop delim (pos + offset) (sf.len + 1) qpos

def parseString (sf : SqliState) : Option SqliState := do
  sf.parseStringCore sf.pos (← sf.s[sf.pos]?) 1

def parseBword (sf : SqliState) : Option SqliState := do
  match ← memchr sf.s sf.pos CHAR_RIGHTB with
  | none => sf.assign .bareword sf.pos (← sizeSub sf.len sf.pos) sf.len
  | some endptr => sf.assign .bareword sf.pos (endptr - sf.pos + 1) (endptr + 1)

end SqliState

/-! ### Words and numbers -/

section Words

variable (signedChar : Bool) (T : KeywordTable)

namespace SqliState

/-- The loop of `parse_word` over the word: where it ends because a keyword stands in front of
a dot or a back tick, and the type of the keyword. -/
def keywordBefore (val : Bytes) : ℕ → Bytes → Option (Option (ℕ × TokenType))
  | _, [] => some none
  | i, delim :: rest => do
      if delim = chr '.' ∨ delim = CHAR_TICK then
        let ch ← isKeyword signedChar T (val.take i)
        if ch ≠ .none ∧ ch ≠ .bareword then some (some (i, ch)) else keywordBefore val (i + 1) rest
      else keywordBefore val (i + 1) rest

def parseWord (sf : SqliState) : Option SqliState := do
  let wlen ← span (fun ch => !wordEnd ch) sf.s sf.pos
  let word ← sf.assign .bareword sf.pos wlen (sf.pos + wlen)
  match ← keywordBefore signedChar T word.current.val 0 word.current.val with
  | some (i, ch) => assign { sf with current := .clear } ch sf.pos i (sf.pos + i)
  | none =>
      if wlen < TOKEN_SIZE then
        let ch ← isKeyword signedChar T word.current.val
        some (word.withType (if ch = .none then .bareword else ch))
      else some word

def parseTick (sf : SqliState) : Option SqliState := do
  let sf ← sf.parseStringCore sf.pos CHAR_TICK 1
  let ch ← isKeyword signedChar T sf.current.val
  some (sf.withType (if ch = .function then .function else .bareword))

def parseOperator2 (sf : SqliState) : Option SqliState := do
  if sf.len ≤ sf.pos + 1 then sf.parseOperator1
  else if ← andAlso (sf.pos + 2 < sf.len) (do
      some ((← sf.charIs sf.pos CHAR_LT) && (← sf.charIs (sf.pos + 1) CHAR_EQUALS) &&
      (← sf.charIs (sf.pos + 2) CHAR_GT))) then
    sf.assign .operator sf.pos 3 (sf.pos + 3)
  else
    let ch ← isKeyword signedChar T (← slice sf.s sf.pos 2)
    if ch ≠ .none then sf.assign ch sf.pos 2 (sf.pos + 2)
    else if ← sf.charIs sf.pos (chr ':') then sf.assign .colon sf.pos 1 (sf.pos + 1)
    else sf.parseOperator1

def parseEstring (sf : SqliState) : Option SqliState := do
  if ← andAlso (sf.pos + 2 < sf.len) (sf.charIs (sf.pos + 1) CHAR_SINGLE) then
    sf.parseStringCore sf.pos CHAR_SINGLE 2
  else sf.parseWord signedChar T

def parseUstring (sf : SqliState) : Option SqliState := do
  if ← andAlso (sf.pos + 2 < sf.len) (do
      some ((← sf.charIs (sf.pos + 1) (chr '&')) && (← sf.charIs (sf.pos + 2) CHAR_SINGLE))) then
    let st ← parseString { sf with pos := sf.pos + 2 }
    some (st.withQuotes (chr 'u') (if st.current.strClose = CHAR_SINGLE then chr 'u' else st.current.strClose))
  else sf.parseWord signedChar T

/-- What closes a `q` string that `ch` opens. -/
def closing (ch : UInt8) : UInt8 :=
  if ch = chr '(' then chr ')' else if ch = chr '[' then CHAR_RIGHTB else if ch = 123 then 125
  else if ch = CHAR_LT then CHAR_GT else ch

def parseQstringCore (sf : SqliState) (offset : ℕ) : Option SqliState := do
  let pos := sf.pos + offset
  if ← andAlso (pos < sf.len) (do
      if (← sf.charIs pos (chr 'q')) || (← sf.charIs pos (chr 'Q')) then
        andAlso (pos + 2 < sf.len) (sf.charIs (pos + 1) CHAR_SINGLE)
      else some false) then
    let ch ← sf.s[pos + 2]?
    if charDiff signedChar ch 33 < 0 then sf.parseWord signedChar T
    else
      let rest ← sizeSub sf.len (pos + 3)
      match ← memchr2 sf.s (pos + 3) rest (closing ch) CHAR_SINGLE with
      | none =>
          let st ← sf.assign .string (pos + 3) rest sf.len
          some (st.withQuotes (chr 'q') 0)
      | some strend =>
          let st ← sf.assign .string (pos + 3) (strend - (pos + 3)) (strend + 2)
          some (st.withQuotes (chr 'q') (chr 'q'))
  else sf.parseWord signedChar T

def parseQstring (sf : SqliState) : Option SqliState := sf.parseQstringCore signedChar T 0

def parseNqstring (sf : SqliState) : Option SqliState := do
  if ← andAlso (sf.pos + 2 < sf.len) (sf.charIs (sf.pos + 1) CHAR_SINGLE) then sf.parseEstring signedChar T
  else sf.parseQstringCore signedChar T 1

/-- What `parse_bstring` and `parse_xstring` do with their digits. -/
def parseDigitString (digits : Bytes) (sf : SqliState) : Option SqliState := do
  if ← andAlso (sf.pos + 2 < sf.len) (sf.charIs (sf.pos + 1) CHAR_SINGLE) then
    let wlen ← span (inList digits) sf.s (sf.pos + 2)
    if ← andAlso (sf.pos + 2 + wlen < sf.len) (sf.charIs (sf.pos + 2 + wlen) CHAR_SINGLE) then
      sf.assign .number sf.pos (wlen + 3) (sf.pos + 2 + wlen + 1)
    else sf.parseWord signedChar T
  else sf.parseWord signedChar T

def parseBstring (sf : SqliState) : Option SqliState := sf.parseDigitString signedChar T (ascii "01")

def parseXstring (sf : SqliState) : Option SqliState :=
  sf.parseDigitString signedChar T (ascii "0123456789ABCDEFabcdef")

def parseVar (sf : SqliState) : Option SqliState := do
  let doubled ← andAlso (sf.pos + 1 < sf.len) (sf.charIs (sf.pos + 1) (chr '@'))
  let pos := if doubled then sf.pos + 2 else sf.pos + 1
  if ← andAlso (pos < sf.len) (sf.charIs pos CHAR_TICK) then
    let st ← parseTick signedChar T { sf with pos := pos }
    some (st.withType .variable)
  else if ← andAlso (pos < sf.len) (do some ((← sf.charIs pos CHAR_SINGLE) || (← sf.charIs pos CHAR_DOUBLE))) then
    let st ← parseString { sf with pos := pos }
    some (st.withType .variable)
  else
    let xlen ← span (fun ch => !varEnd ch) sf.s pos
    sf.assign .variable pos xlen (pos + xlen)

/-- The tail of `parse_money`: a string between two `tag`s. -/
def parseTagged (sf : SqliState) (tag : ℕ) (strend : Option ℕ) : Option SqliState := do
  match strend with
  | none =>
      let st ← sf.assign .string (sf.pos + tag) (← sizeSub sf.len (sf.pos + tag)) sf.len
      some (st.withQuotes (chr '$') 0)
  | some strend =>
      let st ← sf.assign .string (sf.pos + tag) (strend - (sf.pos + tag)) (strend + tag)
      some (st.withQuotes (chr '$') (chr '$'))

def parseMoney (sf : SqliState) : Option SqliState := do
  let dollar := sf.assignChar .bareword sf.pos (chr '$') (sf.pos + 1)
  if sf.pos + 1 = sf.len then some dollar
  else
    let xlen ← span (inList (ascii "0123456789.,")) sf.s (sf.pos + 1)
    if xlen = 0 then
      if ← sf.charIs (sf.pos + 1) (chr '$') then
        let rest ← sizeSub sf.len (sf.pos + 2)
        sf.parseTagged 2 (← memchr2 sf.s (sf.pos + 2) rest (chr '$') (chr '$'))
      else
        let xlen ← span (inList (ascii "abcdefghjiklmnopqrstuvwxyzABCDEFGHIJKLMNOPQRSTUVWXYZ")) sf.s (sf.pos + 1)
        if xlen = 0 then some dollar
        else if !(← andAlso (sf.pos + xlen + 1 ≠ sf.len) (sf.charIs (sf.pos + xlen + 1) (chr '$'))) then some dollar
        else
          let rest ← sizeSub sf.len (sf.pos + xlen + 2)
          let tag ← slice sf.s sf.pos (xlen + 2)
          sf.parseTagged (xlen + 2) (← memmem sf.s (sf.pos + xlen + 2) rest tag)
    else if ← andAlso (xlen = 1) (sf.charIs (sf.pos + 1) (chr '.')) then sf.parseWord signedChar T
    else sf.assign .number sf.pos (1 + xlen) (sf.pos + 1 + xlen)

/-- The digits of a number that starts with `0x` or `0b`. -/
def baseDigits (ch : UInt8) : Option Bytes :=
  if ch = chr 'X' ∨ ch = chr 'x' then some (ascii "0123456789ABCDEFabcdef")
  else if ch = chr 'B' ∨ ch = chr 'b' then some (ascii "01")
  else none

/-- The digits of the number at the position, when it starts with `0x` or `0b`. -/
def numberBase (sf : SqliState) : Option (Option Bytes) := do
  let zero ← sf.charIs sf.pos (chr '0')
  if zero ∧ sf.pos + 1 < sf.len then (sf.s[sf.pos + 1]?).map baseDigits else some none

/-- The digits at the position and the decimal point: whether there is one, and the bytes that
are read. -/
def mantissa (sf : SqliState) : Option (Bool × ℕ) := do
  let whole ← span isDigit sf.s sf.pos
  let point ← andAlso (sf.pos + whole < sf.len) (sf.charIs (sf.pos + whole) (chr '.'))
  if point then (span isDigit sf.s (sf.pos + whole + 1)).map fun frac => (true, whole + 1 + frac)
  else some (false, whole)

/-- The exponent at `pos`: whether there is an `e` that no digit follows, and where the exponent
ends. -/
def exponent (sf : SqliState) (pos : ℕ) : Option (Bool × ℕ) := do
  if ← andAlso (pos < sf.len) (do some ((← sf.charIs pos (chr 'E')) || (← sf.charIs pos (chr 'e')))) then
    let signed ← andAlso (pos + 1 < sf.len)
      (do some ((← sf.charIs (pos + 1) (chr '+')) || (← sf.charIs (pos + 1) CHAR_DASH)))
    let start := if signed then pos + 2 else pos + 1
    let n ← span isDigit sf.s start
    some (decide (n = 0), start + n)
  else some (false, pos)

/-- Whether the suffix of a number stands at `pos`. -/
def hasSuffix (sf : SqliState) (pos : ℕ) : Option Bool :=
  andAlso (pos < sf.len) (do
    if (ascii "dDfF").contains (← sf.s[pos]?) then
      if pos + 1 = sf.len then some true
      else
        let ch ← sf.s[pos + 1]?
        some (charIsWhite ch || ch == chr ';' || ch == chr 'u' || ch == chr 'U')
    else some false)

def parseNumber (sf : SqliState) : Option SqliState := do
  match ← sf.numberBase with
  | some digits =>
      let xlen ← span (inList digits) sf.s (sf.pos + 2)
      if xlen = 0 then sf.assign .bareword sf.pos 2 (sf.pos + 2)
      else sf.assign .number sf.pos (2 + xlen) (sf.pos + 2 + xlen)
  | none =>
      let (point, n) ← sf.mantissa
      if point ∧ n = 1 then some (sf.assignChar .dot sf.pos (chr '.') (sf.pos + 1))
      else
        let (bare, stop) ← sf.exponent (sf.pos + n)
        let stop := if ← sf.hasSuffix stop then stop + 1 else stop
        -- an `e` without digits, as in `1.e(1)`, which MySQL ignores
        if bare then some { sf with pos := stop } else sf.assign .number sf.pos (stop - sf.pos) stop

end SqliState

end Words

/-! ### The tokenizer -/

/-- What `char_parse_map` points to. -/
inductive ParseFn where
  | white
  | operator1
  | operator2
  | other
  | char
  | hash
  | dash
  | slash
  | backslash
  | string
  | word
  | tick
  | var
  | money
  | number
  | bstring
  | estring
  | nqstring
  | qstring
  | ustring
  | xstring
  | bword
  deriving DecidableEq

def charParseMap (ch : UInt8) : ParseFn :=
  if ch ≤ 32 ∨ ch = 127 ∨ ch = 160 then .white
  else if (ascii "!&*:<=>|").contains ch then .operator2
  else if ch = CHAR_SINGLE ∨ ch = CHAR_DOUBLE then .string
  else if ch = chr '#' then .hash
  else if ch = chr '$' then .money
  else if (ascii "%+^~").contains ch then .operator1
  else if (ascii "(),;\x7b\x7d").contains ch then .char
  else if ch = CHAR_DASH then .dash
  else if (ascii ".0123456789").contains ch then .number
  else if ch = CHAR_SLASH then .slash
  else if ch = CHAR_QUESTION ∨ ch = CHAR_RIGHTB then .other
  else if ch = chr '@' then .var
  else if ch = chr '[' then .bword
  else if ch = CHAR_BACKSLASH then .backslash
  else if ch = CHAR_TICK then .tick
  else if ch = chr 'B' ∨ ch = chr 'b' then .bstring
  else if ch = chr 'E' ∨ ch = chr 'e' then .estring
  else if ch = chr 'N' ∨ ch = chr 'n' then .nqstring
  else if ch = chr 'Q' ∨ ch = chr 'q' then .qstring
  else if ch = chr 'U' ∨ ch = chr 'u' then .ustring
  else if ch = chr 'X' ∨ ch = chr 'x' then .xstring
  else .word

section Tokenize

variable (signedChar : Bool) (T : KeywordTable)

/-- The function that is called. -/
def ParseFn.run (sf : SqliState) : ParseFn → Option SqliState
  | .white => sf.parseWhite
  | .operator1 => sf.parseOperator1
  | .operator2 => sf.parseOperator2 signedChar T
  | .other => sf.parseOther
  | .char => sf.parseChar
  | .hash => sf.parseHash
  | .dash => sf.parseDash
  | .slash => sf.parseSlash
  | .backslash => sf.parseBackslash
  | .string => sf.parseString
  | .word => sf.parseWord signedChar T
  | .tick => sf.parseTick signedChar T
  | .var => sf.parseVar signedChar T
  | .money => sf.parseMoney signedChar T
  | .number => sf.parseNumber
  | .bstring => sf.parseBstring signedChar T
  | .estring => sf.parseEstring signedChar T
  | .nqstring => sf.parseNqstring signedChar T
  | .qstring => sf.parseQstring signedChar T
  | .ustring => sf.parseUstring signedChar T
  | .xstring => sf.parseXstring signedChar T
  | .bword => sf.parseBword

namespace SqliState

/-- The loop of `libinjection_sqli_tokenize`. -/
def tokenizeLoop : ℕ → SqliState → Option (Bool × SqliState)
  | 0, _ => none
  | fuel + 1, sf =>
      if sf.pos < sf.len then do
        let ch ← sf.s[sf.pos]?
        let sf ← (charParseMap ch).run signedChar T sf
        if sf.current.type ≠ .none then some (true, { sf with tokens := sf.tokens + 1 }) else tokenizeLoop fuel sf
      else some (false, sf)

def tokenize (sf : SqliState) : Option (Bool × SqliState) :=
  if sf.len = 0 then some (false, sf)
  else
    let sf := { sf with current := .clear }
    if sf.pos = 0 ∧ sf.flags.quote ≠ .none then do
      -- as if the input stood behind a quote
      let sf ← sf.parseStringCore 0 (flag2delim sf.flags.quote) 0
      some (true, { sf with tokens := sf.tokens + 1 })
    else sf.tokenizeLoop signedChar T (sf.len + 1)

def init (s : Bytes) (flags : Flags) : SqliState where
  s := s
  flags := flags
  pos := 0
  current := .clear
  commentDdx := false
  commentHash := false
  tokens := 0

end SqliState

end Tokenize

end PurpleWolf.Sqli
