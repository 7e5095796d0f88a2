import PurpleWolf.Basic
import PurpleWolf.Lib.Memory

/-! # The HTML tokenizer (`libinjection_html5.c`)

The tokenizer walks over the input and hands out one token a call; between two calls it
keeps its position and the function that goes on from there (`State`).  The functions are named
without `h5_state_` and `libinjection_h5_`.

* **Memory.**  The C code is handed a pointer and a length.  Every read and every difference
  of sizes goes through `Memory`, so a call that would read outside of the input returns
  `none`.
* **Recursion.**  The functions call each other; `fuel` bounds how deep.  A call that runs out
  of it returns `none` as well, so one theorem about `next` excludes both.
* **Characters.**  Whether `char` is signed is up to the target.  It matters once: `skipWhite`
  returns a character as an `int`, and `-1` stands for the end of the input. -/

namespace PurpleWolf.Html5

open Memory

/-- `injection_result_t`. -/
inductive InjectionResult where
  | false
  | true
  | error
  deriving DecidableEq

/-- `enum html5_type`. -/
inductive TokenType where
  | dataText
  | tagNameOpen
  | tagNameClose
  | tagNameSelfclose
  | tagData
  | tagClose
  | attrName
  | attrValue
  | tagComment
  | doctype
  deriving DecidableEq

/-- `enum html5_flags`. -/
inductive Flags where
  | dataState
  | valueNoQuote
  | valueSingleQuote
  | valueDoubleQuote
  | valueBackQuote
  deriving DecidableEq

/-- What `hs->state` may point to. -/
inductive State where
  | eof
  | data
  | tagOpen
  | tagNameClose
  | selfClosingStartTag
  | beforeAttributeName
  | afterAttributeName
  | beforeAttributeValue
  | afterAttributeValueQuoted
  | attributeValueSingleQuote
  | attributeValueDoubleQuote
  | attributeValueBackQuote
  deriving DecidableEq

/-- `h5_state_t`; `len` is the length of `s`, and a token starts at an index. -/
structure H5 where
  s : Bytes
  pos : ℕ
  isClose : Bool
  state : State
  tokenStart : ℕ
  tokenLen : ℕ
  tokenType : TokenType
  deriving DecidableEq

abbrev CHAR_BANG : UInt8 := 33
abbrev CHAR_DOUBLE : UInt8 := 34
abbrev CHAR_PERCENT : UInt8 := 37
abbrev CHAR_SINGLE : UInt8 := 39
abbrev CHAR_DASH : UInt8 := 45
abbrev CHAR_SLASH : UInt8 := 47
abbrev CHAR_LT : UInt8 := 60
abbrev CHAR_EQUALS : UInt8 := 61
abbrev CHAR_GT : UInt8 := 62
abbrev CHAR_QUESTION : UInt8 := 63
abbrev CHAR_RIGHTB : UInt8 := 93
abbrev CHAR_TICK : UInt8 := 96

/-- `ch >= 'a' && ch <= 'z' || ch >= 'A' && ch <= 'Z'`. -/
def isLetter (ch : UInt8) : Bool := (97 ≤ ch && ch ≤ 122) || (65 ≤ ch && ch ≤ 90)

/-- `h5_is_white(ch)`.  `strchr` also finds the NUL at the end of its list. -/
def isWhite (ch : UInt8) : Bool := [32, 9, 10, 11, 12, 13, 0].contains ch

namespace H5

def len (h : H5) : ℕ := h.s.length

def init (s : Bytes) (flags : Flags) : H5 where
  s := s
  pos := 0
  isClose := false
  state :=
    match flags with
    | .dataState => .data
    | .valueNoQuote => .beforeAttributeName
    | .valueSingleQuote => .attributeValueSingleQuote
    | .valueDoubleQuote => .attributeValueDoubleQuote
    | .valueBackQuote => .attributeValueBackQuote
  tokenStart := 0
  tokenLen := 0
  tokenType := .dataText

/-- What a state function returns: nothing when it has left the memory. -/
abbrev Next := Option (InjectionResult × H5)

/-- A token from `start` on, `n` bytes long; the tokenizer goes on at `pos`. -/
def emit (h : H5) (type : TokenType) (start n pos : ℕ) (state : State) : Next :=
  some (.true, { h with tokenType := type, tokenStart := start, tokenLen := n, pos := pos, state := state })

/-- The rest of the input is the last token. -/
def emitRest (h : H5) (type : TokenType) (pos : ℕ) : Next := do
  let n ← sizeSub h.len h.pos
  h.emit type h.pos n pos .eof

def stateEof (h : H5) : Next := some (.false, h)

/-! ### Comments and declarations -/

def bogusComment (h : H5) : Next := do
  match ← memchr h.s h.pos CHAR_GT with
  | none => h.emitRest .tagComment h.len
  | some idx => h.emit .tagComment h.pos (idx - h.pos) (idx + 1) .data

/-- The loop of `h5_state_bogus_comment2`. -/
def bogusComment2Loop (h : H5) : ℕ → ℕ → Next
  | 0, _ => none
  | fuel + 1, pos => do
      match ← memchr h.s pos CHAR_PERCENT with
      | none => h.emitRest .tagComment h.len
      | some idx =>
          if h.len ≤ idx + 1 then h.emitRest .tagComment h.len
          else
            let ch ← h.s[idx + 1]?
            if ch ≠ CHAR_GT then bogusComment2Loop h fuel (idx + 1)
            else h.emit .tagComment h.pos (idx - h.pos) (idx + 2) .data

def bogusComment2 (h : H5) : Next := h.bogusComment2Loop (h.len + 1) h.pos

/-- The loop of `h5_state_comment`. -/
def commentLoop (h : H5) : ℕ → ℕ → Next
  | 0, _ => none
  | fuel + 1, pos => do
      match ← memchr h.s pos CHAR_DASH with
      | none => h.emitRest .tagComment h.pos
      | some idx =>
          -- fewer than three characters are left
          if h.len < idx + 3 then h.emitRest .tagComment h.pos
          else
            -- all NULs are skipped
            match scan (fun ch => ch != 0) h.s (idx + 1) with
            | none => h.emitRest .tagComment h.pos
            | some (j, ch) =>
                if ch ≠ CHAR_DASH ∧ ch ≠ CHAR_BANG then commentLoop h fuel (idx + 1)
                else if j + 1 = h.len then h.emitRest .tagComment h.pos
                else
                  let ch ← h.s[j + 1]?
                  if ch ≠ CHAR_GT then commentLoop h fuel (idx + 1)
                  else h.emit .tagComment h.pos (idx - h.pos) (j + 2) .data

def comment (h : H5) : Next := h.commentLoop (h.len + 1) h.pos

/-- The loop of `h5_state_cdata`. -/
def cdataLoop (h : H5) : ℕ → ℕ → Next
  | 0, _ => none
  | fuel + 1, pos => do
      match ← memchr h.s pos CHAR_RIGHTB with
      | none => h.emitRest .dataText h.pos
      | some idx =>
          if h.len < idx + 3 then h.emitRest .dataText h.pos
          else
            let ch1 ← h.s[idx + 1]?
            let ch2 ← h.s[idx + 2]?
            if ch1 = CHAR_RIGHTB ∧ ch2 = CHAR_GT then h.emit .dataText h.pos (idx - h.pos) (idx + 3) .data
            else cdataLoop h fuel (idx + 1)

def cdata (h : H5) : Next := h.cdataLoop (h.len + 1) h.pos

def doctype (h : H5) : Next := do
  match ← memchr h.s h.pos CHAR_GT with
  | none => h.emitRest .doctype h.pos
  | some idx => h.emit .doctype h.pos (idx - h.pos) (idx + 1) .data

/-- The bytes at the position satisfy the tests, one after the other; a test is only made
when the ones before it have succeeded. -/
def looksAt (h : H5) : ℕ → List (UInt8 → Bool) → Option Bool
  | _, [] => some true
  | i, test :: tests => do
      let ch ← h.s[i]?
      if test ch then looksAt h (i + 1) tests else some false

/-- `remaining >= n && ...`, with `n` tests. -/
def startsWith (h : H5) (remaining n : ℕ) (tests : List (UInt8 → Bool)) : Option Bool :=
  if n ≤ remaining then h.looksAt h.pos tests else some false

/-- `DOCTYPE` in any case. -/
def DOCTYPE_TESTS : List (UInt8 → Bool) :=
  "DOCTYPE".toList.map fun c ch => ch == c.toUInt8 || ch == c.toUInt8 + 32

/-- `[CDATA[`. -/
def CDATA_TESTS : List (UInt8 → Bool) := "[CDATA[".toList.map fun c ch => ch == c.toUInt8

def DASHES_TESTS : List (UInt8 → Bool) := "--".toList.map fun c ch => ch == c.toUInt8

def markupDeclarationOpen (h : H5) : Next := do
  let remaining ← sizeSub h.len h.pos
  if ← h.startsWith remaining 7 DOCTYPE_TESTS then h.doctype
  else if ← h.startsWith remaining 7 CDATA_TESTS then cdata { h with pos := h.pos + 7 }
  else if ← h.startsWith remaining 2 DASHES_TESTS then comment { h with pos := h.pos + 2 }
  else h.bogusComment

/-! ### Tags -/

def tagNameClose (h : H5) : Next :=
  { h with isClose := false }.emit .tagNameClose h.pos 1 (h.pos + 1) (if h.pos + 1 < h.len then .data else .eof)

/-- Where the loop of `h5_state_tag_name` stops; NULs are part of the name. -/
def endsTagName (ch : UInt8) : Bool := ch != 0 && (isWhite ch || ch == CHAR_SLASH || ch == CHAR_GT)

def tagName (h : H5) : Next :=
  match scan endsTagName h.s h.pos with
  | none => h.emitRest .tagNameOpen h.pos
  | some (pos, ch) =>
      if isWhite ch then h.emit .tagNameOpen h.pos (pos - h.pos) (pos + 1) .beforeAttributeName
      else if ch = CHAR_SLASH then h.emit .tagNameOpen h.pos (pos - h.pos) (pos + 1) .selfClosingStartTag
      else if h.isClose then
        { h with isClose := false }.emit .tagClose h.pos (pos - h.pos) (pos + 1) .data
      else h.emit .tagNameOpen h.pos (pos - h.pos) pos .tagNameClose

mutual

def data : ℕ → H5 → Next
  | 0, _ => none
  | fuel + 1, h =>
      if h.len < h.pos then some (.error, h)
      else do
        match ← memchr h.s h.pos CHAR_LT with
        | none =>
            let n ← sizeSub h.len h.pos
            let h := { h with tokenStart := h.pos, tokenLen := n, tokenType := .dataText, state := .eof }
            some (if n = 0 then .false else .true, h)
        | some idx =>
            let h := { h with
              tokenStart := h.pos, tokenType := .dataText, tokenLen := idx - h.pos, pos := idx + 1, state := .tagOpen }
            if h.tokenLen = 0 then tagOpen fuel h else some (.true, h)

def tagOpen : ℕ → H5 → Next
  | 0, _ => none
  | fuel + 1, h =>
      if h.len ≤ h.pos then some (.false, h)
      else do
        let ch ← h.s[h.pos]?
        if ch = CHAR_BANG then markupDeclarationOpen { h with pos := h.pos + 1 }
        else if ch = CHAR_SLASH then endTagOpen fuel { h with pos := h.pos + 1, isClose := true }
        else if ch = CHAR_QUESTION then bogusComment { h with pos := h.pos + 1 }
        else if ch = CHAR_PERCENT then bogusComment2 { h with pos := h.pos + 1 }
        else if isLetter ch then h.tagName
        else if ch = 0 then h.tagName
        else if h.pos = 0 then data fuel h
        else
          let start ← sizeSub h.pos 1
          h.emit .dataText start 1 h.pos .data

def endTagOpen : ℕ → H5 → Next
  | 0, _ => none
  | fuel + 1, h =>
      if h.len ≤ h.pos then some (.false, h)
      else do
        let ch ← h.s[h.pos]?
        if ch = CHAR_GT then data fuel h
        else if isLetter ch then h.tagName
        else bogusComment { h with isClose := false }

end

/-! ### Attributes -/

section

variable (signedChar : Bool)

/-- `h5_skip_white(hs)`: the character at the new position; nothing for `CHAR_EOF`. -/
def skipWhite (h : H5) : Option UInt8 × H5 :=
  match scan (fun ch => !isWhite ch) h.s h.pos with
  | none => (none, { h with pos := max h.pos h.len })
  -- `(char)0xFF` is `-1` where characters are signed
  | some (pos, ch) => (if signedChar && ch == 0xFF then none else some ch, { h with pos := pos })

/-- Where the loop of `h5_state_attribute_name` stops. -/
def endsAttributeName (ch : UInt8) : Bool :=
  isWhite ch || ch == CHAR_SLASH || ch == CHAR_EQUALS || ch == CHAR_GT

/-- `h5_state_attribute_name`; the first character is taken unseen. -/
def attributeName (h : H5) : Next :=
  match scan endsAttributeName h.s (h.pos + 1) with
  | none => h.emitRest .attrName h.len
  | some (pos, ch) =>
      if isWhite ch then h.emit .attrName h.pos (pos - h.pos) (pos + 1) .afterAttributeName
      else if ch = CHAR_SLASH then h.emit .attrName h.pos (pos - h.pos) (pos + 1) .selfClosingStartTag
      else if ch = CHAR_EQUALS then h.emit .attrName h.pos (pos - h.pos) (pos + 1) .beforeAttributeValue
      else h.emit .attrName h.pos (pos - h.pos) pos .tagNameClose

/-- `hs->pos < hs->len && hs->s[hs->pos] != CHAR_GT`. -/
def goesOn (h : H5) : Option Bool := if h.pos < h.len then (h.s[h.pos]?).map (· != CHAR_GT) else some false

mutual

def beforeAttributeName : ℕ → H5 → Next
  | 0, _ => none
  | fuel + 1, h =>
      let (ch, h) := h.skipWhite signedChar
      match ch with
      | none => some (.false, h)
      | some ch =>
          if ch = CHAR_SLASH then do
            let h := { h with pos := h.pos + 1 }
            -- a further slash or attribute: start over (`goto tail_call`)
            if ← h.goesOn then beforeAttributeName fuel h else selfClosingStartTag fuel h
          else if ch = CHAR_GT then h.emit .tagNameClose h.pos 1 (h.pos + 1) .data
          else h.attributeName

def selfClosingStartTag : ℕ → H5 → Next
  | 0, _ => none
  | fuel + 1, h =>
      if h.len ≤ h.pos then some (.false, h)
      else do
        let ch ← h.s[h.pos]?
        if ch = CHAR_GT then
          let start ← sizeSub h.pos 1
          h.emit .tagNameSelfclose start 2 (h.pos + 1) .data
        else beforeAttributeName fuel h

end

def attributeValueQuote (qchar : UInt8) (h : H5) : Next :=
  -- the quote itself, unless the input starts inside a value
  let h := if 0 < h.pos then { h with pos := h.pos + 1 } else h
  do
    match ← memchr h.s h.pos qchar with
    | none => h.emitRest .attrValue h.pos
    | some idx => h.emit .attrValue h.pos (idx - h.pos) (idx + 1) .afterAttributeValueQuoted

def attributeValueDoubleQuote (h : H5) : Next := h.attributeValueQuote CHAR_DOUBLE

def attributeValueSingleQuote (h : H5) : Next := h.attributeValueQuote CHAR_SINGLE

def attributeValueBackQuote (h : H5) : Next := h.attributeValueQuote CHAR_TICK

def attributeValueNoQuote (h : H5) : Next :=
  match scan (fun ch => isWhite ch || ch == CHAR_GT) h.s h.pos with
  | none => h.emitRest .attrValue h.pos
  | some (pos, ch) =>
      if isWhite ch then h.emit .attrValue h.pos (pos - h.pos) (pos + 1) .beforeAttributeName
      else h.emit .attrValue h.pos (pos - h.pos) pos .tagNameClose

def beforeAttributeValue (h : H5) : Next :=
  let (c, h) := h.skipWhite signedChar
  match c with
  | none => some (.false, { h with state := .eof })
  | some c =>
      if c = CHAR_DOUBLE then h.attributeValueDoubleQuote
      else if c = CHAR_SINGLE then h.attributeValueSingleQuote
      else if c = CHAR_TICK then h.attributeValueBackQuote
      else h.attributeValueNoQuote

def afterAttributeName (fuel : ℕ) (h : H5) : Next :=
  let (c, h) := h.skipWhite signedChar
  match c with
  | none => some (.false, h)
  | some c =>
      if c = CHAR_SLASH then selfClosingStartTag signedChar fuel { h with pos := h.pos + 1 }
      else if c = CHAR_EQUALS then beforeAttributeValue signedChar { h with pos := h.pos + 1 }
      else if c = CHAR_GT then h.tagNameClose
      else h.attributeName

/-- `h5_state_after_attribute_value_quoted_state`. -/
def afterAttributeValueQuoted (fuel : ℕ) (h : H5) : Next :=
  if h.len ≤ h.pos then some (.false, h)
  else do
    let ch ← h.s[h.pos]?
    if isWhite ch then beforeAttributeName signedChar fuel { h with pos := h.pos + 1 }
    else if ch = CHAR_SLASH then selfClosingStartTag signedChar fuel { h with pos := h.pos + 1 }
    else if ch = CHAR_GT then h.emit .tagNameClose h.pos 1 (h.pos + 1) .data
    else beforeAttributeName signedChar fuel h

def next (h : H5) : Next :=
  -- deep enough for any recursion, one level or two for each byte
  let fuel := 2 * h.len + 4
  match h.state with
  | .eof => h.stateEof
  | .data => data fuel h
  | .tagOpen => tagOpen fuel h
  | .tagNameClose => h.tagNameClose
  | .selfClosingStartTag => selfClosingStartTag signedChar fuel h
  | .beforeAttributeName => beforeAttributeName signedChar fuel h
  | .afterAttributeName => afterAttributeName signedChar fuel h
  | .beforeAttributeValue => beforeAttributeValue signedChar h
  | .afterAttributeValueQuoted => afterAttributeValueQuoted signedChar fuel h
  | .attributeValueSingleQuote => h.attributeValueSingleQuote
  | .attributeValueDoubleQuote => h.attributeValueDoubleQuote
  | .attributeValueBackQuote => h.attributeValueBackQuote

end

end H5

end PurpleWolf.Html5
