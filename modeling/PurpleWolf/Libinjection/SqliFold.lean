import PurpleWolf.Libinjection.SqliTokenizer

/-! # Folding of SQL tokens (`libinjection_sqli.c`)

`libinjection_sqli_fold` keeps the first few tokens of the input.  It looks at two tokens from
`left` on, then at three, and drops or rewrites what does not matter: `twoTokens` and
`threeTokens` are these rules, in the order in which they are tried.  Where no rule applies,
`left` moves on.

The tokens at positions below `pos` are the list `toks`, so `pos` is its length; what the array
holds behind them is never read. -/

namespace PurpleWolf.Sqli

open Memory Html5 Xss

def MAX_TOKENS : ℕ := 5

/-- What a rule does to `left`. -/
inductive Left where
  | keep
  | back
  | reset

def Left.move (left : ℕ) : Left → ℕ
  | .keep => left
  | .back => left - 1
  | .reset => 0

/-- What a rule does: the two tokens at `left` are replaced and the last `drop` tokens are
dropped, and folding starts over (`again`) or goes on with the next rules (`onward`).  At
`evil` the second token is marked, and folding ends. -/
inductive Outcome where
  | again (first second : Token) (drop : ℕ) (left : Left)
  | onward (first second : Token) (left : Left)
  | evil

def Token.withType (st : Token) (type : TokenType) : Token := { st with type := type }

section

variable (signedChar : Bool) (T : KeywordTable)

/-- `cstrcasecmp(name, st->val, st->len) == 0`. -/
def Token.named (st : Token) (name : String) : Bool := cstrcasecmp signedChar (ascii name) st.val = 0

/-- The types of words that `syntax_merge_words` merges. -/
def MERGED_TYPES : List TokenType :=
  [.keyword, .bareword, .operator, .union, .function, .expression, .tsql, .sqltype]

/-- `syntax_merge_words(sf, a, b)`: the token that `a` becomes. -/
def syntaxMergeWords (a b : Token) : Option (Option Token) := do
  if a.type ∉ MERGED_TYPES then some none
  else if b.type ∉ MERGED_TYPES ∧ b.type ≠ .logicOperator then some none
  else if TOKEN_SIZE ≤ a.val.length + b.val.length + 1 then some none
  else
    let tmp := a.val ++ chr ' ' :: b.val
    let ch ← isKeyword signedChar T tmp
    if ch ≠ .none then some (some { a with type := ch, val := tmp }) else some none

/-- Words that are a function in front of a parenthesis. -/
def FUNCTION_NAMES : List String :=
  ["USER_ID", "USER_NAME", "DATABASE", "PASSWORD", "USER", "CURRENT_USER", "CURRENT_DATE", "CURRENT_TIME",
    "CURRENT_TIMESTAMP", "LOCALTIME", "LOCALTIMESTAMP"]

/-- The rules for two tokens that do not merge. -/
def twoTokensApart (a b : Token) : Outcome :=
  if a.type = .semicolon ∧ b.type = .function ∧ (b.char 0 = chr 'I' ∨ b.char 0 = chr 'i') ∧
      (b.char 1 = chr 'F' ∨ b.char 1 = chr 'f') then
    -- `IF` is a statement of Transact-SQL there
    .again a (b.withType .tsql) 0 .keep
  else if (a.type = .bareword ∨ a.type = .variable) ∧ b.type = .leftparens ∧
      FUNCTION_NAMES.any (a.named signedChar) then
    .again (a.withType .function) b 0 .keep
  else if a.type = .keyword ∧ (a.named signedChar "IN" ∨ a.named signedChar "NOT IN") then
    .again (a.withType (if b.type = .leftparens then .operator else .bareword)) b 0 .keep
  else if a.type = .operator ∧ (a.named signedChar "LIKE" ∨ a.named signedChar "NOT LIKE") then
    .onward (if b.type = .leftparens then a.withType .function else a) b .keep
  else if a.type = .sqltype ∧ b.type ∈ [.bareword, .number, .sqltype, .leftparens, .function, .variable, .string] then
    .again b b 1 .reset
  else if a.type = .collate ∧ b.type = .bareword then
    -- a word with an underscore is the name of a collation
    if b.cstr.contains (chr '_') then .onward a (b.withType .sqltype) .reset else .onward a b .keep
  else if a.type = .backslash then
    if b.isArithmeticOp then .again (a.withType .number) b 0 .reset else .again b b 1 .reset
  else if a.type = .leftparens ∧ b.type = .leftparens then .again a b 1 .reset
  else if a.type = .rightparens ∧ b.type = .rightparens then .again a b 1 .reset
  else if a.type = .leftbrace ∧ b.type = .bareword then
    if b.val.length = 0 then .evil else .again a b 2 .reset
  else if b.type = .rightbrace then .again a b 1 .reset
  else .onward a b .keep

/-- The rules for two tokens. -/
def twoTokens (a b : Token) : Option Outcome := do
  if a.type = .string ∧ b.type = .string then some (.again a b 1 .keep)
  else if a.type = .semicolon ∧ b.type = .semicolon then some (.again a b 1 .keep)
  else if (a.type = .operator ∨ a.type = .logicOperator) ∧ (b.isUnaryOp signedChar ∨ b.type = .sqltype) then
    some (.again a b 1 .reset)
  else if a.type = .leftparens ∧ b.isUnaryOp signedChar then some (.again a b 1 .back)
  else
    match ← syntaxMergeWords signedChar T a b with
    | some merged => some (.again merged b 1 .back)
    | none => some (twoTokensApart signedChar a b)

/-- The rules for three tokens. -/
def threeTokens (a b c : Token) : Outcome :=
  if a.type = .number ∧ b.type = .operator ∧ c.type = .number then .again a b 2 .reset
  else if a.type = .operator ∧ b.type ≠ .leftparens ∧ c.type = .operator then .again a b 2 .reset
  else if a.type = .logicOperator ∧ c.type = .logicOperator then .again a b 2 .reset
  else if a.type = .variable ∧ b.type = .operator ∧ c.type ∈ [.variable, .number, .bareword] then .again a b 2 .reset
  else if a.type ∈ [.bareword, .number] ∧ b.type = .operator ∧ c.type ∈ [.number, .bareword] then .again a b 2 .reset
  else if a.type ∈ [.bareword, .number, .variable, .string] ∧ b.type = .operator ∧ b.cstr = ascii "::" ∧
      c.type = .sqltype then
    .again a b 2 .reset
  else if a.type ∈ [.bareword, .number, .string, .variable] ∧ b.type = .comma ∧
      c.type ∈ [.number, .bareword, .string, .variable] then
    .again a b 2 .reset
  else if a.type ∈ [.expression, .group, .comma] ∧ b.isUnaryOp signedChar ∧ c.type = .leftparens then
    .again a c 1 .reset
  else if a.type ∈ [.keyword, .expression, .group] ∧ b.isUnaryOp signedChar ∧
      c.type ∈ [.number, .bareword, .variable, .string, .function] then
    .again a c 1 .reset
  else if a.type = .comma ∧ b.isUnaryOp signedChar ∧ c.type ∈ [.number, .bareword, .variable, .string] then
    .again a c 3 .reset
  else if a.type = .comma ∧ b.isUnaryOp signedChar ∧ c.type = .function then .again a c 1 .reset
  else if a.type = .bareword ∧ b.type = .dot ∧ c.type = .bareword then .again a b 2 .reset
  else if a.type = .expression ∧ b.type = .dot ∧ c.type = .bareword then .again a c 1 .reset
  else if a.type = .function ∧ b.type = .leftparens ∧ c.type ≠ .rightparens then
    -- `USER(` with an argument is no function
    .onward (if a.named signedChar "USER" then a.withType .bareword else a) b .keep
  else .onward a b .keep

/-- The five tokens that are one value in parentheses and another in front. -/
def inParens (a b c d e : TokenType) : Bool :=
  (a = .number && (b = .operator || b = .comma) && c = .leftparens && d = .number && e = .rightparens) ||
  (a = .bareword && b = .operator && c = .leftparens && (d = .bareword || d = .number) && e = .rightparens) ||
  (a = .number && b = .rightparens && c = .comma && d = .leftparens && e = .number) ||
  (a = .bareword && b = .rightparens && c = .operator && d = .leftparens && e = .bareword)

/-- The variables of `libinjection_sqli_fold`. -/
structure FoldState where
  sf : SqliState
  toks : List Token
  left : ℕ
  more : Bool
  lastComment : Option Token
  deriving DecidableEq

namespace FoldState

def pos (st : FoldState) : ℕ := st.toks.length

/-- The special cases of five tokens. -/
def fiveTokens (st : FoldState) : FoldState :=
  match st.toks with
  | a :: b :: c :: d :: e :: rest =>
      if inParens a.type b.type c.type d.type e.type then
        -- the sixth token, if there is one, becomes the second
        { st with toks := a :: rest.take 1, left := 0 }
      else st
  | _ => st

/-- Tokens are read until `want` of them stand at `left`. -/
def fetch (want : ℕ) : ℕ → FoldState → Option FoldState
  | 0, _ => none
  | fuel + 1, st => do
      if ← andAlso (st.more ∧ st.pos ≤ MAX_TOKENS) (do some ((← sizeSub st.pos st.left) < want)) then
        let (more, sf) ← st.sf.tokenize signedChar T
        if !more then fetch want fuel { st with sf := sf, more := false }
        else if sf.current.type = .comment then fetch want fuel { st with sf := sf, lastComment := some sf.current }
        else fetch want fuel { st with sf := sf, lastComment := none, toks := st.toks ++ [sf.current] }
      else some st

/-- What a rule does to the tokens. -/
def replace (st : FoldState) (first second : Token) (drop : ℕ) (left : Left) : Option FoldState := do
  let pos ← sizeSub st.pos drop
  some { st with toks := ((st.toks.set st.left first).set (st.left + 1) second).take pos, left := left.move st.left }

/-- The end of `libinjection_sqli_fold`: a comment behind the last token is added. -/
def finish (st : FoldState) : List Token :=
  (if st.pos < MAX_TOKENS then st.toks ++ st.lastComment.toList else st.toks).take MAX_TOKENS

/-- The body of the loop behind the rules for two tokens: the next state, at the end of which
the loop starts over. -/
def foldThree (st : FoldState) : Option FoldState := do
  let st ← st.fetch signedChar T 3 (st.sf.len + 2)
  if (← sizeSub st.pos st.left) < 3 then some { st with left := st.pos }
  else
    match threeTokens signedChar (← st.toks[st.left]?) (← st.toks[st.left + 1]?) (← st.toks[st.left + 2]?) with
    | .again first second drop left => st.replace first second drop left
    | .onward first second left => do
        let st ← st.replace first second 0 left
        some { st with left := st.left + 1 }
    | .evil => none

/-- What a rule for two tokens leads to; `b` is the second of them. -/
def foldTwo (st : FoldState) (b : Token) : Outcome → Option (FoldState ⊕ (SqliState × List Token))
  | .again first second drop left => (st.replace first second drop left).map .inl
  | .onward first second left => do
      let st ← st.replace first second 0 left
      (st.foldThree signedChar T).map .inl
  | .evil => some (.inr (st.sf, (st.toks.set (st.left + 1) (b.withType .evil)).take (st.left + 2)))

/-- The body of the loop: the next state, or the tokens with which folding ends. -/
def foldBody (st : FoldState) : Option (FoldState ⊕ (SqliState × List Token)) := do
  let st := st.fiveTokens
  if !st.more || MAX_TOKENS ≤ st.left then some (.inr (st.sf, st.finish))
  else
    let st ← st.fetch signedChar T 2 (st.sf.len + 2)
    if (← sizeSub st.pos st.left) < 2 then some (.inl { st with left := st.pos })
    else
      let b ← st.toks[st.left + 1]?
      st.foldTwo signedChar T b (← twoTokens signedChar T (← st.toks[st.left]?) b)

/-- The loop of `libinjection_sqli_fold`. -/
def foldLoop : ℕ → FoldState → Option (SqliState × List Token)
  | 0, _ => none
  | fuel + 1, st => do
      match ← st.foldBody signedChar T with
      | .inl st => foldLoop fuel st
      | .inr result => some result

end FoldState

namespace SqliState

/-- The first loop of `libinjection_sqli_fold`: comments, parentheses, types and unary operators
at the start are skipped.  Whether there is a token, and the state behind it. -/
def skipInitial : ℕ → SqliState → Option (Bool × SqliState)
  | 0, _ => none
  | fuel + 1, sf => do
      let (more, sf) ← sf.tokenize signedChar T
      if sf.current.type ∈ [.comment, .leftparens, .sqltype] ∨ sf.current.isUnaryOp signedChar then
        if more then skipInitial fuel sf else some (false, sf)
      else some (more, sf)

/-- Turns of the loop that are enough for an input of `n` bytes. -/
def foldFuel (n : ℕ) : ℕ := 364 * (2 * n + 7) + 1

/-- `libinjection_sqli_fold(sf)`: the state of the tokenizer afterwards, and the tokens. -/
def fold (sf : SqliState) : Option (SqliState × List Token) := do
  let (more, sf) ← sf.skipInitial signedChar T (sf.len + 2)
  if !more then some (sf, [])
  else
    FoldState.foldLoop signedChar T (foldFuel sf.len)
      { sf := sf, toks := [sf.current], left := 0, more := true, lastComment := none }

end SqliState

end

end PurpleWolf.Sqli
