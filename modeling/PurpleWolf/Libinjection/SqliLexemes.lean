import PurpleWolf.Libinjection.SqliTokens

/-! # What the SQL tokenizer makes of a text

For some kinds of text, the tokens that it is read as: names, decimal numbers, the operator `=`, a
comment at the end, white space between them, and the rest of a string at the start.

* **Feeding.**  `SqliState.Feeds` says which tokens the calls of the tokenizer deliver, to the end
  of the input.  Folding depends on nothing else.
* **Lexemes.**  `Lexemes p rest toks` derives the tokens of `rest`, which stands behind `p`, from
  its parts; `Lexemes.feeds` is why the tokenizer finds them. -/

namespace PurpleWolf.Sqli

open Memory Html5 Xss

/-- A byte of a name. -/
def isNameByte (b : UInt8) : Bool := (65 ≤ b && b ≤ 90) || (97 ≤ b && b ≤ 122) || isDigit b || b == chr '_'

/-- A name: it does not start with a digit. -/
structure IsName (w : Bytes) : Prop where
  ne : w ≠ []
  bytes : ∀ b ∈ w, isNameByte b = true
  head : ∀ b ∈ w.head?, isDigit b = false

theorem isName_cons {c : UInt8} {w : Bytes} (hc : isNameByte c = true ∧ isDigit c = false)
    (hw : ∀ b ∈ w, isNameByte b = true) : IsName (c :: w) :=
  ⟨List.cons_ne_nil _ _, List.forall_mem_cons.mpr ⟨hc.1, hw⟩, fun _ hb => Option.some.inj hb ▸ hc.2⟩

/-- White space follows, or the end. -/
def Blank (rest : Bytes) : Prop := ∀ b ∈ rest.head?, charIsWhite b = true

/-- Digits. -/
structure IsNumber (d : Bytes) : Prop where
  ne : d ≠ []
  bytes : ∀ b ∈ d, isDigit b = true

/-- A number ends there. -/
def EndsNumber (rest : Bytes) : Prop := ∀ b ∈ rest.head?, isNameByte b = false ∧ b ≠ chr '.'

theorem not_wordEnd_of_name {b : UInt8} (h : isNameByte b = true) : wordEnd b = false :=
  Text.forall_byte (p := fun b => isNameByte b = true → wordEnd b = false) (by decide +kernel) b h

theorem wordEnd_of_white {b : UInt8} (h : charIsWhite b = true) : wordEnd b = true :=
  Text.forall_byte (p := fun b => charIsWhite b = true → wordEnd b = true) (by decide +kernel) b h

theorem white_ends {b : UInt8} (h : charIsWhite b = true) : isNameByte b = false ∧ b ≠ chr '.' :=
  Text.forall_byte (p := fun b => charIsWhite b = true → isNameByte b = false ∧ b ≠ chr '.') (by decide +kernel) b h

theorem Blank.endsNumber {rest : Bytes} (h : Blank rest) : EndsNumber rest := fun b hb => white_ends (h b hb)

/-- Of a name and what follows it, neither holds a byte that a prefix of a string needs. -/
theorem plain_of_name_or_white {b : UInt8} (h : isNameByte b = true ∨ charIsWhite b = true) :
    b ≠ CHAR_SINGLE ∧ b ≠ chr '&' ∧ (b ≠ chr '.' ∧ b ≠ CHAR_TICK) :=
  Text.forall_byte (p := fun b => isNameByte b = true ∨ charIsWhite b = true →
    b ≠ CHAR_SINGLE ∧ b ≠ chr '&' ∧ (b ≠ chr '.' ∧ b ≠ CHAR_TICK)) (by decide +kernel) b h

theorem parseFn_of_name {b : UInt8} (h : isNameByte b = true) (hdigit : isDigit b = false) :
    charParseMap b ∈ [.word, .bstring, .estring, .nqstring, .qstring, .ustring, .xstring] :=
  Text.forall_byte (p := fun b => isNameByte b = true → isDigit b = false →
    charParseMap b ∈ [.word, .bstring, .estring, .nqstring, .qstring, .ustring, .xstring]) (by decide +kernel)
    b h hdigit

theorem parseFn_of_digit {b : UInt8} (h : isDigit b = true) : charParseMap b = .number :=
  Text.forall_byte (p := fun b => isDigit b = true → charParseMap b = .number) (by decide +kernel) b h

theorem parseFn_of_white {b : UInt8} (h : charIsWhite b = true) : charParseMap b = .white :=
  Text.forall_byte (p := fun b => charIsWhite b = true → charParseMap b = .white) (by decide +kernel) b h

/-! ### At a position -/

namespace SqliState

/-- The tokenizer stands between `p` and `rest`. -/
structure At (sf : SqliState) (p rest : Bytes) : Prop where
  s : sf.s = p ++ rest
  pos : sf.pos = p.length

variable {sf : SqliState} {p rest : Bytes}

theorem At.get (h : At sf p rest) (i : ℕ) : sf.s[sf.pos + i]? = rest[i]? := by
  rw [h.s, h.pos, List.getElem?_append_right (Nat.le_add_right _ _), Nat.add_sub_cancel_left]

theorem At.len (h : At sf p rest) : sf.len = sf.pos + rest.length := by
  rw [SqliState.len, h.s, h.pos, List.length_append]

theorem At.move {w : Bytes} (h : At sf p (w ++ rest)) {sf' : SqliState} (hs : sf'.s = sf.s)
    (hpos : sf'.pos = sf.pos + w.length) : At sf' (p ++ w) rest :=
  ⟨by rw [hs, h.s, List.append_assoc], by rw [hpos, h.pos, List.length_append]⟩

theorem At.assign {w : Bytes} (h : At sf p (w ++ rest)) (type : TokenType) :
    sf.assign type sf.pos w.length (sf.pos + w.length) = some
      { sf with
        current := { sf.current with type := type, pos := sf.pos, val := w.take (TOKEN_SIZE - 1) }
        pos := sf.pos + w.length } := by
  have hlen := h.len
  rw [List.length_append] at hlen
  rw [assign_of_le (by omega), h.pos, h.s, List.drop_left, List.take_append_of_le_length (min_le_left _ _),
    Nat.min_comm, ← List.take_take, List.take_length]

theorem andAlso_charIs_false {c : Prop} [Decidable c] {i : ℕ} {ch : UInt8} (hin : c → i < sf.len)
    (hne : ∀ b, sf.s[i]? = some b → b ≠ ch) : andAlso c (sf.charIs i ch) = some false := by
  unfold andAlso
  split_ifs with h
  · obtain ⟨b, hb⟩ := getElem?_of_lt (hin h)
    unfold charIs
    rw [hb, Option.map_some, beq_false_of_ne (hne b hb)]
  · rfl

end SqliState

/-! ### Names -/

section

variable (signedChar : Bool) (T : KeywordTable)

/-- The type of a word: what the table says of it, or none of that. -/
def wordType (w : Bytes) : TokenType :=
  if w.length < TOKEN_SIZE ∧ T.typeOf w ≠ .none then T.typeOf w else .bareword

/-- The token of a word at `pos`. -/
def wordToken (pos : ℕ) (w : Bytes) : Token := ⟨pos, wordType T w, 0, 0, w.take (TOKEN_SIZE - 1)⟩

namespace SqliState

variable {sf : SqliState} {p w rest : Bytes}

theorem keywordBefore_name (val : Bytes) : ∀ (i : ℕ) (v : Bytes), (∀ b ∈ v, isNameByte b = true) →
    keywordBefore signedChar T val i v = some none
  | _, [], _ => rfl
  | i, b :: v, hv => by
      have hplain := (plain_of_name_or_white (Or.inl (hv b List.mem_cons_self))).2.2
      unfold keywordBefore
      rw [if_neg (by rintro (h | h); exacts [hplain.1 h, hplain.2 h])]
      exact keywordBefore_name val (i + 1) v fun c hc => hv c (List.mem_cons_of_mem _ hc)

theorem parseWord_name (hat : At sf p (w ++ rest)) (hcurrent : sf.current = .clear) (hw : ∀ b ∈ w, isNameByte b = true)
    (hrest : Blank rest) : sf.parseWord signedChar T =
      some { sf with current := wordToken T sf.pos w, pos := sf.pos + w.length } := by
  have hspan : span (fun ch => !wordEnd ch) sf.s sf.pos = some w.length := by
    rw [hat.s, hat.pos]
    refine span_append (fun b hb => ?_) fun b hb => ?_
    · rw [not_wordEnd_of_name (hw b hb)]
      rfl
    · rw [wordEnd_of_white (hrest b hb)]
      rfl
  have hval : ∀ b ∈ w.take (TOKEN_SIZE - 1), isNameByte b = true := fun b hb => hw b (List.mem_of_mem_take hb)
  unfold parseWord wordToken wordType
  simp only [hspan, hat.assign, Option.bind_eq_bind, Option.bind_some, keywordBefore_name signedChar T _ 0 _ hval,
    isKeyword_eq]
  rw [hcurrent]
  by_cases hlen : w.length < TOKEN_SIZE
  · have htake : w.take (TOKEN_SIZE - 1) = w := List.take_of_length_le (Nat.le_sub_one_of_lt hlen)
    by_cases hnone : T.typeOf w = .none
    · simp [hlen, htake, hnone, withType, Token.clear]
    · simp [hlen, htake, hnone, withType, Token.clear]
  · simp [hlen, Token.clear]

/-- The functions for a prefix of a string read a word where no string follows. -/
theorem run_name {f : ParseFn} (hf : f ∈ [.word, .bstring, .estring, .nqstring, .qstring, .ustring, .xstring])
    (hat : At sf p (w ++ rest)) (hw : IsName w) (hrest : Blank rest) :
    f.run signedChar T sf = sf.parseWord signedChar T := by
  have hpos := List.length_pos_iff.mpr hw.ne
  have hbyte : ∀ i ≤ w.length, ∀ b, sf.s[sf.pos + i]? = some b → isNameByte b = true ∨ charIsWhite b = true := by
    intro i hi b hb
    rw [hat.get] at hb
    rcases Nat.lt_or_eq_of_le hi with hlt | rfl
    · rw [List.getElem?_append_left hlt] at hb
      exact Or.inl (hw.bytes b (List.mem_of_getElem? hb))
    · rw [List.getElem?_append_right le_rfl, Nat.sub_self, ← List.head?_eq_getElem?] at hb
      exact Or.inr (hrest b hb)
  have hnext : ∀ b, sf.s[sf.pos + 1]? = some b → b ≠ CHAR_SINGLE ∧ b ≠ chr '&' := fun b hb =>
    have hplain := plain_of_name_or_white (hbyte 1 hpos b hb)
    ⟨hplain.1, hplain.2.1⟩
  have hsingle : andAlso (sf.pos + 2 < sf.len) (sf.charIs (sf.pos + 1) CHAR_SINGLE) = some false :=
    andAlso_charIs_false (fun h => by omega) fun b hb => (hnext b hb).1
  have hestring : sf.parseEstring signedChar T = sf.parseWord signedChar T := by
    unfold parseEstring
    rw [hsingle]
    rfl
  have hqstring : ∀ offset, (∀ b, sf.s[sf.pos + offset]? = some b → b = chr 'q' ∨ b = chr 'Q' →
      ∀ c, sf.s[sf.pos + offset + 1]? = some c → c ≠ CHAR_SINGLE) →
      sf.parseQstringCore signedChar T offset = sf.parseWord signedChar T := by
    intro offset hq
    unfold parseQstringCore andAlso
    simp only
    by_cases hlt : sf.pos + offset < sf.len
    · obtain ⟨b, hb⟩ := getElem?_of_lt hlt
      rw [if_pos hlt]
      unfold charIs
      simp only [hb, Option.map_some, Option.bind_eq_bind, Option.bind_some]
      by_cases hbq : b = chr 'q' ∨ b = chr 'Q'
      · rw [if_pos (by simpa using hbq)]
        by_cases hin : sf.pos + offset + 2 < sf.len
        · have hlast : sf.pos + offset + 1 < sf.len := by omega
          obtain ⟨c, hc⟩ := getElem?_of_lt hlast
          rw [if_pos hin, hc, Option.map_some, beq_false_of_ne (hq b hb hbq c hc)]
          rfl
        · rw [if_neg hin]
          rfl
      · rw [if_neg (by simpa using hbq)]
        rfl
    · rw [if_neg hlt]
      rfl
  have hdigits : ∀ digits, sf.parseDigitString signedChar T digits = sf.parseWord signedChar T := by
    intro digits
    unfold parseDigitString
    rw [hsingle]
    rfl
  simp only [List.mem_cons, List.not_mem_nil, or_false] at hf
  rcases hf with rfl | rfl | rfl | rfl | rfl | rfl | rfl
  · rfl
  · exact hdigits _
  · exact hestring
  · unfold ParseFn.run parseNqstring
    rw [hsingle]
    refine hqstring 1 fun b hb hbq c hc => ?_
    have hlong : 2 ≤ w.length := by
      by_contra hshort
      have hend : (w ++ rest)[1]? = rest.head? := by
        rw [List.getElem?_append_right (by omega), List.head?_eq_getElem?]
        congr 1
        omega
      rw [hat.get, hend] at hb
      have hwhite := hrest b hb
      rcases hbq with rfl | rfl
      · exact absurd hwhite (by decide)
      · exact absurd hwhite (by decide)
    exact (plain_of_name_or_white (hbyte 2 hlong c hc)).1
  · exact hqstring 0 fun b _ _ c hc => (hnext c hc).1
  · unfold ParseFn.run parseUstring
    have hfalse : andAlso (sf.pos + 2 < sf.len) (do
        some ((← sf.charIs (sf.pos + 1) (chr '&')) && (← sf.charIs (sf.pos + 2) CHAR_SINGLE))) = some false := by
      unfold andAlso
      split_ifs with hin
      · have hnext' : sf.pos + 1 < sf.len := by omega
        obtain ⟨b, hb⟩ := getElem?_of_lt hnext'
        obtain ⟨c, hc⟩ := getElem?_of_lt hin
        unfold charIs
        simp only [hb, hc, Option.map_some, Option.bind_eq_bind, Option.bind_some]
        rw [beq_false_of_ne (hnext b hb).2]
        rfl
      · rfl
    rw [hfalse]
    rfl
  · exact hdigits _

/-! ### Numbers -/

theorem not_suffix_of_end {b : UInt8} (h : isNameByte b = false) : (ascii "dDfF").contains b = false ∧
    b ≠ chr 'E' ∧ b ≠ chr 'e' ∧ baseDigits b = none ∧ isDigit b = false :=
  Text.forall_byte (p := fun b => isNameByte b = false → (ascii "dDfF").contains b = false ∧
    b ≠ chr 'E' ∧ b ≠ chr 'e' ∧ baseDigits b = none ∧ isDigit b = false) (by decide +kernel) b h

theorem baseDigits_of_digit {b : UInt8} (h : isDigit b = true) : baseDigits b = none :=
  Text.forall_byte (p := fun b => isDigit b = true → baseDigits b = none) (by decide +kernel) b h

/-- The token of a number at `pos`. -/
def numberToken (pos : ℕ) (d : Bytes) : Token := ⟨pos, .number, 0, 0, d.take (TOKEN_SIZE - 1)⟩

theorem parseNumber_digits (hat : At sf p (w ++ rest)) (hcurrent : sf.current = .clear) (hw : IsNumber w)
    (hrest : EndsNumber rest) : sf.parseNumber =
      some { sf with current := numberToken sf.pos w, pos := sf.pos + w.length } := by
  have hpos := List.length_pos_iff.mpr hw.ne
  have hlen := hat.len
  rw [List.length_append] at hlen
  have hend : ∀ b, sf.s[sf.pos + w.length]? = some b → isNameByte b = false ∧ b ≠ chr '.' := by
    intro b hb
    rw [hat.get, List.getElem?_append_right le_rfl, Nat.sub_self, ← List.head?_eq_getElem?] at hb
    exact hrest b hb
  have hbase : sf.numberBase = some none := by
    obtain ⟨b, hb⟩ := getElem?_of_lt (show sf.pos < sf.len by omega)
    unfold numberBase charIs
    simp only [hb, Option.map_some, Option.bind_eq_bind, Option.bind_some]
    split_ifs with hzero
    · obtain ⟨c, hc⟩ := getElem?_of_lt hzero.2
      rw [hc, Option.map_some]
      rw [hat.get] at hc
      by_cases hone : w.length = 1
      · rw [List.getElem?_append_right hone.le, hone, Nat.sub_self, ← List.head?_eq_getElem?] at hc
        rw [(not_suffix_of_end (hrest c hc).1).2.2.2.1]
      · rw [List.getElem?_append_left (by omega)] at hc
        rw [baseDigits_of_digit (hw.bytes c (List.mem_of_getElem? hc))]
    · rfl
  have hwhole : span isDigit sf.s sf.pos = some w.length := by
    rw [hat.s, hat.pos]
    exact span_append hw.bytes fun b hb => (not_suffix_of_end (hrest b hb).1).2.2.2.2
  have hmantissa : sf.mantissa = some (false, w.length) := by
    unfold mantissa
    simp only [hwhole, Option.bind_eq_bind, Option.bind_some,
      andAlso_charIs_false (fun h => h) fun b hb => (hend b hb).2]
    rfl
  have hexponent : sf.exponent (sf.pos + w.length) = some (false, sf.pos + w.length) := by
    have hfalse : andAlso (sf.pos + w.length < sf.len) (do
        some ((← sf.charIs (sf.pos + w.length) (chr 'E')) || (← sf.charIs (sf.pos + w.length) (chr 'e')))) =
        some false := by
      unfold andAlso
      split_ifs with hin
      · obtain ⟨b, hb⟩ := getElem?_of_lt hin
        have hnot := not_suffix_of_end (hend b hb).1
        unfold charIs
        simp only [hb, Option.map_some, Option.bind_eq_bind, Option.bind_some, beq_false_of_ne hnot.2.1,
          beq_false_of_ne hnot.2.2.1, Bool.or_false]
      · rfl
    unfold exponent
    rw [hfalse]
    rfl
  have hsuffix : sf.hasSuffix (sf.pos + w.length) = some false := by
    unfold hasSuffix andAlso
    by_cases hin : sf.pos + w.length < sf.len
    · obtain ⟨b, hb⟩ := getElem?_of_lt hin
      rw [if_pos hin]
      simp only [hb, Option.bind_eq_bind, Option.bind_some, (not_suffix_of_end (hend b hb).1).1]
      rfl
    · rw [if_neg hin]
  unfold parseNumber
  simp only [hbase, hmantissa, hexponent, hsuffix, Option.bind_eq_bind, Option.bind_some]
  rw [if_neg (by simp), if_neg (by decide), if_neg (by decide), Nat.add_sub_cancel_left, hat.assign, hcurrent]
  rfl

/-! ### Operators and comments -/

/-- The token of a single character at `pos`. -/
def operatorToken (pos : ℕ) (ch : UInt8) : Token := ⟨pos, .operator, 0, 0, [ch]⟩

theorem parseOperator2_equals {b : UInt8} (hat : At sf p (CHAR_EQUALS :: b :: rest)) (hcurrent : sf.current = .clear)
    (htable : T.typeOf [CHAR_EQUALS, b] = .none) : sf.parseOperator2 signedChar T =
      some { sf with current := operatorToken sf.pos CHAR_EQUALS, pos := sf.pos + 1 } := by
  have hlen := hat.len
  simp only [List.length_cons] at hlen
  have h0 : sf.s[sf.pos]? = some CHAR_EQUALS := hat.get 0
  have hslice : slice sf.s sf.pos 2 = some [CHAR_EQUALS, b] := by
    rw [hat.s, hat.pos]
    exact slice_append p [CHAR_EQUALS, b] rest
  have hthree : andAlso (sf.pos + 2 < sf.len) (do
      some ((← sf.charIs sf.pos CHAR_LT) && (← sf.charIs (sf.pos + 1) CHAR_EQUALS) &&
        (← sf.charIs (sf.pos + 2) CHAR_GT))) = some false := by
    unfold andAlso
    split_ifs with hin
    · have h1 : sf.pos + 1 < sf.len := by omega
      obtain ⟨c, hc⟩ := getElem?_of_lt h1
      obtain ⟨d, hd⟩ := getElem?_of_lt hin
      unfold charIs
      simp only [h0, hc, hd, Option.map_some, Option.bind_eq_bind, Option.bind_some]
      rfl
    · rfl
  unfold parseOperator2
  rw [if_neg (by omega), hthree]
  simp only [Option.bind_eq_bind, Option.bind_some, hslice, isKeyword_eq, htable]
  rw [if_neg (by decide), if_neg (by decide)]
  unfold charIs parseOperator1
  rw [h0]
  simp only [Option.map_some, Option.bind_eq_bind, Option.bind_some]
  rw [if_neg (by decide), assignChar, hcurrent]
  rfl

/-- The token of a comment at `pos`. -/
def commentToken (pos : ℕ) (w : Bytes) : Token := ⟨pos, .comment, 0, 0, w.take (TOKEN_SIZE - 1)⟩

theorem parseEolComment_rest (hat : At sf p w) (hcurrent : sf.current = .clear) (hw : 10 ∉ w) :
    sf.parseEolComment = some { sf with current := commentToken sf.pos w, pos := sf.len } := by
  have hlen := hat.len
  have hnone : memchr sf.s sf.pos 10 = some none := by
    rw [hat.s, hat.pos]
    exact memchr_rest hw
  have hall : At sf p (w ++ []) := by rwa [List.append_nil]
  unfold parseEolComment
  simp only [hnone, Option.bind_eq_bind, Option.bind_some, sizeSub_of_le (show sf.pos ≤ sf.len by omega)]
  rw [show sf.len - sf.pos = w.length by omega, show sf.len = sf.pos + w.length from hlen, hall.assign, hcurrent]
  rfl

/-- Two dashes start a comment that goes to the end, outside of MySQL whatever follows. -/
theorem parseDash_comment {c : Bytes} (hat : At sf p (CHAR_DASH :: CHAR_DASH :: c)) (hcurrent : sf.current = .clear)
    (hansi : sf.flags.mysql = false) (hc : 10 ∉ c) : ∃ ddx, sf.parseDash = some { sf with
      current := commentToken sf.pos (CHAR_DASH :: CHAR_DASH :: c)
      pos := sf.len
      commentDdx := ddx } := by
  have hlen := hat.len
  simp only [List.length_cons] at hlen
  have h1 : sf.s[sf.pos + 1]? = some CHAR_DASH := hat.get 1
  have hw : 10 ∉ CHAR_DASH :: CHAR_DASH :: c := by
    simp only [List.mem_cons, not_or]
    exact ⟨by decide, by decide, hc⟩
  have hrest := parseEolComment_rest hat hcurrent hw
  have hdash : sf.charIs (sf.pos + 1) CHAR_DASH = some true := by
    unfold charIs
    rw [h1]
    rfl
  have hsecond : ∃ b, andAlso (sf.pos + 2 < sf.len) (do
      some ((← sf.charIs (sf.pos + 1) CHAR_DASH) && charIsWhite (← sf.s[sf.pos + 2]?))) = some b := by
    refine exists_andAlso fun h => ?_
    obtain ⟨b, hb⟩ := getElem?_of_lt h
    exact ⟨charIsWhite b, by simp only [hdash, hb, Option.bind_eq_bind, Option.bind_some, Bool.true_and]⟩
  obtain ⟨white, hwhite⟩ := hsecond
  unfold parseDash
  rw [hwhite]
  simp only [Option.bind_eq_bind, Option.bind_some]
  cases white with
  | true => exact ⟨sf.commentDdx, hrest⟩
  | false =>
      rw [if_neg (by decide)]
      by_cases hend : sf.pos + 2 = sf.len
      · refine ⟨sf.commentDdx, ?_⟩
        unfold andAlso
        rw [if_pos hend, hdash]
        exact hrest
      · have hlt : sf.pos + 1 < sf.len := by omega
        refine ⟨true, ?_⟩
        unfold andAlso
        rw [if_neg hend, if_pos hlt]
        simp only [hdash, hansi, Option.bind_some]
        have hat' : At { sf with commentDdx := true } p (CHAR_DASH :: CHAR_DASH :: c) := ⟨hat.s, hat.pos⟩
        exact parseEolComment_rest hat' hcurrent hw

/-! ### The rest of a string -/

/-- The token of a string that the input starts in the middle of. -/
def quotedToken (w : Bytes) : Token := ⟨0, .string, 0, CHAR_SINGLE, w.take (TOKEN_SIZE - 1)⟩

/-- Behind an imagined single quote, the input is a string up to its first quote, unless a backslash
or a second quote escapes that one. -/
theorem parseStringCore_quoted (hs : sf.s = w ++ CHAR_SINGLE :: rest) (hcurrent : sf.current = .clear)
    (hw : CHAR_SINGLE ∉ w) (hslash : isBackslashEscaped w = false) (hrest : ∀ b ∈ rest.head?, b ≠ CHAR_SINGLE) :
    sf.parseStringCore 0 CHAR_SINGLE 0 = some { sf with current := quotedToken w, pos := w.length + 1 } := by
  have hmemchr : memchr sf.s 0 CHAR_SINGLE = some (some w.length) := by
    have h := memchr_append (u := []) rest hw
    rw [List.nil_append, List.length_nil, Nat.zero_add] at h
    rw [hs]
    exact h
  have hslice : slice sf.s 0 w.length = some w := by
    rw [hs]
    exact slice_append [] w (CHAR_SINGLE :: rest)
  have hquote : sf.s[w.length]? = some CHAR_SINGLE := by
    rw [hs, List.getElem?_append_right le_rfl, Nat.sub_self]
    rfl
  have hdouble : sf.isDoubleDelimEscaped w.length = some false := by
    unfold isDoubleDelimEscaped andAlso
    by_cases hin : w.length + 1 < sf.len
    · obtain ⟨b, hb⟩ := getElem?_of_lt hin
      have hhead : rest.head? = some b := by
        rw [hs, List.getElem?_append_right (Nat.le_succ _), Nat.succ_sub le_rfl, Nat.sub_self, List.getElem?_cons_succ,
          ← List.head?_eq_getElem?] at hb
        exact hb
      rw [if_pos hin, hb, hquote]
      simp only [Option.bind_eq_bind, Option.bind_some, beq_false_of_ne (hrest b hhead)]
    · rw [if_neg hin]
  have hassign : sf.assign .string 0 w.length (w.length + 1) =
      some { sf with current := ⟨0, .string, 0, 0, w.take (TOKEN_SIZE - 1)⟩, pos := w.length + 1 } := by
    have hle : 0 + w.length ≤ sf.len := by
      rw [len, hs, List.length_append]
      omega
    rw [assign_of_le hle, hs, List.drop_zero, List.take_append_of_le_length (min_le_left _ _), Nat.min_comm,
      ← List.take_take, List.take_length, hcurrent]
    rfl
  have hsame : sf.withQuotes 0 sf.current.strClose = sf := by
    cases sf
    simp only at hcurrent
    subst hcurrent
    rfl
  unfold parseStringCore
  rw [Nat.add_zero, hmemchr, Option.bind_eq_bind, Option.bind_some, if_neg (Nat.lt_irrefl 0), hsame, stringLoop]
  simp only [Nat.sub_zero, hslice, hslash, hdouble, hassign, Option.bind_eq_bind, Option.bind_some]
  rfl

theorem tokenize_quoted {mysql : Bool} (hw : CHAR_SINGLE ∉ w) (hslash : isBackslashEscaped w = false)
    (hrest : ∀ b ∈ rest.head?, b ≠ CHAR_SINGLE) :
    (init (w ++ CHAR_SINGLE :: rest) ⟨.single, mysql⟩).tokenize signedChar T =
      some (true,
        { init (w ++ CHAR_SINGLE :: rest) ⟨.single, mysql⟩ with
          current := quotedToken w
          pos := w.length + 1
          tokens := 1 }) := by
  have hlen : (init (w ++ CHAR_SINGLE :: rest) ⟨.single, mysql⟩).len ≠ 0 := by
    unfold len init
    rw [List.length_append, List.length_cons]
    omega
  have hquote : Quote.single ≠ Quote.none := by decide
  have hstring : parseStringCore { init (w ++ CHAR_SINGLE :: rest) ⟨.single, mysql⟩ with current := .clear } 0
      CHAR_SINGLE 0 = some
      { init (w ++ CHAR_SINGLE :: rest) ⟨.single, mysql⟩ with current := quotedToken w, pos := w.length + 1 } :=
    parseStringCore_quoted rfl rfl hw hslash hrest
  unfold tokenize
  rw [if_neg hlen]
  dsimp only
  rw [if_pos ⟨rfl, hquote⟩]
  exact congrArg (fun r => r.bind fun sf => some (true, { sf with tokens := sf.tokens + 1 })) hstring

/-! ### Feeding -/

/-- No comment has been noted. -/
def Quiet (sf sf' : SqliState) : Prop := sf'.commentDdx = sf.commentDdx ∧ sf'.commentHash = sf.commentHash

/-- The calls of the tokenizer deliver these tokens, and then the end.  Only a comment is noted. -/
def Feeds : SqliState → List Token → Prop
  | sf, [] => ∃ sf', sf.tokenize signedChar T = some (false, sf') ∧ Quiet sf sf'
  | sf, t :: toks => ∃ sf', sf.tokenize signedChar T = some (true, sf') ∧ sf'.current = t ∧
      (t.type = .comment ∨ Quiet sf sf') ∧ Feeds sf' toks

end SqliState

open SqliState

/-- `Lexemes T p rest toks`: the text `rest` behind `p` is read as `toks`. -/
inductive Lexemes : Bytes → Bytes → List Token → Prop
  | nil (p : Bytes) : Lexemes p [] []
  | white {p rest : Bytes} {toks : List Token} {b : UInt8} (hb : charParseMap b = .white)
      (h : Lexemes (p ++ [b]) rest toks) : Lexemes p (b :: rest) toks
  | name {p w rest : Bytes} {toks : List Token} (hw : IsName w) (hrest : Blank rest) (h : Lexemes (p ++ w) rest toks) :
      Lexemes p (w ++ rest) (wordToken T p.length w :: toks)
  | number {p d rest : Bytes} {toks : List Token} (hd : IsNumber d) (hrest : EndsNumber rest)
      (h : Lexemes (p ++ d) rest toks) : Lexemes p (d ++ rest) (numberToken p.length d :: toks)
  | equals {p rest : Bytes} {toks : List Token} {b : UInt8} (htable : T.typeOf [CHAR_EQUALS, b] = .none)
      (h : Lexemes (p ++ [CHAR_EQUALS]) (b :: rest) toks) :
      Lexemes p (CHAR_EQUALS :: b :: rest) (operatorToken p.length CHAR_EQUALS :: toks)
  | comment {p c : Bytes} (hc : 10 ∉ c) :
      Lexemes p (CHAR_DASH :: CHAR_DASH :: c) [commentToken p.length (CHAR_DASH :: CHAR_DASH :: c)]

/-- What a call delivers of the tokens that are left. -/
def Delivers (sf : SqliState) (r : Option (Bool × SqliState)) : List Token → Prop
  | [] => ∃ sf', r = some (false, sf') ∧ Quiet sf sf'
  | t :: toks => ∃ sf' p rest, r = some (true, sf') ∧ sf'.current = t ∧ (t.type = .comment ∨ Quiet sf sf') ∧
      sf'.flags = sf.flags ∧ sf.pos < sf'.pos ∧ sf'.s = sf.s ∧ At sf' p rest ∧ Lexemes T p rest toks

theorem delivers_of_run {sf sf' : SqliState} {p rest p' rest' : Bytes} {b : UInt8} {t : Token} {toks : List Token}
    {fuel : ℕ} (hat : At sf p (b :: rest)) (hrun : (charParseMap b).run signedChar T sf = some sf')
    (hcurrent : sf'.current = t) (htype : t.type ≠ .none) (hquiet : t.type = .comment ∨ Quiet sf sf')
    (hflags : sf'.flags = sf.flags) (hpos : sf.pos < sf'.pos) (hs : sf'.s = sf.s) (hat' : At sf' p' rest')
    (h : Lexemes T p' rest' toks) : Delivers T sf (sf.tokenizeLoop signedChar T (fuel + 1)) (t :: toks) := by
  have hlen := hat.len
  rw [List.length_cons] at hlen
  have hget : sf.s[sf.pos]? = some b := hat.get 0
  refine ⟨{ sf' with tokens := sf'.tokens + 1 }, p', rest', ?_, hcurrent, hquiet, hflags, hpos, hs,
    ⟨hat'.s, hat'.pos⟩, h⟩
  unfold tokenizeLoop
  rw [if_pos (by omega), hget]
  simp only [Option.bind_eq_bind, Option.bind_some, hrun]
  rw [if_pos (by rw [hcurrent]; exact htype)]

theorem wordType_ne (w : Bytes) : wordType T w ≠ .none := by
  unfold wordType
  split_ifs with h
  · exact h.2
  · decide

/-- The loop of the tokenizer finds the next lexeme behind white space. -/
theorem Lexemes.delivers {p rest : Bytes} {toks : List Token} (h : Lexemes T p rest toks) :
    ∀ {sf : SqliState} {fuel : ℕ}, At sf p rest → sf.current = .clear → sf.flags.mysql = false → rest.length < fuel →
      Delivers T sf (sf.tokenizeLoop signedChar T fuel) toks := by
  induction h with
  | nil p =>
      intro sf fuel hat _ _ hfuel
      obtain ⟨fuel, rfl⟩ := Nat.exists_eq_add_of_lt hfuel
      have hlen := hat.len
      rw [List.length_nil] at hlen
      exact ⟨sf, if_neg (by omega), rfl, rfl⟩
  | @white p rest toks b hb _ ih =>
      intro sf fuel hat hcurrent hansi hfuel
      obtain ⟨fuel, rfl⟩ : ∃ k, fuel = k + 1 := ⟨fuel - 1, by omega⟩
      have hlen := hat.len
      rw [List.length_cons] at hlen hfuel
      have hget : sf.s[sf.pos]? = some b := hat.get 0
      have hloop : sf.tokenizeLoop signedChar T (fuel + 1) =
          ({ sf with pos := sf.pos + 1 } : SqliState).tokenizeLoop signedChar T fuel := by
        conv_lhs => unfold tokenizeLoop
        rw [if_pos (by omega), hget]
        simp only [Option.bind_eq_bind, Option.bind_some, hb, ParseFn.run, parseWhite]
        rw [if_neg (by rw [hcurrent]; decide)]
      have hat1 : At sf p ([b] ++ rest) := hat
      have hat' : At { sf with pos := sf.pos + 1 } (p ++ [b]) rest := hat1.move rfl rfl
      have hnext := ih hat' hcurrent hansi (Nat.lt_of_succ_lt_succ hfuel)
      rw [hloop]
      cases toks with
      | nil => exact hnext
      | cons t toks =>
          obtain ⟨sf', p', rest', hcall, htok, hquiet, hflags, hpos, hs, hat', hlex⟩ := hnext
          exact ⟨sf', p', rest', hcall, htok, hquiet, hflags, (Nat.lt_succ_self _).trans hpos, hs, hat', hlex⟩
  | @name p w rest toks hw hrest hlex _ =>
      intro sf fuel hat hcurrent _ hfuel
      obtain ⟨fuel, rfl⟩ : ∃ k, fuel = k + 1 := ⟨fuel - 1, by omega⟩
      cases hcons : w with
      | nil => exact absurd hcons hw.ne
      | cons b v =>
          have hrun := parseWord_name signedChar T hat hcurrent hw.bytes hrest
          have hb : isNameByte b = true := hw.bytes b (hcons ▸ List.mem_cons_self)
          have hdigit : isDigit b = false := hw.head b (by rw [hcons]; rfl)
          rw [← run_name signedChar T (parseFn_of_name hb hdigit) hat hw hrest] at hrun
          rw [← hcons, ← hat.pos]
          have hpos := List.length_pos_iff.mpr hw.ne
          have hhead : At sf p (b :: (v ++ rest)) := by rw [hcons] at hat; exact hat
          exact delivers_of_run signedChar T hhead hrun rfl (wordType_ne T w) (Or.inr ⟨rfl, rfl⟩) rfl
            (Nat.lt_add_of_pos_right hpos) rfl (hat.move rfl rfl) hlex
  | @number p d rest toks hd hrest hlex _ =>
      intro sf fuel hat hcurrent _ hfuel
      obtain ⟨fuel, rfl⟩ : ∃ k, fuel = k + 1 := ⟨fuel - 1, by omega⟩
      cases hcons : d with
      | nil => exact absurd hcons hd.ne
      | cons b v =>
          have hrun := parseNumber_digits hat hcurrent hd hrest
          have hb : isDigit b = true := hd.bytes b (hcons ▸ List.mem_cons_self)
          have hrun' : (charParseMap b).run signedChar T sf = sf.parseNumber := by rw [parseFn_of_digit hb]; rfl
          have hpos := List.length_pos_iff.mpr hd.ne
          rw [← hcons, ← hat.pos]
          have hhead : At sf p (b :: (v ++ rest)) := by rw [hcons] at hat; exact hat
          exact delivers_of_run signedChar T hhead (hrun'.trans hrun) rfl (show TokenType.number ≠ .none by decide)
            (Or.inr ⟨rfl, rfl⟩) rfl (Nat.lt_add_of_pos_right hpos) rfl (hat.move rfl rfl) hlex
  | @equals p rest toks b htable hlex _ =>
      intro sf fuel hat hcurrent _ hfuel
      obtain ⟨fuel, rfl⟩ : ∃ k, fuel = k + 1 := ⟨fuel - 1, by omega⟩
      have hrun := parseOperator2_equals signedChar T hat hcurrent htable
      have hat1 : At sf p ([CHAR_EQUALS] ++ (b :: rest)) := hat
      rw [← hat.pos]
      exact delivers_of_run signedChar T hat hrun rfl (show TokenType.operator ≠ .none by decide) (Or.inr ⟨rfl, rfl⟩)
        rfl
        (Nat.lt_succ_self _) rfl (hat1.move rfl rfl) hlex
  | @comment p c hc =>
      intro sf fuel hat hcurrent hansi hfuel
      obtain ⟨fuel, rfl⟩ : ∃ k, fuel = k + 1 := ⟨fuel - 1, by omega⟩
      obtain ⟨ddx, hrun⟩ := parseDash_comment hat hcurrent hansi hc
      have hlen := hat.len
      simp only [List.length_cons] at hlen
      rw [← hat.pos]
      have hlt : sf.pos < sf.len := by omega
      refine delivers_of_run signedChar T hat hrun rfl (show TokenType.comment ≠ .none by decide) (Or.inl rfl)
        rfl hlt rfl ?_
        (.nil sf.s)
      exact ⟨(List.append_nil _).symm, rfl⟩

/-- The tokens of the lexemes are those that the tokenizer delivers. -/
theorem Lexemes.feeds : ∀ {toks : List Token} {p rest : Bytes} {sf : SqliState}, Lexemes T p rest toks → At sf p rest →
    sf.flags.mysql = false → (sf.pos = 0 → sf.flags.quote = .none) → 0 < sf.len → Feeds signedChar T sf toks := by
  intro toks
  induction toks with
  | nil =>
      intro p rest sf h hat hansi hstart hlen
      have hclear : At { sf with current := .clear } p rest := ⟨hat.s, hat.pos⟩
      have hfuel : rest.length < sf.len + 1 := by have := hat.len; omega
      obtain ⟨sf', hcall, hquiet⟩ := h.delivers signedChar T hclear rfl hansi hfuel
      refine ⟨sf', ?_, hquiet⟩
      unfold tokenize
      rw [if_neg hlen.ne', if_neg (fun h => h.2 (hstart h.1))]
      exact hcall
  | cons t toks ih =>
      intro p rest sf h hat hansi hstart hlen
      have hclear : At { sf with current := .clear } p rest := ⟨hat.s, hat.pos⟩
      have hfuel : rest.length < sf.len + 1 := by have := hat.len; omega
      obtain ⟨sf', p', rest', hcall, htok, hquiet, hflags, hpos, hs, hat', hlex⟩ :=
        h.delivers signedChar T hclear rfl hansi hfuel
      refine ⟨sf', ?_, htok, hquiet, ih hlex hat' (by rw [hflags]; exact hansi) (fun h0 => by omega) ?_⟩
      · unfold tokenize
        rw [if_neg hlen.ne', if_neg (fun h => h.2 (hstart h.1))]
        exact hcall
      · unfold len at hlen ⊢
        rw [hs]
        exact hlen

end

end PurpleWolf.Sqli
