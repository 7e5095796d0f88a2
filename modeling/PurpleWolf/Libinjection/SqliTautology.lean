import PurpleWolf.Libinjection.SqliProse

/-! # Tautologies are reported

The text that closes the string it stands in, compares two numbers behind `OR` or `AND`, and comments
out the rest of the statement: it is reported whatever stands in front of the quote, whichever numbers
are compared, however much white space there is, and whatever the comment says.

Behind the quote, the tokens are a string, a logical operator, a number, `=`, a number and a comment.
Folding takes the comparison for a number, and leaves `s&1c`. -/

namespace PurpleWolf.Sqli

open Memory Html5 Xss SqliState

variable (signedChar : Bool) (T : KeywordTable)

/-! ### Folding -/

section Folding

variable {signedChar T} {toks u v : List Token} {left : ℕ} {more : Bool} {sf sf' : SqliState}
    {lastComment : Option Token}
  {a b c : Token}

theorem fetch_enough {want fuel : ℕ} (hleft : left + want ≤ toks.length) :
    (⟨sf, toks, left, more, lastComment⟩ : FoldState).fetch signedChar T want (fuel + 1) =
      some ⟨sf, toks, left, more, lastComment⟩ := by
  have hsub : sizeSub toks.length left = some (toks.length - left) := sizeSub_of_le (by omega)
  unfold FoldState.fetch andAlso FoldState.pos
  simp only [hsub, Option.bind_eq_bind, Option.bind_some]
  rw [decide_eq_false (by omega), ite_self]
  rfl

theorem fetch_one {want fuel : ℕ} (hmax : toks.length ≤ MAX_TOKENS) (hle : left ≤ toks.length)
    (hwant : toks.length + 1 = left + want) (hcall : sf.tokenize signedChar T = some (true, sf'))
    (hcurrent : sf'.current.type ≠ .comment) :
    (⟨sf, toks, left, true, lastComment⟩ : FoldState).fetch signedChar T want (fuel + 2) =
      some ⟨sf', toks ++ [sf'.current], left, true, none⟩ := by
  have hsub : sizeSub toks.length left = some (toks.length - left) := sizeSub_of_le hle
  unfold FoldState.fetch andAlso FoldState.pos
  rw [if_pos ⟨rfl, hmax⟩]
  simp only [hsub, hcall, Option.bind_eq_bind, Option.bind_some]
  rw [decide_eq_true (by omega), if_pos rfl, if_neg (by decide), if_neg hcurrent]
  exact fetch_enough (by rw [List.length_append, List.length_singleton]; omega)

/-- A comment at the end of the input is kept aside. -/
theorem fetch_comment {sf'' : SqliState} {want fuel : ℕ} (hmax : toks.length ≤ MAX_TOKENS) (hle : left ≤ toks.length)
    (hwant : toks.length < left + want) (hcall : sf.tokenize signedChar T = some (true, sf'))
    (hcurrent : sf'.current.type = .comment) (hend : sf'.tokenize signedChar T = some (false, sf'')) :
    (⟨sf, toks, left, true, lastComment⟩ : FoldState).fetch signedChar T want (fuel + 3) =
      some ⟨sf'', toks, left, false, some sf'.current⟩ := by
  have hsub : sizeSub toks.length left = some (toks.length - left) := sizeSub_of_le hle
  have hfew : toks.length - left < want := by omega
  unfold FoldState.fetch andAlso FoldState.pos
  rw [if_pos ⟨rfl, hmax⟩]
  simp only [hsub, hcall, Option.bind_eq_bind, Option.bind_some]
  rw [decide_eq_true hfew, if_pos rfl, if_neg (by decide), if_pos hcurrent]
  unfold FoldState.fetch andAlso FoldState.pos
  rw [if_pos ⟨rfl, hmax⟩]
  simp only [hsub, hend, Option.bind_eq_bind, Option.bind_some]
  rw [decide_eq_true hfew, if_pos rfl, if_pos (by decide)]
  unfold FoldState.fetch andAlso
  rw [if_neg (fun h => by cases h.1)]
  rfl

theorem replace_split {first second : Token} {drop : ℕ} {move : Left} (hdrop : drop ≤ u.length + (2 + v.length)) :
    (⟨sf, u ++ a :: b :: v, u.length, more, lastComment⟩ : FoldState).replace first second drop move =
      some ⟨sf, (u ++ first :: second :: v).take (u.length + (2 + v.length) - drop), move.move u.length, more,
      lastComment⟩ := by
  have hpos : (u ++ a :: b :: v).length = u.length + (2 + v.length) := by
    rw [List.length_append, List.length_cons, List.length_cons]
    omega
  unfold FoldState.replace FoldState.pos
  rw [hpos, sizeSub_of_le hdrop]
  simp only [Option.bind_eq_bind, Option.bind_some, FoldState.set_split]

theorem getElem?_split : (u ++ a :: b :: v)[u.length]? = some a ∧ (u ++ a :: b :: v)[u.length + 1]? = some b ∧
    (u ++ a :: b :: v)[u.length + 2]? = v.head? := by
  refine ⟨?_, ?_, ?_⟩
  · rw [List.getElem?_append_right le_rfl, Nat.sub_self]
    rfl
  · rw [List.getElem?_append_right (Nat.le_add_right _ _), Nat.add_sub_cancel_left]
    rfl
  · rw [List.getElem?_append_right (Nat.le_add_right _ _), Nat.add_sub_cancel_left, List.head?_eq_getElem?]
    rfl

/-- Where no rule for two tokens applies, folding goes on with the rules for three. -/
theorem foldBody_two {sf₁ : SqliState} {more₁ : Bool} {lastComment₁ : Option Token}
    (hfive : (⟨sf, toks, left, true, lastComment⟩ : FoldState).fiveTokens = ⟨sf, toks, left, true, lastComment⟩)
    (hmax : left < MAX_TOKENS)
    (hfetch : (⟨sf, toks, left, true, lastComment⟩ : FoldState).fetch signedChar T 2 (sf.len + 2) =
      some ⟨sf₁, u ++ a :: b :: v, u.length, more₁, lastComment₁⟩)
    (htwo : twoTokens signedChar T a b = some (.onward a b .keep)) :
    (⟨sf, toks, left, true, lastComment⟩ : FoldState).foldBody signedChar T =
      ((⟨sf₁, u ++ a :: b :: v, u.length, more₁, lastComment₁⟩ : FoldState).foldThree signedChar T).map .inl := by
  obtain ⟨ha, hb, -⟩ := getElem?_split (u := u) (a := a) (b := b) (v := v)
  have hpos : (⟨sf₁, u ++ a :: b :: v, u.length, more₁, lastComment₁⟩ : FoldState).pos = u.length + (2 + v.length) := by
    unfold FoldState.pos
    rw [List.length_append, List.length_cons, List.length_cons]
    omega
  have hsame : (u ++ a :: b :: v).take (u.length + (2 + v.length) - 0) = u ++ a :: b :: v := by
    apply List.take_of_length_le
    rw [Nat.sub_zero, ← hpos]
    exact le_rfl
  unfold FoldState.foldBody
  rw [hfive]
  simp only [Bool.not_true, Bool.false_or]
  rw [if_neg (by simpa using hmax)]
  simp only [hfetch, Option.bind_eq_bind, Option.bind_some, hpos,
    sizeSub_of_le (Nat.le_add_right u.length (2 + v.length)), ha, hb, htwo]
  rw [if_neg (by omega)]
  unfold FoldState.foldTwo
  dsimp only
  rw [replace_split (Nat.zero_le _), hsame]
  rfl

theorem foldThree_short {sf₁ : SqliState} {more₁ : Bool} {lastComment₁ : Option Token}
    (hfetch : (⟨sf, u ++ [a, b], u.length, more, lastComment⟩ : FoldState).fetch signedChar T 3 (sf.len + 2) =
      some ⟨sf₁, u ++ [a, b], u.length, more₁, lastComment₁⟩) :
    (⟨sf, u ++ [a, b], u.length, more, lastComment⟩ : FoldState).foldThree signedChar T =
      some ⟨sf₁, u ++ [a, b], u.length + 2, more₁, lastComment₁⟩ := by
  have hpos : (⟨sf₁, u ++ [a, b], u.length, more₁, lastComment₁⟩ : FoldState).pos = u.length + 2 :=
    List.length_append
  unfold FoldState.foldThree
  simp only [hfetch, Option.bind_eq_bind, Option.bind_some, hpos, sizeSub_of_le (Nat.le_add_right u.length 2)]
  rw [if_pos (by omega)]

theorem foldThree_eq {sf₁ : SqliState} {more₁ : Bool} {lastComment₁ : Option Token}
    (hfetch : (⟨sf, u ++ a :: b :: v, u.length, more, lastComment⟩ : FoldState).fetch signedChar T 3 (sf.len + 2) =
      some ⟨sf₁, u ++ [a, b, c], u.length, more₁, lastComment₁⟩) :
    (⟨sf, u ++ a :: b :: v, u.length, more, lastComment⟩ : FoldState).foldThree signedChar T =
      match threeTokens signedChar a b c with
      | .again first second drop move =>
          (⟨sf₁, u ++ [a, b, c], u.length, more₁, lastComment₁⟩ : FoldState).replace first second drop move
      | .onward first second move =>
          ((⟨sf₁, u ++ [a, b, c], u.length, more₁, lastComment₁⟩ : FoldState).replace first second 0 move).map
            fun st => { st with left := st.left + 1 }
      | .evil => none := by
  obtain ⟨ha, hb, hc⟩ := getElem?_split (u := u) (a := a) (b := b) (v := [c])
  have hpos : (⟨sf₁, u ++ [a, b, c], u.length, more₁, lastComment₁⟩ : FoldState).pos = u.length + 3 :=
    List.length_append
  unfold FoldState.foldThree
  simp only [hfetch, Option.bind_eq_bind, Option.bind_some, hpos, sizeSub_of_le (Nat.le_add_right u.length 3),
    ha, hb, hc]
  rw [if_neg (by omega)]
  simp only [List.head?_cons, Option.bind_some]
  cases threeTokens signedChar a b c with
  | again first second drop move => rfl
  | onward first second move =>
      dsimp only
      cases (⟨sf₁, u ++ [a, b, c], u.length, more₁, lastComment₁⟩ : FoldState).replace first second 0 move <;> rfl
  | evil => rfl

/-! ### The tokens of a tautology -/

variable (signedChar) in
/-- A string, a logical operator, two numbers around a binary operator, and a comment. -/
structure Tautology (t0 t1 t2 t3 t4 t5 : Token) : Prop where
  string : t0.type = .string
  logic : t1.type = .logicOperator
  left : t2.type = .number
  equals : t3.type = .operator
  binary : t3.isUnaryOp signedChar = false
  right : t4.type = .number
  comment : t5.type = .comment

variable {t0 t1 t2 t3 t4 t5 : Token}

theorem not_unaryOp {t : Token} (h : t.type ≠ .operator) : t.isUnaryOp signedChar = false := if_pos h

theorem twoTokens_string (ha : a.type = .string) (hb : b.type = .logicOperator) :
    twoTokens signedChar T a b = some (.onward a b .keep) := by
  unfold twoTokens syntaxMergeWords twoTokensApart
  simp [ha, hb, MERGED_TYPES]

theorem twoTokens_logic (ha : a.type = .logicOperator) (hb : b.type = .number) :
    twoTokens signedChar T a b = some (.onward a b .keep) := by
  have hunary : b.isUnaryOp signedChar = false := not_unaryOp (by rw [hb]; decide)
  unfold twoTokens syntaxMergeWords twoTokensApart
  simp [ha, hb, hunary, MERGED_TYPES]

theorem twoTokens_number (ha : a.type = .number) (hb : b.type = .operator) :
    twoTokens signedChar T a b = some (.onward a b .keep) := by
  unfold twoTokens syntaxMergeWords twoTokensApart
  simp [ha, hb, MERGED_TYPES]

theorem threeTokens_string (ha : a.type = .string) (hb : b.type = .logicOperator) (hc : c.type = .number) :
    threeTokens signedChar a b c = .onward a b .keep := by
  unfold threeTokens
  simp [ha, hb, hc]

theorem threeTokens_logic (ha : a.type = .logicOperator) (hb : b.type = .number) (hc : c.type = .operator) :
    threeTokens signedChar a b c = .onward a b .keep := by
  unfold threeTokens
  simp [ha, hb, hc]

theorem threeTokens_number (ha : a.type = .number) (hb : b.type = .operator) (hc : c.type = .number) :
    threeTokens signedChar a b c = .again a b 2 .reset := if_pos ⟨ha, hb, hc⟩

theorem foldBody_onward {sf₁ sf₂ : SqliState} {more₁ more₂ : Bool} {lastComment₁ lastComment₂ : Option Token}
    (hfive : (⟨sf, toks, left, true, lastComment⟩ : FoldState).fiveTokens = ⟨sf, toks, left, true, lastComment⟩)
    (hmax : left < MAX_TOKENS)
    (hfetch : (⟨sf, toks, left, true, lastComment⟩ : FoldState).fetch signedChar T 2 (sf.len + 2) =
      some ⟨sf₁, u ++ a :: b :: v, u.length, more₁, lastComment₁⟩)
    (htwo : twoTokens signedChar T a b = some (.onward a b .keep))
    (hfetch' : (⟨sf₁, u ++ a :: b :: v, u.length, more₁, lastComment₁⟩ : FoldState).fetch signedChar T 3 (sf₁.len + 2) =
      some ⟨sf₂, u ++ [a, b, c], u.length, more₂, lastComment₂⟩)
    (hthree : threeTokens signedChar a b c = .onward a b .keep) :
    (⟨sf, toks, left, true, lastComment⟩ : FoldState).foldBody signedChar T =
      some (.inl ⟨sf₂, u ++ [a, b, c], u.length + 1, more₂, lastComment₂⟩) := by
  have hsame : (u ++ [a, b, c]).take (u.length + (2 + 1) - 0) = u ++ [a, b, c] :=
    List.take_of_length_le List.length_append.le
  rw [foldBody_two hfive hmax hfetch htwo, foldThree_eq hfetch', hthree]
  dsimp only
  rw [replace_split (Nat.zero_le _), List.length_singleton, hsame]
  rfl

/-- The comparison is folded into its first number. -/
theorem foldLoop_tautology {sf1 sf2 sf3 sf4 sf5 sf6 sf7 : SqliState} (h : Tautology signedChar t0 t1 t2 t3 t4 t5)
    (h1 : sf1.tokenize signedChar T = some (true, sf2)) (c1 : sf2.current = t1)
    (h2 : sf2.tokenize signedChar T = some (true, sf3)) (c2 : sf3.current = t2)
    (h3 : sf3.tokenize signedChar T = some (true, sf4)) (c3 : sf4.current = t3)
    (h4 : sf4.tokenize signedChar T = some (true, sf5)) (c4 : sf5.current = t4)
    (h5 : sf5.tokenize signedChar T = some (true, sf6)) (c5 : sf6.current = t5)
    (h6 : sf6.tokenize signedChar T = some (false, sf7)) (fuel : ℕ) :
    (⟨sf1, [t0], 0, true, none⟩ : FoldState).foldLoop signedChar T (fuel + 6) = some (sf7, [t0, t1, t2, t5]) := by
  have n1 : sf2.current.type ≠ .comment := by rw [c1, h.logic]; decide
  have n2 : sf3.current.type ≠ .comment := by rw [c2, h.left]; decide
  have n3 : sf4.current.type ≠ .comment := by rw [c3, h.equals]; decide
  have n4 : sf5.current.type ≠ .comment := by rw [c4, h.right]; decide
  have n5 : sf6.current.type = .comment := by rw [c5, h.comment]
  have fetch1 : (⟨sf1, [t0], 0, true, none⟩ : FoldState).fetch signedChar T 2 (sf1.len + 2) =
      some ⟨sf2, [t0, t1], 0, true, none⟩ := by
    rw [← c1]
    exact fetch_one (by simp [MAX_TOKENS]) (Nat.zero_le _) rfl h1 n1
  have fetch2 : (⟨sf2, [t0, t1], 0, true, none⟩ : FoldState).fetch signedChar T 3 (sf2.len + 2) =
      some ⟨sf3, [t0, t1, t2], 0, true, none⟩ := by
    rw [← c2]
    exact fetch_one (by simp [MAX_TOKENS]) (Nat.zero_le _) rfl h2 n2
  have step1 : (⟨sf1, [t0], 0, true, none⟩ : FoldState).foldBody signedChar T =
      some (.inl ⟨sf3, [t0, t1, t2], 1, true, none⟩) :=
    foldBody_onward (u := []) (v := []) rfl (by decide) fetch1 (twoTokens_string h.string h.logic) fetch2
      (threeTokens_string h.string h.logic h.left)
  have enough2 : (⟨sf3, [t0, t1, t2], 1, true, none⟩ : FoldState).fetch signedChar T 2 (sf3.len + 2) =
      some ⟨sf3, [t0, t1, t2], 1, true, none⟩ := fetch_enough le_rfl
  have fetch3 : (⟨sf3, [t0, t1, t2], 1, true, none⟩ : FoldState).fetch signedChar T 3 (sf3.len + 2) =
      some ⟨sf4, [t0, t1, t2, t3], 1, true, none⟩ := by
    rw [← c3]
    exact fetch_one (by simp [MAX_TOKENS]) (by simp) rfl h3 n3
  have step2 : (⟨sf3, [t0, t1, t2], 1, true, none⟩ : FoldState).foldBody signedChar T =
      some (.inl ⟨sf4, [t0, t1, t2, t3], 2, true, none⟩) :=
    foldBody_onward (u := [t0]) (v := []) rfl (by decide) enough2 (twoTokens_logic h.logic h.left) fetch3
      (threeTokens_logic h.logic h.left h.equals)
  have enough3 : (⟨sf4, [t0, t1, t2, t3], 2, true, none⟩ : FoldState).fetch signedChar T 2 (sf4.len + 2) =
      some ⟨sf4, [t0, t1, t2, t3], 2, true, none⟩ := fetch_enough le_rfl
  have fetch4 : (⟨sf4, [t0, t1, t2, t3], 2, true, none⟩ : FoldState).fetch signedChar T 3 (sf4.len + 2) =
      some ⟨sf5, [t0, t1, t2, t3, t4], 2, true, none⟩ := by
    rw [← c4]
    exact fetch_one (by simp [MAX_TOKENS]) (by simp) rfl h4 n4
  have step3 : (⟨sf4, [t0, t1, t2, t3], 2, true, none⟩ : FoldState).foldBody signedChar T =
      some (.inl ⟨sf5, [t0, t1, t2], 0, true, none⟩) := by
    rw [foldBody_two (u := [t0, t1]) (v := []) rfl (by decide) enough3 (twoTokens_number h.left h.equals),
      foldThree_eq (u := [t0, t1]) (v := []) fetch4, threeTokens_number h.left h.equals h.right]
    rfl
  have enough4 : (⟨sf5, [t0, t1, t2], 0, true, none⟩ : FoldState).fetch signedChar T 2 (sf5.len + 2) =
      some ⟨sf5, [t0, t1, t2], 0, true, none⟩ := fetch_enough (by simp)
  have enough5 : (⟨sf5, [t0, t1, t2], 0, true, none⟩ : FoldState).fetch signedChar T 3 (sf5.len + 2) =
      some ⟨sf5, [t0, t1, t2], 0, true, none⟩ := fetch_enough le_rfl
  have step4 : (⟨sf5, [t0, t1, t2], 0, true, none⟩ : FoldState).foldBody signedChar T =
      some (.inl ⟨sf5, [t0, t1, t2], 1, true, none⟩) :=
    foldBody_onward (u := []) (v := [t2]) rfl (by decide) enough4 (twoTokens_string h.string h.logic) enough5
      (threeTokens_string h.string h.logic h.left)
  have enough6 : (⟨sf5, [t0, t1, t2], 1, true, none⟩ : FoldState).fetch signedChar T 2 (sf5.len + 2) =
      some ⟨sf5, [t0, t1, t2], 1, true, none⟩ := fetch_enough le_rfl
  have fetch6 : (⟨sf5, [t0, t1, t2], 1, true, none⟩ : FoldState).fetch signedChar T 3 (sf5.len + 2) =
      some ⟨sf7, [t0, t1, t2], 1, false, some t5⟩ := by
    have hlen : ∃ n, sf5.len + 2 = n + 3 := by
      refine ⟨sf5.len - 1, ?_⟩
      have hpos : 0 < sf5.len := by
        rw [Nat.pos_iff_ne_zero]
        intro hzero
        unfold tokenize at h5
        rw [if_pos hzero] at h5
        cases h5
      omega
    obtain ⟨n, hn⟩ := hlen
    rw [hn, ← c5]
    exact fetch_comment (by simp [MAX_TOKENS]) (by simp) (by simp) h5 n5 h6
  have step5 : (⟨sf5, [t0, t1, t2], 1, true, none⟩ : FoldState).foldBody signedChar T =
      some (.inl ⟨sf7, [t0, t1, t2], 3, false, some t5⟩) := by
    rw [foldBody_two (u := [t0]) (v := []) rfl (by decide) enough6 (twoTokens_logic h.logic h.left),
      foldThree_short (u := [t0]) fetch6]
    rfl
  have step6 : (⟨sf7, [t0, t1, t2], 3, false, some t5⟩ : FoldState).foldBody signedChar T =
      some (.inr (sf7, [t0, t1, t2, t5])) := rfl
  simp only [FoldState.foldLoop, step1, step2, step3, step4, step5, step6, Option.bind_eq_bind, Option.bind_some]

end Folding

/-- Where the tokenizer delivers a tautology, its fingerprint is `s&1c`. -/
theorem fingerprint_tautology {s : Bytes} {flags : Flags} {t0 t1 t2 t3 t4 t5 : Token}
    (h : Tautology signedChar t0 t1 t2 t3 t4 t5) (hfeeds : Feeds signedChar T (init s flags) [t0, t1, t2, t3, t4, t5]) :
    ∃ r, fingerprint signedChar T s flags = some r ∧ r.fingerprint = [.string, .logicOperator, .number, .comment] := by
  obtain ⟨sf1, h0, c0, -, sf2, h1, c1, -, sf3, h2, c2, -, sf4, h3, c3, -,
    sf5, h4, c4, -, sf6, h5, c5, -, sf7, h6, -⟩ := hfeeds
  have hskip : (init s flags).skipInitial signedChar T ((init s flags).len + 2) = some (true, sf1) := by
    have hunary : t0.isUnaryOp signedChar = false := not_unaryOp (by rw [h.string]; decide)
    have hkept : ¬(sf1.current.type ∈ [.comment, .leftparens, .sqltype] ∨ sf1.current.isUnaryOp signedChar = true) := by
      rw [c0, hunary]
      simp [h.string]
    unfold skipInitial
    simp only [h0, Option.bind_eq_bind, Option.bind_some]
    rw [if_neg hkept]
  have hfuel : ∃ k, foldFuel sf1.len = k + 6 := ⟨foldFuel sf1.len - 6, by unfold foldFuel; omega⟩
  obtain ⟨k, hk⟩ := hfuel
  have hfold : (init s flags).fold signedChar T = some (sf7, [t0, t1, t2, t5]) := by
    unfold SqliState.fold
    simp only [hskip, Option.bind_eq_bind, Option.bind_some]
    rw [if_neg (by decide), hk, c0]
    exact foldLoop_tautology h h1 c1 h2 c2 h3 c3 h4 c4 h5 c5 h6 k
  have htick : markTickComment [t0, t1, t2, t5] = [t0, t1, t2, t5] := by
    refine if_neg fun hmark => ?_
    have htype : t5.isTickComment = true := hmark.2
    unfold Token.isTickComment at htype
    rw [h.comment] at htype
    cases htype
  refine ⟨⟨sf7, [t0, t1, t2, t5], [.string, .logicOperator, .number, .comment]⟩, ?_, rfl⟩
  unfold fingerprint
  simp only [hfold, htick, Option.bind_eq_bind, Option.bind_some,
    List.map_cons, List.map_nil, h.string, h.logic, h.left,
    h.comment]
  rfl

/-! ### The text -/

/-- White space. -/
def IsWhite (ws : Bytes) : Prop := ∀ b ∈ ws, charIsWhite b = true

/-- The text of a tautology: what closes the string, an operator such as `OR`, the comparison of two
numbers, and a comment. -/
structure TautologyText where
  value : Bytes
  single : CHAR_SINGLE ∉ value
  escaped : isBackslashEscaped value = false
  op : Bytes
  name : IsName op
  short : op.length < TOKEN_SIZE
  logic : T.typeOf op = .logicOperator
  left : Bytes
  leftNumber : IsNumber left
  right : Bytes
  rightNumber : IsNumber right
  comment : Bytes
  line : 10 ∉ comment
  /-- The white space in front of the operator, behind it, on both sides of `=`, and at the comment. -/
  ws : Fin 5 → Bytes
  white : ∀ i, IsWhite (ws i)
  apart : ws 1 ≠ []

namespace TautologyText

variable {T} (x : TautologyText T)

/-- The part behind the quote. -/
def tail : Bytes :=
  x.ws 0 ++ (x.op ++ (x.ws 1 ++ (x.left ++ (x.ws 2 ++ (CHAR_EQUALS :: (x.ws 3 ++ (x.right ++
    (x.ws 4 ++ CHAR_DASH :: CHAR_DASH :: x.comment))))))))

def text : Bytes := x.value ++ CHAR_SINGLE :: x.tail

end TautologyText

theorem Lexemes.whites {ws rest : Bytes} {toks : List Token} : ∀ {p : Bytes}, IsWhite ws →
    Lexemes T (p ++ ws) rest toks → Lexemes T p (ws ++ rest) toks := by
  induction ws with
  | nil =>
      intro p _ h
      rwa [List.append_nil] at h
  | cons b ws ih =>
      intro p hws h
      obtain ⟨hb, hws⟩ := List.forall_mem_cons.mp hws
      refine .white (parseFn_of_white hb) (ih hws ?_)
      rwa [List.append_assoc]

theorem endsNumber_append {ws rest : Bytes} (hws : IsWhite ws) (hrest : EndsNumber rest) : EndsNumber (ws ++ rest) := by
  cases ws with
  | nil => exact hrest
  | cons b ws =>
      intro c hc
      cases hc
      exact white_ends (hws _ List.mem_cons_self)

theorem blank_append {ws : Bytes} (rest : Bytes) (hws : IsWhite ws) (hne : ws ≠ []) : Blank (ws ++ rest) := by
  cases ws with
  | nil => exact absurd rfl hne
  | cons b ws =>
      intro c hc
      cases hc
      exact hws _ List.mem_cons_self

theorem TautologyText.lexemes (htable : ∀ e ∈ T.entries, e.1.head? ≠ some CHAR_EQUALS) (x : TautologyText T)
    (p : Bytes) :
    ∃ p1 p2 p3 p4 p5, Lexemes T p x.tail [wordToken T p1 x.op, numberToken p2 x.left, operatorToken p3 CHAR_EQUALS,
      numberToken p4 x.right, commentToken p5 (CHAR_DASH :: CHAR_DASH :: x.comment)] := by
  have hequals : ∀ b, T.typeOf [CHAR_EQUALS, b] = .none := fun b =>
    T.typeOf_eq_none fun e he heq => htable e he (by rw [heq]; rfl)
  have hends : EndsNumber (x.ws 4 ++ CHAR_DASH :: CHAR_DASH :: x.comment) := by
    refine endsNumber_append (x.white 4) fun b hb => ?_
    cases hb
    decide
  have hends' : EndsNumber (x.ws 2 ++ (CHAR_EQUALS :: (x.ws 3 ++ (x.right ++
      (x.ws 4 ++ CHAR_DASH :: CHAR_DASH :: x.comment))))) := by
    refine endsNumber_append (x.white 2) fun b hb => ?_
    cases hb
    decide
  have hcompare : ∀ q, ∃ p3 p4 p5, Lexemes T q (CHAR_EQUALS :: (x.ws 3 ++ (x.right ++
      (x.ws 4 ++ CHAR_DASH :: CHAR_DASH :: x.comment)))) [operatorToken p3 CHAR_EQUALS, numberToken p4 x.right,
        commentToken p5 (CHAR_DASH :: CHAR_DASH :: x.comment)] := by
    intro q
    obtain ⟨b, rest, hnext⟩ : ∃ b rest, x.ws 3 ++ (x.right ++ (x.ws 4 ++ CHAR_DASH :: CHAR_DASH :: x.comment)) =
        b :: rest := by
      refine List.exists_cons_of_ne_nil fun hnil => x.rightNumber.ne ?_
      exact (List.append_eq_nil_iff.mp (List.append_eq_nil_iff.mp hnil).2).1
    have hrest := Lexemes.whites T (p := q ++ [CHAR_EQUALS]) (x.white 3)
      (Lexemes.number x.rightNumber hends (Lexemes.whites T (x.white 4) (Lexemes.comment x.line)))
    rw [hnext] at hrest ⊢
    exact ⟨_, _, _, .equals (hequals b) hrest⟩
  obtain ⟨p3, p4, p5, hlex⟩ := hcompare (p ++ x.ws 0 ++ x.op ++ x.ws 1 ++ x.left ++ x.ws 2)
  exact ⟨_, _, p3, p4, p5, .whites T (x.white 0) (.name x.name (blank_append _ (x.white 1) x.apart)
    (.whites T (x.white 1)
    (.number x.leftNumber hends' (.whites T (x.white 2) hlex))))⟩

/-- **Tautologies are reported**, where the table has `s&1c` among its fingerprints and no operator
that starts with `=`. -/
theorem isSqli_of_tautology (hfingerprint : (ascii "0S&1C", .fingerprint) ∈ T.entries)
    (hequals : ∀ e ∈ T.entries, e.1.head? ≠ some CHAR_EQUALS) (x : TautologyText T) :
    isSqli signedChar T x.text = true := by
  have hclose : ∀ b ∈ x.tail.head?, b ≠ CHAR_SINGLE := by
    intro b hb
    unfold TautologyText.tail at hb
    refine (plain_of_name_or_white ?_).1
    cases hws : x.ws 0 with
    | nil =>
        cases hop : x.op with
        | nil => exact absurd hop x.name.ne
        | cons c op =>
            rw [hws, hop] at hb
            cases hb
            exact Or.inl (x.name.bytes _ (hop ▸ List.mem_cons_self))
    | cons c ws =>
        rw [hws] at hb
        cases hb
        exact Or.inr (x.white 0 _ (hws ▸ List.mem_cons_self))
  have hs : x.text ≠ [] := List.append_ne_nil_of_right_ne_nil _ (List.cons_ne_nil _ _)
  have hlen : 0 < (init x.text ⟨.single, false⟩).len := List.length_pos_iff.mpr hs
  generalize hsf : ({ init x.text ⟨.single, false⟩ with
    current := quotedToken x.value
    pos := x.value.length + 1
    tokens := 1 } : SqliState) = sf
  have hfirst : (init x.text ⟨.single, false⟩).tokenize signedChar T = some (true, sf) := by
    rw [← hsf]
    exact tokenize_quoted signedChar T x.single x.escaped hclose
  have hat : At sf (x.value ++ [CHAR_SINGLE]) x.tail := by
    rw [← hsf]
    refine ⟨?_, by rw [List.length_append]; rfl⟩
    show x.value ++ CHAR_SINGLE :: x.tail = (x.value ++ [CHAR_SINGLE]) ++ x.tail
    rw [List.append_assoc]
    rfl
  have hcurrent : sf.current = quotedToken x.value := by rw [← hsf]
  have hquiet : Quiet (init x.text ⟨.single, false⟩) sf := by
    rw [← hsf]
    exact ⟨rfl, rfl⟩
  obtain ⟨p1, p2, p3, p4, p5, hlex⟩ := x.lexemes T hequals (x.value ++ [CHAR_SINGLE])
  have hrest := hlex.feeds signedChar T hat (by rw [← hsf]; rfl) (fun h => by rw [← hsf] at h; cases h)
    (by rw [← hsf]; exact hlen)
  have hfeeds : Feeds signedChar T (init x.text ⟨.single, false⟩) [quotedToken x.value, wordToken T p1 x.op,
      numberToken p2 x.left, operatorToken p3 CHAR_EQUALS, numberToken p4 x.right,
      commentToken p5 (CHAR_DASH :: CHAR_DASH :: x.comment)] := ⟨sf, hfirst, hcurrent, Or.inr hquiet, hrest⟩
  have hlogic : wordType T x.op = .logicOperator := by
    unfold wordType
    rw [if_pos ⟨x.short, by rw [x.logic]; decide⟩, x.logic]
  obtain ⟨r, hr, hprint⟩ := fingerprint_tautology signedChar T ⟨rfl, hlogic, rfl, rfl, rfl, rfl, rfl⟩ hfeeds
  obtain ⟨r', hr', good⟩ := exists_fingerprint signedChar T ⟨.single, false⟩ hs
  obtain rfl : r = r' := Option.some.inj (hr.symm.trans hr')
  refine (isSqli_iff signedChar T x.text).mpr ⟨hs, ⟨.single, false⟩, .single ?_, ?_⟩
  · exact List.mem_append_right _ List.mem_cons_self
  · rw [reported_iff_check signedChar T hr]
    have hlookup : T.typeOf (chr '0' :: r.fingerprint.map fun type => upcase type.code) = .fingerprint := by
      rw [hprint]
      exact T.typeOf_of_mem hfingerprint
    have hlong : 3 < r.fingerprint.length := by rw [hprint]; decide
    unfold Reading.check
    rw [Reading.blacklist_eq signedChar T good, decide_eq_true ⟨by rw [hprint]; decide, hlookup⟩]
    exact r.notWhitelist_of_long signedChar good hlong

/-- `admin' OR 1=1 -- `, with a tab and in lower case. -/
def adminText : TautologyText KeywordTable.excerpt where
  value := ascii "admin"
  single := by decide
  escaped := by decide
  op := ascii "or"
  name := isName_cons (by decide) (by decide)
  short := by decide
  logic := by decide
  left := ascii "1"
  leftNumber := ⟨by decide, by decide⟩
  right := ascii "1"
  rightNumber := ⟨by decide, by decide⟩
  comment := ascii " "
  line := by decide
  ws := ![[32], [9], [], [], [32]]
  white := by unfold IsWhite; decide
  apart := by decide

end PurpleWolf.Sqli
