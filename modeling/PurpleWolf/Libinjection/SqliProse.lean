import PurpleWolf.Libinjection.SqliLexemes
import PurpleWolf.Libinjection.SqliSafety

/-! # Prose is no SQL injection

Text of plain words and decimal numbers, with white space between them, is passed.  A word is
plain if no entry of the table is the word, or starts with it and a space: then it is read as a bare
word, and merges with none behind it.  No rule of folding applies to bare words and numbers, so the
fingerprint has nothing else in it. -/

namespace PurpleWolf.Sqli

open Memory Html5 Xss SqliState

variable (signedChar : Bool) (T : KeywordTable)

/-- No entry of the table starts with the word. -/
structure IsPlain (w : Bytes) : Prop extends IsName w where
  entry : ∀ e ∈ T.entries, e.1 ≠ w.map upcase
  phrase : ∀ e ∈ T.entries, ¬ w.map upcase ++ [chr ' '] <+: e.1

/-- Plain words and numbers, and white space. -/
inductive Prose : Bytes → Prop
  | nil : Prose []
  | white {rest : Bytes} {b : UInt8} (hb : charIsWhite b = true) (h : Prose rest) : Prose (b :: rest)
  | word {w rest : Bytes} (hw : IsPlain T w) (hrest : Blank rest) (h : Prose rest) : Prose (w ++ rest)
  | number {d rest : Bytes} (hd : IsNumber d) (hrest : Blank rest) (h : Prose rest) : Prose (d ++ rest)

/-! ### Inert tokens -/

/-- A bare word that merges with none, or a number. -/
structure Inert (t : Token) : Prop where
  type : t.type = .bareword ∨ t.type = .number
  strOpen : t.strOpen = 0
  merge : ∀ b, syntaxMergeWords signedChar T t b = some none

theorem typeOf_of_plain {w : Bytes} (hw : IsPlain T w) : T.typeOf w = .none := T.typeOf_eq_none hw.entry

theorem inert_wordToken (pos : ℕ) {w : Bytes} (hw : IsPlain T w) : Inert signedChar T (wordToken T pos w) := by
  have htype : wordType T w = .bareword := if_neg fun h => h.2 (typeOf_of_plain T hw)
  refine ⟨Or.inl htype, rfl, fun b => ?_⟩
  have hmerged : (wordToken T pos w).type ∈ MERGED_TYPES := by
    rw [show (wordToken T pos w).type = .bareword from htype]
    decide
  unfold syntaxMergeWords
  rw [if_neg (not_not_intro hmerged)]
  by_cases hb : b.type ∉ MERGED_TYPES ∧ b.type ≠ .logicOperator
  · rw [if_pos hb]
  rw [if_neg hb]
  by_cases hlong : TOKEN_SIZE ≤ (wordToken T pos w).val.length + b.val.length + 1
  · rw [if_pos hlong]
  rw [if_neg hlong]
  have hlen : w.length ≤ TOKEN_SIZE - 1 := by
    unfold wordToken at hlong
    rw [List.length_take] at hlong
    unfold TOKEN_SIZE at hlong ⊢
    omega
  have hval : (wordToken T pos w).val = w := List.take_of_length_le hlen
  have hnone : T.typeOf (w ++ chr ' ' :: b.val) = .none := by
    refine T.typeOf_eq_none fun e he heq => hw.phrase e he ?_
    rw [heq, List.map_append]
    apply (List.prefix_append_right_inj _).mpr
    exact ⟨b.val.map upcase, rfl⟩
  rw [hval]
  simp only [isKeyword_eq, hnone, Option.bind_eq_bind, Option.bind_some]
  rfl

theorem inert_numberToken (pos : ℕ) (d : Bytes) : Inert signedChar T (numberToken pos d) := by
  refine ⟨Or.inr rfl, rfl, fun b => if_pos ?_⟩
  show TokenType.number ∉ MERGED_TYPES
  decide

/-- Prose is read as inert tokens. -/
theorem Prose.lexemes {rest : Bytes} (h : Prose T rest) : ∀ p, ∃ toks, Lexemes T p rest toks ∧
    ∀ t ∈ toks, Inert signedChar T t := by
  induction h with
  | nil => exact fun p => ⟨[], .nil p, fun t ht => absurd ht List.not_mem_nil⟩
  | white hb _ ih =>
      intro p
      obtain ⟨toks, hlex, hinert⟩ := ih (p ++ [_])
      exact ⟨toks, .white (parseFn_of_white hb) hlex, hinert⟩
  | @word w rest hw hrest _ ih =>
      intro p
      obtain ⟨toks, hlex, hinert⟩ := ih (p ++ w)
      refine ⟨_, .name hw.toIsName hrest hlex, List.forall_mem_cons.mpr ⟨inert_wordToken signedChar T _ hw, hinert⟩⟩
  | @number d rest hd hrest _ ih =>
      intro p
      obtain ⟨toks, hlex, hinert⟩ := ih (p ++ d)
      exact ⟨_, .number hd hrest.endsNumber hlex, List.forall_mem_cons.mpr ⟨inert_numberToken signedChar T _ d, hinert⟩⟩

theorem Prose.forall_byte {p : UInt8 → Prop} (hp : ∀ b, isNameByte b = true ∨ charIsWhite b = true → p b) {s : Bytes}
    (h : Prose T s) : ∀ b ∈ s, p b := by
  have hdigit : ∀ b, isDigit b = true → isNameByte b = true := by
    intro b hb
    unfold isNameByte
    rw [hb]
    simp
  induction h with
  | nil => exact fun b hb => absurd hb List.not_mem_nil
  | white hb _ ih => exact List.forall_mem_cons.mpr ⟨hp _ (Or.inr hb), ih⟩
  | word hw _ _ ih => exact List.forall_mem_append.mpr ⟨fun b hb => hp b (Or.inl (hw.bytes b hb)), ih⟩
  | number hd _ _ ih => exact List.forall_mem_append.mpr ⟨fun b hb => hp b (Or.inl (hdigit b (hd.bytes b hb))), ih⟩

theorem Prose.no_quote {s : Bytes} : Prose T s → ∀ b ∈ s, b ≠ CHAR_SINGLE ∧ b ≠ CHAR_DOUBLE :=
  Prose.forall_byte T (Text.forall_byte (by decide +kernel))

theorem Prose.no_markup {s : Bytes} : Prose T s → ∀ b ∈ s, b ≠ CHAR_LT ∧ b ≠ CHAR_EQUALS :=
  Prose.forall_byte T (Text.forall_byte (by decide +kernel))

/-! ### Folding of inert tokens -/

section Folding

variable {signedChar T}

theorem Inert.not_unaryOp {t : Token} (h : Inert signedChar T t) : t.isUnaryOp signedChar = false := by
  unfold Token.isUnaryOp
  rcases h.type with htype | htype
  · rw [htype, if_pos (by decide)]
  · rw [htype, if_pos (by decide)]

theorem twoTokens_inert {a b : Token} (ha : Inert signedChar T a) (hb : Inert signedChar T b) :
    twoTokens signedChar T a b = some (.onward a b .keep) := by
  unfold twoTokens twoTokensApart
  rcases ha.type with hta | hta
  · rcases hb.type with htb | htb
    · simp [hta, htb, ha.merge]
    · simp [hta, htb, ha.merge]
  · rcases hb.type with htb | htb
    · simp [hta, htb, ha.merge]
    · simp [hta, htb, ha.merge]

theorem threeTokens_inert {a b c : Token} (ha : Inert signedChar T a) (hb : Inert signedChar T b) :
    threeTokens signedChar a b c = .onward a b .keep := by
  unfold threeTokens
  rcases ha.type with hta | hta
  · rcases hb.type with htb | htb
    · simp [hta, htb]
    · simp [hta, htb]
  · rcases hb.type with htb | htb
    · simp [hta, htb]
    · simp [hta, htb]

variable (signedChar T) in
/-- Folding has seen inert tokens only, and only these are left. -/
structure Calm (st : FoldState) : Prop where
  toks : ∀ t ∈ st.toks, Inert signedChar T t
  comment : st.lastComment = none
  silent : st.sf.commentDdx = false ∧ st.sf.commentHash = false
  rest : st.more = true → ∃ toks, Feeds signedChar T st.sf toks ∧ ∀ t ∈ toks, Inert signedChar T t

theorem silent_of_quiet {sf sf' : SqliState} (h : Quiet sf sf') (hs : sf.commentDdx = false ∧ sf.commentHash = false) :
    sf'.commentDdx = false ∧ sf'.commentHash = false := ⟨h.1.trans hs.1, h.2.trans hs.2⟩

theorem Inert.type_ne {t : Token} (h : Inert signedChar T t) : t.type ≠ .comment ∧ t.type ≠ .none := by
  rcases h.type with htype | htype
  · rw [htype]
    decide
  · rw [htype]
    decide

/-- What a call of the tokenizer finds: an inert token, or the end. -/
theorem calm_tokenize {sf sf' : SqliState} {more : Bool} (hsilent : sf.commentDdx = false ∧ sf.commentHash = false)
    (hrest : ∃ toks, Feeds signedChar T sf toks ∧ ∀ t ∈ toks, Inert signedChar T t)
    (h : sf.tokenize signedChar T = some (more, sf')) :
    (sf'.commentDdx = false ∧ sf'.commentHash = false) ∧ (more = true → Inert signedChar T sf'.current ∧
      ∃ toks, Feeds signedChar T sf' toks ∧ ∀ t ∈ toks, Inert signedChar T t) := by
  obtain ⟨toks, hfeeds, hinert⟩ := hrest
  cases toks with
  | nil =>
      obtain ⟨sf1, hcall, hquiet⟩ := hfeeds
      rw [h] at hcall
      obtain ⟨rfl, rfl⟩ := Prod.mk.inj (Option.some.inj hcall)
      exact ⟨silent_of_quiet hquiet hsilent, fun hmore => by cases hmore⟩
  | cons t toks =>
      obtain ⟨sf1, hcall, hcurrent, hquiet, hfeeds⟩ := hfeeds
      rw [h] at hcall
      obtain ⟨rfl, rfl⟩ := Prod.mk.inj (Option.some.inj hcall)
      obtain ⟨ht, htoks⟩ := List.forall_mem_cons.mp hinert
      refine ⟨?_, fun _ => ⟨hcurrent ▸ ht, toks, hfeeds, htoks⟩⟩
      rcases hquiet with hcomment | hquiet
      · exact absurd hcomment ht.type_ne.1
      · exact silent_of_quiet hquiet hsilent

theorem calm_fetch (want : ℕ) : ∀ (fuel : ℕ) {st st' : FoldState}, Calm signedChar T st →
    st.fetch signedChar T want fuel = some st' → Calm signedChar T st'
  | 0, _, _, _, h => by cases h
  | fuel + 1, st, st', calm, h => by
      unfold FoldState.fetch at h
      obtain ⟨b, hb, h⟩ := Option.bind_eq_some_iff.mp h
      cases b with
      | false =>
          cases h
          exact calm
      | true =>
          have hmore : st.more = true := (andAlso_eq_true hb).1.1
          rw [if_pos rfl] at h
          obtain ⟨⟨more, sf'⟩, hcall, h⟩ := Option.bind_eq_some_iff.mp h
          obtain ⟨hsilent, htoken⟩ := calm_tokenize calm.silent (calm.rest hmore) hcall
          cases more with
          | false =>
              have calm' : Calm signedChar T { st with sf := sf', more := false } :=
                ⟨calm.toks, calm.comment, hsilent, fun h => by cases h⟩
              exact calm_fetch want fuel calm' h
          | true =>
              obtain ⟨hinert, hrest⟩ := htoken rfl
              dsimp only at h
              rw [if_neg (by decide), if_neg hinert.type_ne.1] at h
              refine calm_fetch want fuel ⟨?_, rfl, hsilent, fun _ => hrest⟩ h
              exact List.forall_mem_append.mpr ⟨calm.toks, List.forall_mem_singleton.mpr hinert⟩

theorem calm_replace {st st' : FoldState} {a b : Token} {left : Left} (calm : Calm signedChar T st)
    (ha : Inert signedChar T a) (hb : Inert signedChar T b) (h : st.replace a b 0 left = some st') :
    Calm signedChar T st' := by
  unfold FoldState.replace at h
  obtain ⟨pos, -, h⟩ := Option.bind_eq_some_iff.mp h
  cases h
  refine ⟨fun t ht => ?_, calm.comment, calm.silent, calm.rest⟩
  rcases List.mem_or_eq_of_mem_set (List.mem_of_mem_take ht) with ht | rfl
  · rcases List.mem_or_eq_of_mem_set ht with ht | rfl
    · exact calm.toks t ht
    · exact ha
  · exact hb

theorem calm_foldThree {st st' : FoldState} (calm : Calm signedChar T st) (h : st.foldThree signedChar T = some st') :
    Calm signedChar T st' := by
  unfold FoldState.foldThree at h
  obtain ⟨st1, hfetch, h⟩ := Option.bind_eq_some_iff.mp h
  have calm1 := calm_fetch 3 _ calm hfetch
  obtain ⟨n, -, h⟩ := Option.bind_eq_some_iff.mp h
  split_ifs at h
  · cases h
    exact ⟨calm1.toks, calm1.comment, calm1.silent, calm1.rest⟩
  · obtain ⟨a, ha, h⟩ := Option.bind_eq_some_iff.mp h
    obtain ⟨b, hb, h⟩ := Option.bind_eq_some_iff.mp h
    obtain ⟨c, hc, h⟩ := Option.bind_eq_some_iff.mp h
    have ha' := calm1.toks a (List.mem_of_getElem? ha)
    have hb' := calm1.toks b (List.mem_of_getElem? hb)
    rw [threeTokens_inert ha' hb'] at h
    obtain ⟨st2, hreplace, h⟩ := Option.bind_eq_some_iff.mp h
    cases h
    have calm2 := calm_replace calm1 ha' hb' hreplace
    exact ⟨calm2.toks, calm2.comment, calm2.silent, calm2.rest⟩

theorem fiveTokens_of_inert {st : FoldState} (h : ∀ t ∈ st.toks, Inert signedChar T t) : st.fiveTokens = st := by
  unfold FoldState.fiveTokens
  split
  case h_1 a b c d e rest htoks =>
    apply if_neg
    rw [htoks] at h
    have hb := (h b (by simp)).type
    have hc := (h c (by simp)).type
    unfold inParens
    rcases hb with hb | hb
    · simp [hb]
    · simp [hb]
  case h_2 => rfl

theorem calm_finish {st : FoldState} (calm : Calm signedChar T st) : ∀ t ∈ st.finish, Inert signedChar T t := by
  intro t ht
  have hmem := List.mem_of_mem_take ht
  rw [calm.comment] at hmem
  simp only [Option.toList_none, List.append_nil, ite_self] at hmem
  exact calm.toks t hmem

theorem Calm.setLeft {st : FoldState} (calm : Calm signedChar T st) (left : ℕ) :
    Calm signedChar T { st with left := left } :=
  ⟨calm.toks, calm.comment, calm.silent, calm.rest⟩

variable (signedChar T) in
/-- What folding is left with at the end. -/
def CalmEnd (r : SqliState × List Token) : Prop :=
  (r.1.commentDdx = false ∧ r.1.commentHash = false) ∧ ∀ t ∈ r.2, Inert signedChar T t

theorem calm_foldBody {st : FoldState} {r : FoldState ⊕ (SqliState × List Token)} (calm : Calm signedChar T st)
    (h : st.foldBody signedChar T = some r) : r.elim (Calm signedChar T) (CalmEnd signedChar T) := by
  unfold FoldState.foldBody at h
  rw [fiveTokens_of_inert calm.toks] at h
  dsimp only at h
  split_ifs at h
  · cases h
    exact ⟨calm.silent, calm_finish calm⟩
  · obtain ⟨st1, hfetch, h⟩ := Option.bind_eq_some_iff.mp h
    have calm1 := calm_fetch 2 _ calm hfetch
    obtain ⟨n, -, h⟩ := Option.bind_eq_some_iff.mp h
    split_ifs at h
    · cases h
      exact calm1.setLeft _
    · obtain ⟨b, hb, h⟩ := Option.bind_eq_some_iff.mp h
      obtain ⟨a, ha, h⟩ := Option.bind_eq_some_iff.mp h
      have ha' := calm1.toks a (List.mem_of_getElem? ha)
      have hb' := calm1.toks b (List.mem_of_getElem? hb)
      rw [twoTokens_inert ha' hb', Option.bind_eq_bind, Option.bind_some] at h
      unfold FoldState.foldTwo at h
      obtain ⟨st2, hreplace, h⟩ := Option.bind_eq_some_iff.mp h
      obtain ⟨st3, hthree, rfl⟩ := Option.map_eq_some_iff.mp h
      exact calm_foldThree (calm_replace calm1 ha' hb' hreplace) hthree

/-- Folding keeps what it has seen, and leaves inert tokens. -/
theorem calm_foldLoop : ∀ (fuel : ℕ) {st : FoldState} {r : SqliState × List Token}, Calm signedChar T st →
    st.foldLoop signedChar T fuel = some r → CalmEnd signedChar T r
  | 0, _, _, _, h => by cases h
  | fuel + 1, st, r, calm, h => by
      unfold FoldState.foldLoop at h
      obtain ⟨next, hbody, h⟩ := Option.bind_eq_some_iff.mp h
      have hnext := calm_foldBody calm hbody
      cases next with
      | inl st' => exact calm_foldLoop fuel hnext h
      | inr result =>
          cases h
          exact hnext

theorem calm_fold {s : Bytes} {toks : List Token} {r : SqliState × List Token} {flags : Flags}
    (hfeeds : Feeds signedChar T (init s flags) toks) (hinert : ∀ t ∈ toks, Inert signedChar T t)
    (h : (init s flags).fold signedChar T = some r) : CalmEnd signedChar T r := by
  unfold fold at h
  obtain ⟨⟨more, sf1⟩, hskip, h⟩ := Option.bind_eq_some_iff.mp h
  unfold skipInitial at hskip
  obtain ⟨⟨more', sf2⟩, hcall, hskip⟩ := Option.bind_eq_some_iff.mp hskip
  obtain ⟨hsilent, htoken⟩ := calm_tokenize ⟨rfl, rfl⟩ ⟨toks, hfeeds, hinert⟩ hcall
  dsimp only at hskip
  cases more' with
  | false =>
      have hend : more = false ∧ sf1 = sf2 := by
        simp only [Bool.false_eq_true, if_false, ite_self] at hskip
        cases hskip
        exact ⟨rfl, rfl⟩
      obtain ⟨rfl, rfl⟩ := hend
      cases h
      exact ⟨hsilent, fun t ht => absurd ht List.not_mem_nil⟩
  | true =>
      obtain ⟨hcurrent, hrest⟩ := htoken rfl
      have htype := hcurrent.type
      have hkept : ¬(sf2.current.type ∈ [.comment, .leftparens, .sqltype] ∨
          sf2.current.isUnaryOp signedChar = true) := by
        rw [hcurrent.not_unaryOp]
        rcases htype with htype | htype
        · simp [htype]
        · simp [htype]
      rw [if_neg hkept] at hskip
      cases hskip
      exact calm_foldLoop _ ⟨List.forall_mem_singleton.mpr hcurrent, rfl, hsilent, fun _ => hrest⟩ h

end Folding

/-! ### The answer -/

theorem markTickComment_inert {toks : List Token} (h : ∀ t ∈ toks, Inert signedChar T t) :
    markTickComment toks = toks := by
  unfold markTickComment
  cases hlast : toks.getLast? with
  | none => rfl
  | some last =>
      have hopen := (h last (List.mem_of_getLast? hlast)).strOpen
      refine if_neg fun htick => ?_
      simp only [Token.isTickComment, hopen, Bool.and_eq_true, decide_eq_true_eq] at htick
      exact absurd htick.2.1.1.2 (by decide)

/-- What is read as inert tokens has a fingerprint of bare words and numbers. -/
theorem fingerprint_inert {s : Bytes} {toks : List Token} {flags : Flags} {r : Reading}
    (hfeeds : Feeds signedChar T (init s flags) toks) (hinert : ∀ t ∈ toks, Inert signedChar T t)
    (h : fingerprint signedChar T s flags = some r) :
    r.reparseAsMysql = false ∧ ∀ type ∈ r.fingerprint, type = .bareword ∨ type = .number := by
  unfold fingerprint at h
  obtain ⟨⟨sf, folded⟩, hfold, h⟩ := Option.bind_eq_some_iff.mp h
  obtain ⟨hsilent, hfolded⟩ := calm_fold hfeeds hinert hfold
  have htypes : ∀ type ∈ (folded.map Token.type).takeWhile (· ≠ .none), type = .bareword ∨ type = .number := by
    intro type htype
    obtain ⟨t, ht, rfl⟩ := List.mem_map.mp (List.takeWhile_subset _ htype)
    exact (hfolded t ht).type
  have hevil : .evil ∉ (folded.map Token.type).takeWhile (· ≠ .none) := by
    intro h
    rcases htypes _ h with h | h
    · cases h
    · cases h
  dsimp only at h
  rw [markTickComment_inert signedChar T hfolded, if_neg hevil] at h
  split_ifs at h
  obtain rfl := Option.some.inj h
  refine ⟨?_, htypes⟩
  unfold Reading.reparseAsMysql
  rw [hsilent.1, hsilent.2]
  rfl

theorem not_fingerprint_of_inert
    (htable : ∀ e ∈ T.entries, e.2 = .fingerprint → ∃ b ∈ e.1.tail, b ≠ chr 'N' ∧ b ≠ chr '1')
    {types : List TokenType} (h : ∀ type ∈ types, type = .bareword ∨ type = .number) :
    T.typeOf (chr '0' :: types.map fun type => upcase type.code) ≠ .fingerprint := by
  intro hlookup
  have hmem := T.mem_of_typeOf hlookup (by decide)
  obtain ⟨b, hb, hn, hone⟩ := htable _ hmem rfl
  simp only [List.map_cons, List.tail_cons, List.map_map] at hb
  obtain ⟨type, htype, rfl⟩ := List.mem_map.mp hb
  rcases h type htype with rfl | rfl
  · exact hn (by decide)
  · exact hone (by decide)

/-- **Prose is passed.**  Where no fingerprint of the table is made of words and numbers alone, text
of plain words and decimal numbers is never reported, however long it is. -/
theorem isSqli_of_prose (htable : ∀ e ∈ T.entries, e.2 = .fingerprint → ∃ b ∈ e.1.tail, b ≠ chr 'N' ∧ b ≠ chr '1')
    {s : Bytes} (h : Prose T s) : isSqli signedChar T s = false := by
  rw [← Bool.not_eq_true, isSqli_iff]
  rintro ⟨hs, flags, htried, hreported⟩
  obtain ⟨toks, hlex, hinert⟩ := h.lexemes signedChar T []
  have hlen : 0 < (init s ⟨.none, false⟩).len := List.length_pos_iff.mpr hs
  have hfeeds : Feeds signedChar T (init s ⟨.none, false⟩) toks :=
    hlex.feeds signedChar T ⟨rfl, rfl⟩ rfl (fun _ => rfl) hlen
  have hplain : flags = ⟨.none, false⟩ := by
    cases htried with
    | asIs => rfl
    | single hq => exact absurd rfl (h.no_quote T _ hq).1
    | double hq => exact absurd rfl (h.no_quote T _ hq).2
    | mysql quote htried' r' hr' hmysql =>
        cases htried' with
        | asIs =>
            rw [(fingerprint_inert signedChar T hfeeds hinert hr').1] at hmysql
            cases hmysql
        | single hq => exact absurd rfl (h.no_quote T _ hq).1
  subst hplain
  obtain ⟨r, hr, good⟩ := exists_fingerprint signedChar T ⟨.none, false⟩ hs
  have hinert' := (fingerprint_inert signedChar T hfeeds hinert hr).2
  rw [reported_iff_check signedChar T hr] at hreported
  unfold Reading.check at hreported
  rw [Reading.blacklist_eq signedChar T good,
    decide_eq_false fun h => not_fingerprint_of_inert T htable hinert' h.2] at hreported
  cases hreported

/-- Some entries of the table. -/
def KeywordTable.excerpt : KeywordTable where
  entries :=
    [(ascii "01C", .fingerprint), (ascii "0NC", .fingerprint), (ascii "0S&1C", .fingerprint),
    (ascii "CURRENT DATE", .variable),
      (ascii "GROUP", .bareword), (ascii "GROUP BY", .group), (ascii "OR", .logicOperator),
      (ascii "SELECT", .expression)]
  nonempty := by decide
  sorted := by decide
  words := by unfold IsWord; decide
  types := by decide

end PurpleWolf.Sqli
