import PurpleWolf.Libinjection.SqliKeywords

/-! # The SQL tokens of an input

What one call of the tokenizer does, whatever the input: it stays inside of it, and the token
that it hands out is a piece of what it has read.  `Emits` says so of the result of a parsing
function, and every parsing function has one lemma that proves it. -/

namespace PurpleWolf.Sqli

open Memory Html5 Xss

/-- The token lies between `lo` and `hi`, and holds the bytes that stand there.  A comment is
two bytes long or more, or starts with a hash. -/
structure Placed (s : Bytes) (lo hi : ℕ) (st : Token) : Prop where
  start : lo ≤ st.pos
  inside : st.pos + st.val.length ≤ hi
  val : st.val <+: s.drop st.pos
  short : st.val.length < TOKEN_SIZE
  type : st.type ≠ .none
  comment : st.type = .comment → st.val.head? = some (chr '#') ∨ 2 ≤ st.val.length

theorem Placed.mono {s : Bytes} {lo lo' hi hi' : ℕ} {st : Token} (h : Placed s lo hi st) (hlo : lo' ≤ lo)
    (hhi : hi ≤ hi') : Placed s lo' hi' st :=
  { h with start := hlo.trans h.start, inside := h.inside.trans hhi }

theorem Placed.congr {s : Bytes} {lo hi : ℕ} {st st' : Token} (h : Placed s lo hi st) (hpos : st'.pos = st.pos)
    (hval : st'.val = st.val) (htype : st'.type ≠ .none)
    (hcomment : st'.type = .comment → st.type = .comment) : Placed s lo hi st' where
  start := hpos ▸ h.start
  inside := by rw [hpos, hval]; exact h.inside
  val := by rw [hpos, hval]; exact h.val
  short := hval ▸ h.short
  type := htype
  comment hc := by rw [hval]; exact h.comment (hcomment hc)

namespace SqliState

/-- Of a parsing function: it has read from `sf.pos` on, and left a token behind. -/
structure Emitted (sf sf' : SqliState) : Prop where
  s : sf'.s = sf.s
  flags : sf'.flags = sf.flags
  tokens : sf'.tokens = sf.tokens
  lt : sf.pos < sf'.pos
  le : sf'.pos ≤ sf.len
  placed : Placed sf.s sf.pos sf'.pos sf'.current

/-- The parsing function stays inside of the input and emits a token. -/
def Emits (sf : SqliState) (r : Option SqliState) : Prop := ∃ sf', r = some sf' ∧ Emitted sf sf'

section Emits

variable {sf : SqliState}

theorem assign_of_le {type : TokenType} {pos n next : ℕ} (h : pos + n ≤ sf.len) :
    sf.assign type pos n next = some
      { sf with
        current := { sf.current with type := type, pos := pos, val := (sf.s.drop pos).take (min n (TOKEN_SIZE - 1)) }
        pos := next } := by
  have hmin : (if n < TOKEN_SIZE then n else TOKEN_SIZE - 1) = min n (TOKEN_SIZE - 1) := by
    unfold TOKEN_SIZE
    split_ifs <;> omega
  have hle : pos + min n (TOKEN_SIZE - 1) ≤ sf.s.length := by
    unfold len at h
    omega
  unfold assign
  rw [hmin, slice_of_le hle]
  rfl

theorem emits_assign {type : TokenType} {pos n next : ℕ} (hlo : sf.pos ≤ pos) (hn : pos + n ≤ next)
    (hlt : sf.pos < next) (hle : next ≤ sf.len) (htype : type ≠ .none)
    (hcomment : type = .comment → sf.s[pos]? = some (chr '#') ∧ 0 < n ∨ 2 ≤ n) :
    Emits sf (sf.assign type pos n next) := by
  have hlen : ((sf.s.drop pos).take (min n (TOKEN_SIZE - 1))).length = min n (TOKEN_SIZE - 1) := by
    rw [List.length_take, List.length_drop]
    unfold len at hle
    omega
  refine ⟨_, assign_of_le (hn.trans hle), rfl, rfl, rfl, hlt, hle, hlo, ?_, List.take_prefix _ _, ?_, htype,
    fun hc => ?_⟩
  · simp only [hlen]
    omega
  · simp only [hlen]
    unfold TOKEN_SIZE
    omega
  · simp only [hlen]
    rcases hcomment hc with ⟨hhash, hn0⟩ | hn2
    · left
      rw [List.head?_take, if_neg (by unfold TOKEN_SIZE; omega), List.head?_drop, hhash]
    · right
      unfold TOKEN_SIZE
      omega

theorem emits_assignChar {type : TokenType} {value : UInt8} (hget : sf.s[sf.pos]? = some value)
    (htype : type ≠ .none) (hcomment : type ≠ .comment) :
    Emits sf (some (sf.assignChar type sf.pos value (sf.pos + 1))) := by
  obtain ⟨hlt, hval⟩ := List.getElem?_eq_some_iff.mp hget
  refine ⟨_, rfl, rfl, rfl, rfl, Nat.lt_succ_self _, hlt, le_rfl, le_rfl, ?_, by simp [assignChar, TOKEN_SIZE], htype,
    fun hc => absurd hc hcomment⟩
  simp only [assignChar]
  rw [List.drop_eq_getElem_cons hlt, hval]
  exact List.prefix_cons_iff.mpr (Or.inr ⟨[], rfl, List.nil_prefix⟩)

theorem Emits.map {r : Option SqliState} (h : Emits sf r) (f : SqliState → SqliState)
    (hs : ∀ sf', (f sf').s = sf'.s ∧ (f sf').flags = sf'.flags ∧ (f sf').tokens = sf'.tokens ∧ (f sf').pos = sf'.pos)
    (hcurrent : ∀ sf', (f sf').current.pos = sf'.current.pos ∧ (f sf').current.val = sf'.current.val)
    (htype : ∀ sf', sf'.current.type ≠ .none →
      (f sf').current.type ≠ .none ∧ ((f sf').current.type = .comment → sf'.current.type = .comment)) :
    Emits sf (r.bind fun sf' => some (f sf')) := by
  obtain ⟨sf', rfl, h⟩ := h
  obtain ⟨hs, hflags, htokens, hpos⟩ := hs sf'
  obtain ⟨hcpos, hcval⟩ := hcurrent sf'
  obtain ⟨htype, hcomment⟩ := htype sf' h.placed.type
  refine ⟨f sf', rfl, hs.trans h.s, hflags.trans h.flags, htokens.trans h.tokens, hpos ▸ h.lt, hpos ▸ h.le, ?_⟩
  rw [hpos]
  exact h.placed.congr hcpos hcval htype hcomment

theorem Emits.withQuotes {r : Option SqliState} (h : Emits sf r) (quotes : SqliState → UInt8 × UInt8) :
    Emits sf (r.bind fun sf' => some (sf'.withQuotes (quotes sf').1 (quotes sf').2)) :=
  h.map (fun sf' => sf'.withQuotes (quotes sf').1 (quotes sf').2) (fun _ => ⟨rfl, rfl, rfl, rfl⟩)
    (fun _ => ⟨rfl, rfl⟩) (fun _ htype => ⟨htype, id⟩)

theorem Emits.withType {r : Option SqliState} (h : Emits sf r) (type : SqliState → TokenType)
    (htype : ∀ sf', type sf' ≠ .none ∧ type sf' ≠ .comment) :
    Emits sf (r.bind fun sf' => some (sf'.withType (type sf'))) :=
  h.map (fun sf' => sf'.withType (type sf')) (fun _ => ⟨rfl, rfl, rfl, rfl⟩) (fun _ => ⟨rfl, rfl⟩)
    (fun sf' _ => ⟨(htype sf').1, fun hc => absurd hc (htype sf').2⟩)

/-- The function was called on a later position of the same input. -/
theorem Emits.later {sf' : SqliState} {r : Option SqliState} (h : Emits sf' r) (hs : sf'.s = sf.s)
    (hflags : sf'.flags = sf.flags) (htokens : sf'.tokens = sf.tokens) (hpos : sf.pos ≤ sf'.pos) : Emits sf r := by
  obtain ⟨sf'', rfl, h⟩ := h
  refine ⟨sf'', rfl, h.s.trans hs, h.flags.trans hflags, h.tokens.trans htokens, hpos.trans_lt h.lt, ?_, ?_⟩
  · have := h.le
    unfold len at this ⊢
    rwa [← hs]
  · rw [← hs]
    exact h.placed.mono hpos le_rfl

/-! ### Reading -/

theorem charIs_of_lt {i : ℕ} (ch : UInt8) (h : i < sf.len) : ∃ b, sf.charIs i ch = some b :=
  ⟨sf.s[i] == ch, by unfold charIs; rw [List.getElem?_eq_getElem h]; rfl⟩

theorem charIs_eq_true {i : ℕ} {ch : UInt8} (h : sf.charIs i ch = some true) : sf.s[i]? = some ch := by
  unfold charIs at h
  obtain ⟨b, hb, heq⟩ := Option.map_eq_some_iff.mp h
  rw [hb, eq_of_beq heq]

theorem emits_ite {c : Prop} [Decidable c] {t : Option Bool} {A B : Option SqliState} (ht : c → ∃ b, t = some b)
    (hA : c → t = some true → Emits sf A) (hB : Emits sf B) :
    Emits sf (do if ← andAlso c t then A else B) := by
  unfold andAlso
  split_ifs with hc
  · obtain ⟨b, hb⟩ := ht hc
    rw [hb]
    cases b with
    | true => exact hA hc hb
    | false => exact hB
  · exact hB

theorem emits_memchr {pos : ℕ} {c : UInt8} {absent : Option SqliState} {found : ℕ → Option SqliState}
    (hpos : pos ≤ sf.len) (habsent : Emits sf absent)
    (hfound : ∀ i, pos ≤ i → i < sf.len → sf.s[i]? = some c → Emits sf (found i)) :
    Emits sf (do match ← memchr sf.s pos c with
      | none => absent
      | some i => found i) := by
  obtain ⟨r, hr⟩ := memchr_of_le (s := sf.s) c hpos
  cases r with
  | none => rw [hr]; exact habsent
  | some i =>
      obtain ⟨hge, hlt, hget⟩ := memchr_eq_some hr
      rw [hr]
      exact hfound i hge hlt hget

/-! ### Single characters and comments -/

section Chars

variable {ch : UInt8} (hget : sf.s[sf.pos]? = some ch)

include hget

theorem pos_lt : sf.pos < sf.len := (List.getElem?_eq_some_iff.mp hget).1

theorem emits_parseOperator1 : Emits sf sf.parseOperator1 := by
  unfold parseOperator1
  rw [hget]
  exact emits_assignChar hget (by decide) (by decide)

theorem emits_parseOther : Emits sf sf.parseOther := by
  unfold parseOther
  rw [hget]
  exact emits_assignChar hget (by decide) (by decide)

theorem emits_parseChar (hch : charType ch ≠ .none) : Emits sf sf.parseChar := by
  unfold parseChar
  rw [hget]
  refine emits_assignChar hget hch ?_
  unfold charType
  split_ifs <;> decide

theorem emits_parseEolComment (hch : ch = chr '#' ∨ ch ≠ 10 ∧ sf.pos + 1 < sf.len ∧ sf.s[sf.pos + 1]? ≠ some 10) :
    Emits sf sf.parseEolComment := by
  have hlt := pos_lt hget
  unfold parseEolComment
  refine emits_memchr hlt.le ?_ fun i hge hi hnl => ?_
  · rw [sizeSub_of_le hlt.le]
    refine emits_assign le_rfl (by omega) hlt le_rfl (by decide) fun _ => ?_
    rcases hch with rfl | ⟨-, hlt', -⟩
    · exact Or.inl ⟨hget, by omega⟩
    · exact Or.inr (by omega)
  · refine emits_assign le_rfl (by omega) (by omega) hi (by decide) fun _ => ?_
    have hne : i ≠ sf.pos := by
      rintro rfl
      rw [hget] at hnl
      rcases hch with rfl | ⟨hch, -⟩
      · cases hnl
      · exact hch (Option.some.inj hnl)
    rcases hch with rfl | ⟨-, -, hsecond⟩
    · exact Or.inl ⟨hget, by omega⟩
    · have hne' : i ≠ sf.pos + 1 := by
        rintro rfl
        exact hsecond hnl
      exact Or.inr (by omega)

theorem emits_parseHash (hch : ch = chr '#') : Emits sf sf.parseHash := by
  subst hch
  unfold parseHash
  simp only
  split_ifs
  · have h : Emits { sf with commentHash := true } (parseEolComment { sf with commentHash := true }) :=
      emits_parseEolComment hget (Or.inl rfl)
    exact h.later rfl rfl rfl le_rfl
  · have h : Emits { sf with commentHash := true }
        (some (assignChar { sf with commentHash := true } .operator sf.pos (chr '#') (sf.pos + 1))) :=
      emits_assignChar hget (by decide) (by decide)
    exact h.later rfl rfl rfl le_rfl

theorem emits_parseDash (hch : ch = CHAR_DASH) : Emits sf sf.parseDash := by
  subst hch
  have hlt := pos_lt hget
  have hcomment : ∀ sf' : SqliState, sf'.s = sf.s → sf'.pos = sf.pos → sf.charIs (sf.pos + 1) CHAR_DASH = some true →
      Emits sf' sf'.parseEolComment := by
    intro sf' hs hpos hdash
    have hnext := charIs_eq_true hdash
    have hget' : sf'.s[sf'.pos]? = some CHAR_DASH := by
      rw [hs, hpos]
      exact hget
    refine emits_parseEolComment hget' (Or.inr ⟨by decide, ?_, ?_⟩)
    · unfold len
      rw [hs, hpos]
      exact (List.getElem?_eq_some_iff.mp hnext).1
    · rw [hs, hpos, hnext]
      decide
  unfold parseDash
  refine emits_ite (fun h => ?_) (fun h ht => ?_) (emits_ite (fun h => charIs_of_lt _ (by omega)) (fun h ht => ?_)
    (emits_ite (fun h => ?_) (fun h ht => ?_) ?_))
  · have hlt' : sf.pos + 1 < sf.len := by omega
    obtain ⟨b, hb⟩ := charIs_of_lt CHAR_DASH hlt'
    rw [hb, List.getElem?_eq_getElem h]
    exact ⟨_, rfl⟩
  · have hlt' : sf.pos + 1 < sf.len := by omega
    obtain ⟨b, hb⟩ := charIs_of_lt CHAR_DASH hlt'
    apply hcomment sf rfl rfl
    rw [hb, List.getElem?_eq_getElem h] at ht
    rw [hb, (Bool.and_eq_true_iff.mp (Option.some.inj ht)).1]
  · exact hcomment sf rfl rfl ht
  · obtain ⟨b, hb⟩ := charIs_of_lt CHAR_DASH h
    rw [hb]
    exact ⟨_, rfl⟩
  · obtain ⟨b, hb⟩ := charIs_of_lt CHAR_DASH h
    have hdash : sf.charIs (sf.pos + 1) CHAR_DASH = some true := by
      rw [hb] at ht
      rw [hb, (Bool.and_eq_true_iff.mp (Option.some.inj ht)).1]
    exact (hcomment { sf with commentDdx := true } rfl rfl hdash).later rfl rfl rfl le_rfl
  · exact emits_assignChar hget (by decide) (by decide)

end Chars

/-- A reading that answers, and goes on with the answer. -/
theorem emits_bind {α : Type} {t : Option α} {k : α → Option SqliState} (ht : ∃ a, t = some a)
    (hk : ∀ a, t = some a → Emits sf (k a)) : Emits sf (do k (← t)) := by
  obtain ⟨a, ha⟩ := ht
  rw [ha]
  exact hk a ha

theorem exists_andAlso {c : Prop} [Decidable c] {t : Option Bool} (ht : c → ∃ b, t = some b) :
    ∃ b, andAlso c t = some b := by
  unfold andAlso
  split_ifs with hc
  · exact ht hc
  · exact ⟨false, rfl⟩

theorem andAlso_eq_true {c : Prop} [Decidable c] {t : Option Bool} (h : andAlso c t = some true) :
    c ∧ t = some true := by
  unfold andAlso at h
  split_ifs at h with hc
  · exact ⟨hc, h⟩
  · cases h

theorem exists_both {α β γ : Type} {t : Option α} {t' : Option β} (f : α → β → γ) (ht : ∃ a, t = some a)
    (ht' : ∃ b, t' = some b) : ∃ c, (do some (f (← t) (← t'))) = some c := by
  obtain ⟨a, rfl⟩ := ht
  obtain ⟨b, rfl⟩ := ht'
  exact ⟨f a b, rfl⟩

theorem getElem?_of_lt {i : ℕ} (h : i < sf.len) : ∃ ch, sf.s[i]? = some ch := ⟨_, List.getElem?_eq_getElem h⟩

theorem exists_sizeSub {a b : ℕ} (h : b ≤ a) : ∃ n, sizeSub a b = some n := ⟨_, sizeSub_of_le h⟩

theorem sizeSub_eq_some {a b n : ℕ} (h : sizeSub a b = some n) : b ≤ a ∧ n = a - b := by
  unfold sizeSub at h
  split_ifs at h with hle
  exact ⟨hle, (Option.some.inj h).symm⟩

section Chars

variable {ch : UInt8} (hget : sf.s[sf.pos]? = some ch)

include hget

omit hget in
theorem exists_isMysqlComment (sf : SqliState) : ∃ b, sf.isMysqlComment = some b :=
    exists_andAlso fun h => charIs_of_lt _ h

omit hget in
theorem evilOrComment_ne (b : Bool) : (if b then TokenType.evil else .comment) ≠ .none := by
  cases b <;> decide

theorem emits_parseSlash : Emits sf sf.parseSlash := by
  have hlt := pos_lt hget
  unfold parseSlash
  refine emits_bind (exists_andAlso fun h => charIs_of_lt _ (by omega)) fun b hb => ?_
  cases b with
  | false => exact emits_parseOperator1 hget
  | true =>
      obtain ⟨hne, hstar⟩ := andAlso_eq_true hb
      have hlt' : sf.pos + 1 < sf.len := (List.getElem?_eq_some_iff.mp (charIs_eq_true hstar)).1
      rw [if_neg (by decide)]
      refine emits_bind (exists_sizeSub (by omega)) fun rest hrest => ?_
      obtain ⟨-, rfl⟩ := sizeSub_eq_some hrest
      have hrest : sf.pos + 2 + (sf.len - (sf.pos + 2)) ≤ sf.s.length := by
        unfold len at *
        omega
      obtain ⟨r, hr, hin⟩ := memmem_of_le [chr '*', CHAR_SLASH] hrest
      unfold memchr2
      rw [hr]
      obtain ⟨mysql, hmysql⟩ := sf.exists_isMysqlComment
      cases r with
      | none =>
          simp only [Option.bind_eq_bind, Option.bind_some, hmysql, sizeSub_of_le hlt.le]
          exact emits_assign le_rfl le_rfl (by omega) (by omega) (evilOrComment_ne _) fun _ => Or.inr (by omega)
      | some ptr =>
          obtain ⟨hge, hle⟩ := hin ptr rfl
          simp only [List.length_cons, List.length_nil] at hle
          have hinner : sf.pos + 2 + (ptr - (sf.pos + 1)) ≤ sf.s.length := by
            unfold len at *
            omega
          obtain ⟨nested, hnested, -⟩ := memmem_of_le [CHAR_SLASH, chr '*'] hinner
          simp only [Option.bind_eq_bind, Option.bind_some, hnested, hmysql]
          exact emits_assign le_rfl le_rfl (by omega) (by omega) (evilOrComment_ne _) fun _ => Or.inr (by omega)

theorem emits_parseBackslash : Emits sf sf.parseBackslash := by
  have hlt := pos_lt hget
  unfold parseBackslash
  refine emits_ite (fun h => charIs_of_lt _ h) (fun h _ => ?_) ?_
  · exact emits_assign le_rfl le_rfl (by omega) (by omega) (by decide) (fun hc => by cases hc)
  · rw [hget]
    exact emits_assignChar hget (by decide) (by decide)

theorem emits_parseBword : Emits sf sf.parseBword := by
  have hlt := pos_lt hget
  unfold parseBword
  refine emits_memchr hlt.le ?_ fun i hge hi _ => ?_
  · rw [sizeSub_of_le hlt.le]
    exact emits_assign le_rfl (by omega) hlt le_rfl (by decide) (fun hc => by cases hc)
  · exact emits_assign le_rfl (by omega) (by omega) hi (by decide) (fun hc => by cases hc)

end Chars

/-! ### Strings -/

/-- The loop over the quotes of a string, from a search for the next one on. -/
theorem emits_stringLoop {delim : UInt8} {start : ℕ} (hlo : sf.pos ≤ start) (hstart : start ≤ sf.len)
    (hlt : sf.pos < sf.len) : ∀ (fuel pos : ℕ) (qpos : Option ℕ), start ≤ pos → pos ≤ sf.len → sf.len - pos < fuel →
      memchr sf.s pos delim = some qpos → Emits sf (sf.stringLoop delim start fuel qpos)
  | 0, _, _, _, _, hfuel, _ => absurd hfuel (Nat.not_lt_zero _)
  | fuel + 1, pos, none, hge, hpos, hfuel, hq => by
      unfold stringLoop
      rw [sizeSub_of_le hstart]
      have h : Emits sf (sf.assign .string start (sf.len - start) sf.len) :=
        emits_assign hlo (by omega) hlt le_rfl (by decide) (fun hc => by cases hc)
      exact h.withQuotes fun st => (st.current.strOpen, 0)
  | fuel + 1, pos, some qpos, hge, hpos, hfuel, hq => by
      obtain ⟨hle, hqlt, -⟩ := memchr_eq_some hq
      have hqlt : qpos < sf.len := hqlt
      unfold stringLoop
      rw [slice_of_le (by unfold len at *; omega)]
      simp only [Option.bind_eq_bind, Option.bind_some]
      split_ifs
      · obtain ⟨r, hr⟩ := memchr_of_le (s := sf.s) delim (show qpos + 1 ≤ sf.len by omega)
        rw [hr]
        exact emits_stringLoop hlo hstart hlt fuel (qpos + 1) r (by omega) (by omega) (by omega) hr
      · obtain ⟨doubled, hdoubled⟩ : ∃ b, sf.isDoubleDelimEscaped qpos = some b :=
          exists_andAlso fun h => exists_both _ (getElem?_of_lt h) (getElem?_of_lt hqlt)
        rw [hdoubled]
        cases doubled with
        | true =>
            have hlt' := (andAlso_eq_true hdoubled).1
            obtain ⟨r, hr⟩ := memchr_of_le (s := sf.s) delim (show qpos + 2 ≤ sf.len by omega)
            simp only [Option.bind_some, if_true, hr]
            exact emits_stringLoop hlo hstart hlt fuel (qpos + 2) r (by omega) (by omega) (by omega) hr
        | false =>
            have h : Emits sf (sf.assign .string start (qpos - start) (qpos + 1)) :=
              emits_assign hlo (by omega) (by omega) hqlt (by decide) (fun hc => by cases hc)
            exact h.withQuotes fun st => (st.current.strOpen, delim)

theorem emits_parseStringCore {pos : ℕ} {delim : UInt8} {offset : ℕ} (hlo : sf.pos ≤ pos + offset)
    (hin : pos + offset ≤ sf.len) (hlt : sf.pos < sf.len) : Emits sf (sf.parseStringCore pos delim offset) := by
  obtain ⟨r, hr⟩ := memchr_of_le (s := sf.s) delim hin
  have h : Emits (sf.withQuotes (if 0 < offset then delim else 0) sf.current.strClose)
      ((sf.withQuotes (if 0 < offset then delim else 0) sf.current.strClose).stringLoop delim (pos + offset)
      (sf.len + 1) r) := by
    refine emits_stringLoop ?_ ?_ ?_ (sf.len + 1) (pos + offset) r le_rfl ?_ ?_ hr
    · exact hlo
    · exact hin
    · exact hlt
    · exact hin
    · exact Nat.lt_succ_of_le (Nat.sub_le _ _)
  unfold parseStringCore
  rw [hr]
  exact h.later rfl rfl rfl le_rfl

theorem emits_parseString {ch : UInt8} (hget : sf.s[sf.pos]? = some ch) : Emits sf sf.parseString := by
  have hlt := pos_lt hget
  unfold parseString
  rw [hget]
  exact emits_parseStringCore (by omega) hlt hlt

/-! ### Words and numbers -/

section Words

variable {signedChar : Bool} {T : KeywordTable}

theorem typeOf_ne {key : Bytes} (h : T.typeOf key ≠ .none) : T.typeOf key ≠ .comment := by
  have hmem := (T.typeOf_mem key).resolve_left h
  intro hc
  rw [hc] at hmem
  exact absurd hmem (by decide)

theorem typeOf_nil : T.typeOf [] = .none :=
  KeywordTable.typeOf_eq_none fun e he => (T.words e he).1

variable (signedChar T) in
/-- The loop over a word ends inside of the word, behind a keyword. -/
theorem exists_keywordBefore (val : Bytes) : ∀ (i : ℕ) (rest : Bytes), i + rest.length = val.length →
    ∃ r, keywordBefore signedChar T val i rest = some r ∧
      ∀ j type, r = some (j, type) → j < val.length ∧ type ≠ .none ∧ type = T.typeOf (val.take j)
  | i, [], _ => ⟨none, rfl, fun _ _ h => by cases h⟩
  | i, delim :: rest, hlen => by
      rw [List.length_cons] at hlen
      obtain ⟨r, hr, hspec⟩ := exists_keywordBefore val (i + 1) rest (by omega)
      unfold keywordBefore
      rw [isKeyword_eq]
      simp only [Option.bind_eq_bind, Option.bind_some]
      split_ifs with _ hne
      · refine ⟨_, rfl, fun j type h => ?_⟩
        cases h
        exact ⟨by omega, hne.1, rfl⟩
      · exact ⟨r, hr, hspec⟩
      · exact ⟨r, hr, hspec⟩

variable {ch : UInt8} (hget : sf.s[sf.pos]? = some ch)

include hget

theorem emits_parseWord (hch : wordEnd ch = false) : Emits sf (sf.parseWord signedChar T) := by
  obtain ⟨wlen, hwlen, hpos, hin⟩ : ∃ n,
      span (fun ch => !wordEnd ch) sf.s sf.pos = some n ∧ 0 < n ∧ sf.pos + n ≤ sf.len :=
    exists_span_pos hget (by rw [hch]; rfl)
  have hword : Emits sf (sf.assign .bareword sf.pos wlen (sf.pos + wlen)) :=
    emits_assign le_rfl le_rfl (by omega) hin (by decide) (fun hc => by cases hc)
  unfold parseWord
  refine emits_bind ⟨wlen, hwlen⟩ fun n hn => ?_
  obtain rfl : wlen = n := Option.some.inj (hwlen.symm.trans hn)
  obtain ⟨word, hassign, emitted⟩ := hword
  have hval : word.current.val.length ≤ wlen := by
    rw [assign_of_le hin] at hassign
    cases hassign
    simp only [List.length_take]
    omega
  obtain ⟨r, hr, hspec⟩ := exists_keywordBefore signedChar T word.current.val 0 word.current.val (Nat.zero_add _)
  simp only [Option.bind_eq_bind, hassign, Option.bind_some, hr]
  cases r with
  | some r =>
      obtain ⟨j, type⟩ := r
      obtain ⟨hj, htype, heq⟩ := hspec j type rfl
      have hj0 : j ≠ 0 := by
        rintro rfl
        rw [List.take_zero, typeOf_nil] at heq
        exact htype heq
      have h : Emits { sf with current := .clear }
          (assign { sf with current := .clear } type sf.pos j (sf.pos + j)) := by
        refine emits_assign le_rfl le_rfl ?_ ?_ htype fun hc => ?_
        · exact Nat.lt_add_of_pos_right (by omega)
        · exact le_trans (by omega) hin
        · exact absurd (heq.symm.trans hc) (typeOf_ne (heq ▸ htype))
      exact h.later rfl rfl rfl le_rfl
  | none =>
      simp only
      split_ifs
      · rw [isKeyword_eq]
        have h : Emits sf (some word) := ⟨word, rfl, emitted⟩
        refine h.withType (fun _ => if T.typeOf word.current.val = .none then .bareword else T.typeOf word.current.val)
          fun _ => ?_
        split_ifs with hnone
        · decide
        · exact ⟨hnone, typeOf_ne hnone⟩
      · exact ⟨word, rfl, emitted⟩

omit hget in
theorem emits_parseTick (hlt : sf.pos < sf.len) : Emits sf (sf.parseTick signedChar T) := by
  have h : Emits sf (sf.parseStringCore sf.pos CHAR_TICK 1) := emits_parseStringCore (Nat.le_succ _) hlt hlt
  unfold parseTick
  simp only [isKeyword_eq]
  refine h.withType (fun st => if T.typeOf st.current.val = .function then .function else .bareword) fun _ => ?_
  split_ifs <;> decide

theorem emits_parseOperator2 : Emits sf (sf.parseOperator2 signedChar T) := by
  have hlt := pos_lt hget
  unfold parseOperator2
  split_ifs with hend
  · exact emits_parseOperator1 hget
  · refine emits_ite (fun h => ?_) (fun h _ => ?_) ?_
    · obtain ⟨b, hb⟩ := charIs_of_lt CHAR_LT hlt
      rw [hb]
      exact exists_both (fun c d => b && c && d) (charIs_of_lt _ (by omega)) (charIs_of_lt _ h)
    · exact emits_assign le_rfl le_rfl (by omega) (by omega) (by decide) (fun hc => by cases hc)
    · have hslice : sf.pos + 2 ≤ sf.s.length := by
        unfold len at hend
        omega
      obtain ⟨colon, hcolon⟩ := charIs_of_lt (chr ':') hlt
      rw [slice_of_le hslice]
      simp only [Option.bind_eq_bind, Option.bind_some, isKeyword_eq, hcolon]
      split_ifs with hkeyword
      · exact emits_assign le_rfl le_rfl (by omega) (by omega) hkeyword fun hc => absurd hc (typeOf_ne hkeyword)
      · exact emits_assign le_rfl le_rfl (by omega) (by omega) (by decide) (fun hc => by cases hc)
      · exact emits_parseOperator1 hget

theorem emits_parseEstring (hch : wordEnd ch = false) : Emits sf (sf.parseEstring signedChar T) := by
  have hlt := pos_lt hget
  unfold parseEstring
  refine emits_ite (fun h => charIs_of_lt _ (by omega)) (fun h _ => ?_) (emits_parseWord hget hch)
  exact emits_parseStringCore (by omega) (by omega) hlt

theorem emits_parseUstring (hch : wordEnd ch = false) : Emits sf (sf.parseUstring signedChar T) := by
  unfold parseUstring
  refine emits_ite (fun h => exists_both (fun b c => b && c) (charIs_of_lt _ (by omega)) (charIs_of_lt _ h))
    (fun h _ => ?_) (emits_parseWord hget hch)
  obtain ⟨quote, hquote⟩ := getElem?_of_lt h
  have hstring : Emits { sf with pos := sf.pos + 2 } (parseString { sf with pos := sf.pos + 2 }) :=
    emits_parseString hquote
  have hlater : Emits sf (parseString { sf with pos := sf.pos + 2 }) := hstring.later rfl rfl rfl (Nat.le_add_right _ 2)
  exact hlater.withQuotes fun st =>
    (chr 'u', if st.current.strClose = CHAR_SINGLE then chr 'u' else st.current.strClose)

theorem emits_parseQstringCore (hch : wordEnd ch = false) (offset : ℕ) :
    Emits sf (sf.parseQstringCore signedChar T offset) := by
  have hlt := pos_lt hget
  unfold parseQstringCore
  refine emits_ite (fun h => ?_) (fun h ht => ?_) (emits_parseWord hget hch)
  · obtain ⟨q, hq⟩ := charIs_of_lt (chr 'q') h
    obtain ⟨q', hq'⟩ := charIs_of_lt (chr 'Q') h
    simp only [Option.bind_eq_bind, hq, hq', Option.bind_some]
    split_ifs
    · exact exists_andAlso fun h' => charIs_of_lt _ (by omega)
    · exact ⟨false, rfl⟩
  · have hin : sf.pos + offset + 2 < sf.len := by
      obtain ⟨q, hq⟩ := charIs_of_lt (chr 'q') h
      obtain ⟨q', hq'⟩ := charIs_of_lt (chr 'Q') h
      simp only [Option.bind_eq_bind, hq, hq', Option.bind_some] at ht
      split_ifs at ht
      · exact (andAlso_eq_true ht).1
      · cases ht
    obtain ⟨delim, hdelim⟩ := getElem?_of_lt hin
    rw [hdelim]
    simp only [Option.bind_eq_bind, Option.bind_some]
    split_ifs
    · exact emits_parseWord hget hch
    · have hrest : sf.pos + offset + 3 + (sf.len - (sf.pos + offset + 3)) ≤ sf.s.length := by
        unfold len at *
        omega
      obtain ⟨r, hr, hend⟩ := memmem_of_le [closing delim, CHAR_SINGLE] hrest
      rw [sizeSub_of_le (by omega)]
      unfold memchr2
      simp only [Option.bind_some, hr]
      cases r with
      | none =>
          have h : Emits sf (sf.assign .string (sf.pos + offset + 3) (sf.len - (sf.pos + offset + 3)) sf.len) :=
            emits_assign (by omega) (by omega) hlt le_rfl (by decide) (fun hc => by cases hc)
          exact h.withQuotes fun _ => (chr 'q', 0)
      | some strend =>
          obtain ⟨hge, hle⟩ := hend strend rfl
          simp only [List.length_cons, List.length_nil] at hle
          have h : Emits sf (sf.assign .string (sf.pos + offset + 3) (strend - (sf.pos + offset + 3)) (strend + 2)) :=
            emits_assign (by omega) (by omega) (by omega) (by omega) (by decide) (fun hc => by cases hc)
          exact h.withQuotes fun _ => (chr 'q', chr 'q')

theorem emits_parseNqstring (hch : wordEnd ch = false) : Emits sf (sf.parseNqstring signedChar T) := by
  unfold parseNqstring
  refine emits_ite (fun h => charIs_of_lt _ (by omega)) (fun _ _ => ?_) (emits_parseQstringCore hget hch 1)
  exact emits_parseEstring hget hch

theorem emits_parseDigitString (hch : wordEnd ch = false) (digits : Bytes) :
    Emits sf (sf.parseDigitString signedChar T digits) := by
  have hlt := pos_lt hget
  unfold parseDigitString
  refine emits_ite (fun h => charIs_of_lt _ (by omega)) (fun h _ => ?_) (emits_parseWord hget hch)
  obtain ⟨wlen, hwlen, -⟩ := exists_span (inList digits) h.le
  refine emits_bind ⟨wlen, hwlen⟩ fun n _ => ?_
  refine emits_ite (fun h' => charIs_of_lt _ h') (fun h' _ => ?_) (emits_parseWord hget hch)
  exact emits_assign le_rfl (by omega) (by omega) (by omega) (by decide) (fun hc => by cases hc)

omit hget in
theorem emits_parseVar (hlt : sf.pos < sf.len) : Emits sf (sf.parseVar signedChar T) := by
  unfold parseVar
  refine emits_bind (exists_andAlso fun h => charIs_of_lt _ h) fun doubled hdoubled => ?_
  have hpos : (if doubled then sf.pos + 2 else sf.pos + 1) ≤ sf.len := by
    split_ifs with hd
    · subst hd
      exact (andAlso_eq_true hdoubled).1
    · exact hlt
  have hge : sf.pos < (if doubled then sf.pos + 2 else sf.pos + 1) := by split_ifs <;> omega
  generalize (if doubled then sf.pos + 2 else sf.pos + 1) = pos at hpos hge
  refine emits_ite (fun h => charIs_of_lt _ h) (fun h _ => ?_)
    (emits_ite (fun h => exists_both (fun b c => b || c) (charIs_of_lt _ h) (charIs_of_lt _ h)) (fun h _ => ?_) ?_)
  · have htick : Emits { sf with pos := pos } (parseTick signedChar T { sf with pos := pos }) := emits_parseTick h
    have hlater : Emits sf (parseTick signedChar T { sf with pos := pos }) := htick.later rfl rfl rfl hge.le
    exact hlater.withType (fun _ => .variable) fun _ => by decide
  · obtain ⟨quote, hquote⟩ := getElem?_of_lt h
    have hstring : Emits { sf with pos := pos } (parseString { sf with pos := pos }) := emits_parseString hquote
    have hlater : Emits sf (parseString { sf with pos := pos }) := hstring.later rfl rfl rfl hge.le
    exact hlater.withType (fun _ => .variable) fun _ => by decide
  · obtain ⟨xlen, hxlen, hin⟩ := exists_span (fun ch => !varEnd ch) hpos
    rw [hxlen]
    exact emits_assign hge.le le_rfl (by omega) hin (by decide) (fun hc => by cases hc)

omit hget in
theorem emits_parseTagged {tag : ℕ} {strend : Option ℕ} (htag : 0 < tag) (hin : sf.pos + tag ≤ sf.len)
    (hend : ∀ i, strend = some i → sf.pos + tag ≤ i ∧ i + tag ≤ sf.len) : Emits sf (sf.parseTagged tag strend) := by
  unfold parseTagged
  cases strend with
  | none =>
      rw [sizeSub_of_le hin]
      have h : Emits sf (sf.assign .string (sf.pos + tag) (sf.len - (sf.pos + tag)) sf.len) :=
        emits_assign (by omega) (by omega) (by omega) le_rfl (by decide) (fun hc => by cases hc)
      exact h.withQuotes fun _ => (chr '$', 0)
  | some i =>
      obtain ⟨hge, hle⟩ := hend i rfl
      have h : Emits sf (sf.assign .string (sf.pos + tag) (i - (sf.pos + tag)) (i + tag)) :=
        emits_assign (by omega) (by omega) (by omega) hle (by decide) (fun hc => by cases hc)
      exact h.withQuotes fun _ => (chr '$', chr '$')

theorem emits_parseMoney (hch : ch = chr '$') : Emits sf (sf.parseMoney signedChar T) := by
  subst hch
  have hlt := pos_lt hget
  have hdollar : Emits sf (some (sf.assignChar .bareword sf.pos (chr '$') (sf.pos + 1))) :=
    emits_assignChar hget (by decide) (by decide)
  unfold parseMoney
  simp only
  split_ifs with hend
  · exact hdollar
  · obtain ⟨xlen, hxlen, hin⟩ := exists_span (inList (ascii "0123456789.,")) (show sf.pos + 1 ≤ sf.s.length from hlt)
    have hin : sf.pos + 1 + xlen ≤ sf.len := hin
    refine emits_bind ⟨xlen, hxlen⟩ fun n hn => ?_
    obtain rfl : xlen = n := Option.some.inj (hxlen.symm.trans hn)
    split_ifs with hzero
    · obtain ⟨second, hsecond⟩ := charIs_of_lt (chr '$') (show sf.pos + 1 < sf.len by omega)
      rw [hsecond]
      simp only [Option.bind_eq_bind, Option.bind_some]
      split_ifs
      · have hrest : sf.pos + 2 + (sf.len - (sf.pos + 2)) ≤ sf.s.length := by
          unfold len at *
          omega
        obtain ⟨r, hr, hfound⟩ := memmem_of_le [chr '$', chr '$'] hrest
        rw [sizeSub_of_le (by omega)]
        unfold memchr2
        simp only [Option.bind_some, hr]
        refine emits_parseTagged (by omega) (by omega) fun i hi => ?_
        obtain ⟨hge, hle⟩ := hfound i hi
        simp only [List.length_cons, List.length_nil] at hle
        omega
      · obtain ⟨tag, htag, hintag⟩ := exists_span
          (inList (ascii "abcdefghjiklmnopqrstuvwxyzABCDEFGHIJKLMNOPQRSTUVWXYZ"))
          (show sf.pos + 1 ≤ sf.s.length from hlt)
        have hintag : sf.pos + 1 + tag ≤ sf.len := hintag
        rw [htag]
        simp only [Option.bind_some]
        split_ifs
        · exact hdollar
        · obtain ⟨closed, hclosed⟩ : ∃ b,
            andAlso (sf.pos + tag + 1 ≠ sf.len) (sf.charIs (sf.pos + tag + 1) (chr '$')) = some b :=
            exists_andAlso fun h => charIs_of_lt _ (by omega)
          rw [hclosed]
          cases closed with
          | false => exact hdollar
          | true =>
              have hne := (andAlso_eq_true hclosed).1
              have hrest : sf.pos + tag + 2 + (sf.len - (sf.pos + tag + 2)) ≤ sf.s.length := by
                unfold len at *
                omega
              have hslice : sf.pos + (tag + 2) ≤ sf.s.length := by
                unfold len at *
                omega
              rw [sizeSub_of_le (by omega), slice_of_le hslice]
              simp only [Option.bind_some, Bool.not_true, Bool.false_eq_true, if_false]
              obtain ⟨r, hr, hfound⟩ := memmem_of_le ((sf.s.drop sf.pos).take (tag + 2)) hrest
              rw [hr]
              refine emits_parseTagged (by omega) (by omega) fun i hi => ?_
              obtain ⟨hge, hle⟩ := hfound i hi
              rw [List.length_take, List.length_drop, Nat.min_eq_left (by omega)] at hle
              omega
    · apply emits_ite (fun _ => charIs_of_lt _ (by omega)) (fun _ _ => emits_parseWord hget (by decide))
      exact emits_assign le_rfl (by omega) (by omega) (by omega) (by decide) (fun hc => by cases hc)

end Words

/-- The function has read a part of the input that counts for nothing. -/
def Skips (sf : SqliState) (r : Option SqliState) : Prop :=
  ∃ pos, r = some { sf with pos := pos } ∧ sf.pos < pos ∧ pos ≤ sf.len

theorem exists_exponent {pos : ℕ} (hpos : pos ≤ sf.len) :
    ∃ bare stop, sf.exponent pos = some (bare, stop) ∧ pos ≤ stop ∧ stop ≤ sf.len := by
  obtain ⟨b, hb⟩ : ∃ b, andAlso (pos < sf.len)
      (do some ((← sf.charIs pos (chr 'E')) || (← sf.charIs pos (chr 'e')))) = some b :=
    exists_andAlso fun h => exists_both (fun b c => b || c) (charIs_of_lt _ h) (charIs_of_lt _ h)
  unfold exponent
  rw [hb]
  cases b with
  | false => exact ⟨false, pos, rfl, le_rfl, hpos⟩
  | true =>
      have hlt := (andAlso_eq_true hb).1
      obtain ⟨signed, hsigned⟩ : ∃ b, andAlso (pos + 1 < sf.len)
          (do some ((← sf.charIs (pos + 1) (chr '+')) || (← sf.charIs (pos + 1) CHAR_DASH))) = some b :=
        exists_andAlso fun h => exists_both (fun b c => b || c) (charIs_of_lt _ h) (charIs_of_lt _ h)
      have hstart : pos ≤ (if signed then pos + 2 else pos + 1) ∧ (if signed then pos + 2 else pos + 1) ≤ sf.len := by
        split_ifs with hs
        · subst hs
          exact ⟨Nat.le_add_right pos 2, (andAlso_eq_true hsigned).1⟩
        · exact ⟨Nat.le_succ pos, hlt⟩
      obtain ⟨n, hn, hin⟩ := exists_span isDigit hstart.2
      rw [hsigned]
      simp only [Option.bind_eq_bind, Option.bind_some, if_true, hn]
      exact ⟨decide (n = 0), _, rfl, hstart.1.trans (Nat.le_add_right _ n), hin⟩

theorem exists_hasSuffix (pos : ℕ) : ∃ b, sf.hasSuffix pos = some b ∧ (b = true → pos < sf.len) := by
  have h : ∃ b, sf.hasSuffix pos = some b := by
    unfold hasSuffix
    refine exists_andAlso fun h => ?_
    rw [List.getElem?_eq_getElem h]
    simp only [Option.bind_eq_bind, Option.bind_some]
    split_ifs with hd hend
    · exact ⟨true, rfl⟩
    · have hlt : pos + 1 < sf.len := by omega
      rw [List.getElem?_eq_getElem hlt]
      exact ⟨_, rfl⟩
    · exact ⟨false, rfl⟩
  obtain ⟨b, hb⟩ := h
  refine ⟨b, hb, fun htrue => ?_⟩
  subst htrue
  exact (andAlso_eq_true hb).1

theorem exists_mantissa {ch : UInt8} (hget : sf.s[sf.pos]? = some ch) (hch : isDigit ch = true ∨ ch = chr '.') :
    ∃ point n, sf.mantissa = some (point, n) ∧ 0 < n ∧ sf.pos + n ≤ sf.len ∧ (point = true ∧ n = 1 → ch = chr '.') := by
  have hlt := pos_lt hget
  obtain ⟨whole, hwhole, hin⟩ := exists_span isDigit (show sf.pos ≤ sf.s.length from hlt.le)
  have hin : sf.pos + whole ≤ sf.len := hin
  have hdigits : isDigit ch = true → 0 < whole := fun hdigit => by
    obtain ⟨n, hn, hpos, -⟩ : ∃ n, span isDigit sf.s sf.pos = some n ∧ 0 < n ∧ sf.pos + n ≤ sf.s.length :=
      exists_span_pos hget hdigit
    rwa [Option.some.inj (hwhole.symm.trans hn)]
  obtain ⟨point, hpoint⟩ : ∃ b, andAlso (sf.pos + whole < sf.len) (sf.charIs (sf.pos + whole) (chr '.')) = some b :=
    exists_andAlso fun h => charIs_of_lt _ h
  unfold mantissa
  rw [hwhole]
  simp only [Option.bind_eq_bind, Option.bind_some, hpoint]
  cases point with
  | true =>
      have hlt' := (andAlso_eq_true hpoint).1
      obtain ⟨frac, hfrac, hinfrac⟩ := exists_span isDigit (show sf.pos + whole + 1 ≤ sf.s.length from hlt')
      have hinfrac : sf.pos + whole + 1 + frac ≤ sf.len := hinfrac
      refine ⟨true, whole + 1 + frac, by rw [if_pos rfl, hfrac]; rfl, by omega, by omega, fun h => ?_⟩
      rcases hch with hdigit | hch
      · have := hdigits hdigit
        omega
      · exact hch
  | false =>
      refine ⟨false, whole, rfl, ?_, hin, fun h => by cases h.1⟩
      rcases hch with hdigit | rfl
      · exact hdigits hdigit
      · by_contra hwhole0
        obtain rfl : whole = 0 := by omega
        unfold andAlso charIs at hpoint
        rw [Nat.add_zero, if_pos hlt, hget] at hpoint
        cases hpoint

theorem exists_numberBase (hlt : sf.pos < sf.len) :
    ∃ digits, sf.numberBase = some digits ∧ (digits.isSome → sf.pos + 1 < sf.len) := by
  obtain ⟨zero, hzero⟩ := charIs_of_lt (chr '0') hlt
  unfold numberBase
  rw [hzero]
  simp only [Option.bind_eq_bind, Option.bind_some]
  split_ifs with h
  · rw [List.getElem?_eq_getElem h.2]
    exact ⟨_, rfl, fun _ => h.2⟩
  · exact ⟨none, rfl, fun h => by cases h⟩

theorem parseNumber_spec {ch : UInt8} (hget : sf.s[sf.pos]? = some ch) (hch : isDigit ch = true ∨ ch = chr '.') :
    Emits sf sf.parseNumber ∨ Skips sf sf.parseNumber := by
  have hlt := pos_lt hget
  obtain ⟨digits, hdigits, hbase⟩ := exists_numberBase hlt
  unfold parseNumber
  rw [hdigits]
  cases digits with
  | some digits =>
      have hlt' := hbase rfl
      obtain ⟨xlen, hxlen, hin⟩ := exists_span (inList digits) (show sf.pos + 2 ≤ sf.s.length from hlt')
      have hin : sf.pos + 2 + xlen ≤ sf.len := hin
      left
      simp only [Option.bind_eq_bind, Option.bind_some, hxlen]
      split_ifs
      · exact emits_assign le_rfl le_rfl (by omega) (by omega) (by decide) (fun hc => by cases hc)
      · exact emits_assign le_rfl (by omega) (by omega) (by omega) (by decide) (fun hc => by cases hc)
  | none =>
      obtain ⟨point, n, hmantissa, hpos, hin, hdot⟩ := exists_mantissa hget hch
      obtain ⟨bare, stop, hexponent, hge, hle⟩ := exists_exponent hin
      obtain ⟨suffixed, hsuffix, hlt'⟩ := sf.exists_hasSuffix stop
      simp only [Option.bind_eq_bind, Option.bind_some, hmantissa]
      split_ifs with hone
      · left
        obtain rfl := hdot hone
        exact emits_assignChar hget (by decide) (by decide)
      · simp only [hexponent, hsuffix, Option.bind_some]
        have hge' : sf.pos < (if suffixed then stop + 1 else stop) := by split_ifs <;> omega
        have hle' : (if suffixed then stop + 1 else stop) ≤ sf.len := by
          split_ifs with h
          · exact hlt' h
          · exact hle
        cases bare with
        | true => exact Or.inr ⟨_, rfl, hge', hle'⟩
        | false => exact Or.inl (emits_assign le_rfl (by omega) hge' hle' (by decide) (fun hc => by cases hc))

end Emits

end SqliState

/-! ### One call -/

/-- What the byte must be that a function is called for. -/
def ParseFn.fits (ch : UInt8) : ParseFn → Bool
  | .word | .bstring | .estring | .nqstring | .qstring | .ustring | .xstring => !wordEnd ch
  | .char => SqliState.charType ch ≠ .none
  | .hash => ch = chr '#'
  | .dash => ch = CHAR_DASH
  | .money => ch = chr '$'
  | .number => isDigit ch || ch = chr '.'
  | _ => true

theorem fits_charParseMap (ch : UInt8) : (charParseMap ch).fits ch = true :=
  Text.forall_byte (p := fun ch => (charParseMap ch).fits ch = true) (by decide +kernel) ch

section Calls

open SqliState

variable (signedChar : Bool) (T : KeywordTable)

/-- Every function reads something, inside of the input, and leaves a token behind or nothing. -/
theorem ParseFn.run_spec {sf : SqliState} {ch : UInt8} (hget : sf.s[sf.pos]? = some ch) (f : ParseFn)
    (hfits : f.fits ch = true) : Emits sf (f.run signedChar T sf) ∨ Skips sf (f.run signedChar T sf) := by
  have hlt := pos_lt hget
  have hword : (!wordEnd ch) = true → wordEnd ch = false := fun h => by simpa using h
  cases f with
  | white => exact Or.inr ⟨sf.pos + 1, rfl, Nat.lt_succ_self _, hlt⟩
  | operator1 => exact Or.inl (emits_parseOperator1 hget)
  | operator2 => exact Or.inl (emits_parseOperator2 hget)
  | other => exact Or.inl (emits_parseOther hget)
  | char => exact Or.inl (emits_parseChar hget (of_decide_eq_true hfits))
  | hash => exact Or.inl (emits_parseHash hget (of_decide_eq_true hfits))
  | dash => exact Or.inl (emits_parseDash hget (of_decide_eq_true hfits))
  | slash => exact Or.inl (emits_parseSlash hget)
  | backslash => exact Or.inl (emits_parseBackslash hget)
  | string => exact Or.inl (emits_parseString hget)
  | word => exact Or.inl (emits_parseWord hget (hword hfits))
  | tick => exact Or.inl (emits_parseTick hlt)
  | var => exact Or.inl (emits_parseVar hlt)
  | money => exact Or.inl (emits_parseMoney hget (of_decide_eq_true hfits))
  | number =>
      apply parseNumber_spec hget
      simpa [ParseFn.fits] using hfits
  | bstring => exact Or.inl (emits_parseDigitString hget (hword hfits) _)
  | estring => exact Or.inl (emits_parseEstring hget (hword hfits))
  | nqstring => exact Or.inl (emits_parseNqstring hget (hword hfits))
  | qstring => exact Or.inl (emits_parseQstringCore hget (hword hfits) 0)
  | ustring => exact Or.inl (emits_parseUstring hget (hword hfits))
  | xstring => exact Or.inl (emits_parseDigitString hget (hword hfits) _)
  | bword => exact Or.inl (emits_parseBword hget)

/-- What a call of the tokenizer does: it finds a token behind the position, or the end. -/
structure Called (sf : SqliState) (more : Bool) (sf' : SqliState) : Prop where
  s : sf'.s = sf.s
  flags : sf'.flags = sf.flags
  le : sf'.pos ≤ sf.len
  token : more = true → sf.pos < sf'.pos ∧ sf'.tokens = sf.tokens + 1 ∧ Placed sf.s sf.pos sf'.pos sf'.current
  done : more = false → sf.pos ≤ sf'.pos ∧ sf'.tokens = sf.tokens ∧ sf'.current.type = .none

theorem exists_tokenizeLoop : ∀ (fuel : ℕ) (sf : SqliState), sf.pos ≤ sf.len → sf.len - sf.pos < fuel →
    sf.current.type = .none → ∃ more sf', tokenizeLoop signedChar T fuel sf = some (more, sf') ∧ Called sf more sf'
  | 0, _, _, hfuel, _ => absurd hfuel (Nat.not_lt_zero _)
  | fuel + 1, sf, hle, hfuel, hnone => by
      unfold tokenizeLoop
      split_ifs with hlt
      · obtain ⟨ch, hget⟩ := getElem?_of_lt hlt
        rw [hget]
        simp only [Option.bind_eq_bind, Option.bind_some]
        rcases (charParseMap ch).run_spec signedChar T hget (fits_charParseMap ch) with
          ⟨sf', hrun, emitted⟩ | ⟨pos, hrun, hgt, hpos⟩
        · rw [hrun]
          simp only [Option.bind_some]
          rw [if_pos emitted.placed.type]
          exact ⟨true, _, rfl, emitted.s, emitted.flags, emitted.le,
            fun _ => ⟨emitted.lt, congrArg (· + 1) emitted.tokens, emitted.placed⟩, fun h => by cases h⟩
        · rw [hrun]
          simp only [Option.bind_some]
          rw [if_neg (not_not_intro hnone)]
          have hshort : sf.len - pos < fuel := by omega
          obtain ⟨more, sf', hloop, called⟩ := exists_tokenizeLoop fuel { sf with pos := pos } hpos hshort hnone
          refine ⟨more, sf', hloop, called.s, called.flags, called.le, fun h => ?_, fun h => ?_⟩
          · obtain ⟨hlt', htokens, placed⟩ := called.token h
            exact ⟨hgt.trans hlt', htokens, placed.mono hgt.le le_rfl⟩
          · obtain ⟨hle', htokens, htype⟩ := called.done h
            exact ⟨hgt.le.trans hle', htokens, htype⟩
      · exact ⟨false, sf, rfl, rfl, rfl, hle, (fun h => by cases h), fun _ => ⟨le_rfl, rfl, hnone⟩⟩

/-- A call of the tokenizer never leaves the input, and comes to an end. -/
theorem exists_tokenize {sf : SqliState} (hlen : 0 < sf.len) (hle : sf.pos ≤ sf.len) :
    ∃ more sf', sf.tokenize signedChar T = some (more, sf') ∧ Called sf more sf' := by
  unfold tokenize
  rw [if_neg hlen.ne']
  simp only
  split_ifs with hquote
  · have h : Emits { sf with current := .clear } (parseStringCore { sf with current := .clear } 0
        (flag2delim sf.flags.quote) 0) := by
      apply emits_parseStringCore
      · exact hquote.1.le
      · exact Nat.zero_le _
      · exact hquote.1.trans_lt hlen
    obtain ⟨sf', hrun, emitted⟩ := h
    rw [hrun]
    exact ⟨true, _, rfl, emitted.s, emitted.flags, emitted.le,
      fun _ => ⟨emitted.lt, congrArg (· + 1) emitted.tokens, emitted.placed⟩, fun h => by cases h⟩
  · obtain ⟨more, sf', hloop, called⟩ := exists_tokenizeLoop signedChar T (sf.len + 1) { sf with current := .clear }
      hle (Nat.lt_succ_of_le (Nat.sub_le _ _)) rfl
    exact ⟨more, sf', hloop, called.s, called.flags, called.le, called.token, called.done⟩

/-! ### All calls -/

/-- The tokens of the calls, up to the call that says that there is none. -/
def SqliState.tokensFrom : ℕ → SqliState → Option (List Token)
  | 0, _ => none
  | fuel + 1, sf => do
      let (more, sf) ← sf.tokenize signedChar T
      if !more then some []
      else
        let rest ← tokensFrom fuel sf
        some (sf.current :: rest)

theorem exists_tokensFrom : ∀ (fuel : ℕ) (sf : SqliState), 0 < sf.len → sf.pos ≤ sf.len → sf.len - sf.pos < fuel →
    ∃ toks, sf.tokensFrom signedChar T fuel = some toks ∧ toks.length ≤ sf.len - sf.pos ∧
      (∀ st ∈ toks, Placed sf.s sf.pos sf.len st) ∧ toks.Pairwise fun st st' => st.pos + st.val.length ≤ st'.pos
  | 0, _, _, _, hfuel => absurd hfuel (Nat.not_lt_zero _)
  | fuel + 1, sf, hlen, hle, hfuel => by
      obtain ⟨more, sf', hcall, called⟩ := exists_tokenize signedChar T hlen hle
      unfold tokensFrom
      rw [hcall]
      cases more with
      | false => exact ⟨[], rfl, Nat.zero_le _, fun st h => absurd h List.not_mem_nil, List.Pairwise.nil⟩
      | true =>
          obtain ⟨hlt, -, placed⟩ := called.token rfl
          have hlen' : sf'.len = sf.len := congrArg List.length called.s
          have hle' := called.le
          obtain ⟨toks, hrest, hcount, hplaced, horder⟩ :=
            exists_tokensFrom fuel sf' (by omega) (by omega) (by omega)
          rw [called.s, hlen'] at hplaced
          simp only [Option.bind_eq_bind, Option.bind_some, hrest]
          refine ⟨sf'.current :: toks, rfl, ?_, fun st h => ?_, List.pairwise_cons.mpr ⟨fun st h => ?_, horder⟩⟩
          · rw [List.length_cons]
            omega
          · rcases List.mem_cons.mp h with rfl | h
            · exact placed.mono le_rfl called.le
            · exact (hplaced st h).mono hlt.le le_rfl
          · exact placed.inside.trans (hplaced st h).start

/-- **The tokens of an input.**  Behind a quote or not, and in either dialect, the tokenizer comes
to an end without leaving the input.  There are no more tokens than bytes; each of them holds the
bytes that stand at its position, at most 31 of them; and it ends before the next one starts. -/
theorem sqliTokens_spec (s : Bytes) (flags : Flags) :
    ∃ toks, (SqliState.init s flags).tokensFrom signedChar T (s.length + 1) = some toks ∧ toks.length ≤ s.length ∧
      (∀ st ∈ toks, st.type ≠ .none ∧ st.val <+: s.drop st.pos ∧ st.pos + st.val.length ≤ s.length ∧
        st.val.length < TOKEN_SIZE) ∧
      toks.Pairwise fun st st' => st.pos + st.val.length ≤ st'.pos := by
  by_cases hs : s = []
  · subst hs
    exact ⟨[], rfl, le_rfl, fun st h => absurd h List.not_mem_nil, List.Pairwise.nil⟩
  · have hlen : 0 < (SqliState.init s flags).len := List.length_pos_iff.mpr hs
    obtain ⟨toks, hrun, hcount, hplaced, horder⟩ :=
      exists_tokensFrom signedChar T (s.length + 1) _ hlen (Nat.zero_le _) (Nat.lt_succ_of_le (Nat.sub_le _ _))
    refine ⟨toks, hrun, hcount, fun st h => ?_, horder⟩
    have placed := hplaced st h
    exact ⟨placed.type, placed.val, placed.inside, placed.short⟩

end Calls

end PurpleWolf.Sqli
