import PurpleWolf.Libinjection.XssSafety

/-! # What the XSS detector reports

* **Reported.**  A banned tag in the text of a page (`isXss_of_black_tag`), and a banned
  attribute of any tag (`isXss_of_black_attribute`), whatever comes behind.
* **Passed.**  An input without `<` and `=` (`isXss_of_plain`).
* **Missed.**  Where `char` is signed, a byte 0xFF between two attributes ends the scan, and
  nothing behind it is looked at (`isXss_of_eof_byte`). -/

namespace PurpleWolf.Xss

open Html5 Html5.H5 Memory

variable {k : Bool}

/-! ### Reports -/

/-- What the loop returns, with fuel enough. -/
def Ends (k : Bool) (result : InjectionResult) (attr : Attribute) (h : H5) : Prop :=
  ∃ fuel, isXssLoop k fuel attr h = some result

theorem isXssLoop_mono : ∀ {fuel : ℕ} {attr : Attribute} {h : H5} {r : InjectionResult},
    isXssLoop k fuel attr h = some r → isXssLoop k (fuel + 1) attr h = some r
  | 0, _, _, _, hr => by cases hr
  | fuel + 1, attr, h, r, hr => by
      unfold isXssLoop at hr ⊢
      obtain ⟨⟨result, h'⟩, hnext, hr⟩ := Option.bind_eq_some_iff.mp hr
      rw [hnext]
      simp only [Option.bind_eq_bind, Option.bind_some] at hr ⊢
      split_ifs at hr ⊢
      · exact hr
      · obtain ⟨token, htoken, hr⟩ := Option.bind_eq_some_iff.mp hr
        obtain ⟨⟨reported, attr'⟩, hinspect, hr⟩ := Option.bind_eq_some_iff.mp hr
        rw [htoken]
        simp only [Option.bind_some]
        rw [hinspect]
        simp only [Option.bind_some] at hr ⊢
        split_ifs at hr ⊢
        · exact hr
        · exact isXssLoop_mono hr

theorem isXssLoop_mono_le {fuel fuel' : ℕ} {attr : Attribute} {h : H5} {r : InjectionResult} (hle : fuel ≤ fuel')
    (hr : isXssLoop k fuel attr h = some r) : isXssLoop k fuel' attr h = some r := by
  induction fuel', hle using Nat.le_induction with
  | base => exact hr
  | succ fuel' _ ih => exact isXssLoop_mono ih

theorem Ends.isXssIn_eq {s : Bytes} {flags : Flags} {result : InjectionResult}
    (h : Ends k result .none (H5.init s flags)) : isXssIn k s flags = some result := by
  obtain ⟨fuel, hfuel⟩ := h
  obtain ⟨r, hr⟩ : ∃ r, isXssIn k s flags = some r := by
    rcases answers_isXssIn k s flags with htrue | hfalse
    · exact ⟨_, htrue⟩
    · exact ⟨_, hfalse⟩
  have h1 := isXssLoop_mono_le (Nat.le_max_left fuel (3 * s.length + 3)) hfuel
  have h2 := isXssLoop_mono_le (Nat.le_max_right fuel (3 * s.length + 3)) hr
  rw [hr, ← h2, h1]

/-- A call that hands out `token`, of the given type. -/
def Hands (r : Next) (type : TokenType) (token : Bytes) (h' : H5) : Prop :=
  r = some (.true, h') ∧ h'.tokenType = type ∧ slice h'.s h'.tokenStart h'.tokenLen = some token

theorem Hands.loop {h h' : H5} {type : TokenType} {token : Bytes} {attr a : Attribute} {reported : Bool}
    (hands : Hands (h.next k) type token h') (hinspect : inspectToken attr type token = some (reported, a))
    (fuel : ℕ) :
    isXssLoop k (fuel + 1) attr h = if reported then some .true else isXssLoop k fuel a h' := by
  obtain ⟨hnext, rfl, hslice⟩ := hands
  rw [isXssLoop, hnext]
  simp only [Option.bind_eq_bind, Option.bind_some, ne_eq, not_true, ite_false]
  rw [hslice]
  simp only [Option.bind_some]
  rw [hinspect]
  rfl

theorem Hands.reports {h h' : H5} {type : TokenType} {token : Bytes} {attr a : Attribute}
    (hands : Hands (h.next k) type token h') (hinspect : inspectToken attr type token = some (true, a)) :
    Ends k .true attr h := ⟨1, hands.loop hinspect 0⟩

theorem Hands.ends_of_rest {h h' : H5} {type : TokenType} {token : Bytes} {attr a : Attribute}
    {result : InjectionResult} (hands : Hands (h.next k) type token h')
    (hinspect : inspectToken attr type token = some (false, a)) (hrest : Ends k result a h') :
    Ends k result attr h := by
  obtain ⟨fuel, hfuel⟩ := hrest
  exact ⟨fuel + 1, (hands.loop hinspect fuel).trans hfuel⟩

theorem hands_emit {h : H5} {u token v : Bytes} {type : TokenType} {pos : ℕ} {state : State}
    (hs : h.s = u ++ (token ++ v)) :
    Hands (h.emit type u.length token.length pos state) type token
      { h with tokenType := type, tokenStart := u.length, tokenLen := token.length, pos := pos, state := state } :=
  ⟨rfl, rfl, by simp only [hs]; exact slice_append u token v⟩

theorem hands_emitRest {h : H5} {u token : Bytes} {type : TokenType} {pos : ℕ} (hs : h.s = u ++ token)
    (hpos : h.pos = u.length) :
    Hands (h.emitRest type pos) type token
      { h with tokenType := type, tokenStart := u.length, tokenLen := token.length, pos := pos, state := .eof } := by
  have hlen : sizeSub h.len h.pos = some token.length := by
    rw [hpos, H5.len, hs, List.length_append, sizeSub_of_le (by omega), Nat.add_sub_cancel_left]
  have hs' : h.s = u ++ (token ++ []) := by rw [List.append_nil, hs]
  unfold H5.emitRest
  rw [hlen, hpos]
  exact hands_emit hs'

/-! ### Tags -/

/-- What follows a tag name. -/
def EndsName (ends : UInt8 → Bool) (rest : Bytes) : Prop := ∀ c ∈ rest.head?, ends c = true

theorem hands_tagName {h : H5} {u name rest : Bytes} (hs : h.s = u ++ (name ++ rest)) (hpos : h.pos = u.length)
    (hclose : h.isClose = false) (hname : ∀ c ∈ name, endsTagName c = false) (hrest : EndsName endsTagName rest) :
    ∃ h', Hands h.tagName .tagNameOpen name h' := by
  unfold H5.tagName
  cases rest with
  | nil =>
      rw [List.append_nil] at hs
      rw [hs, hpos, scan_rest hname]
      exact ⟨_, hands_emitRest hs hpos⟩
  | cons c rest =>
      have hc : endsTagName c = true := hrest c rfl
      rw [hs, hpos, scan_append rest hname hc]
      simp only [hclose, Bool.false_eq_true, if_false, Nat.add_sub_cancel_left]
      split_ifs
      · exact ⟨_, hands_emit hs⟩
      · exact ⟨_, hands_emit hs⟩
      · exact ⟨_, hands_emit hs⟩

/-- White space behind the name of an open tag leads to its attributes. -/
theorem hands_tagName_white {h : H5} {u name rest : Bytes} {w : UInt8} (hs : h.s = u ++ (name ++ w :: rest))
    (hpos : h.pos = u.length) (hname : ∀ c ∈ name, endsTagName c = false) (hw : endsTagName w = true)
    (hwhite : isWhite w = true) :
    Hands h.tagName .tagNameOpen name { h with
      tokenType := .tagNameOpen, tokenStart := u.length, tokenLen := name.length, pos := u.length + name.length + 1,
      state := .beforeAttributeName } := by
  unfold H5.tagName
  rw [hs, hpos, scan_append rest hname hw]
  simp only [hwhite, if_true, Nat.add_sub_cancel_left]
  exact hs ▸ hands_emit hs

/-- A tag is opened by a letter, or by a NUL. -/
def OpensTag (c : UInt8) : Prop := isLetter c = true ∨ c = 0

instance (c : UInt8) : Decidable (OpensTag c) := inferInstanceAs (Decidable (_ ∨ _))

theorem tagOpen_eq_tagName {h : H5} {c : UInt8} (fuel : ℕ) (hget : h.s[h.pos]? = some c) (hc : OpensTag c) :
    tagOpen (fuel + 1) h = h.tagName := by
  have hlt : h.pos < h.len := (List.getElem?_eq_some_iff.mp hget).1
  have hne : c ≠ CHAR_BANG ∧ c ≠ CHAR_SLASH ∧ c ≠ CHAR_QUESTION ∧ c ≠ CHAR_PERCENT := by
    refine ⟨?_, ?_, ?_, ?_⟩ <;>
    · rintro rfl
      revert hc
      decide
  obtain ⟨h1, h2, h3, h4⟩ := hne
  unfold tagOpen
  rw [if_neg (by omega), hget]
  simp only [Option.bind_eq_bind, Option.bind_some, if_neg h1, if_neg h2, if_neg h3, if_neg h4]
  rcases hc with hletter | rfl
  · rw [if_pos hletter]
  · rw [if_neg (by decide), if_pos rfl]

/-- Text without `<` is passed over, up to a tag. -/
theorem ends_of_text {s p rest : Bytes} {c : UInt8} {result : InjectionResult} (hs : s = p ++ CHAR_LT :: c :: rest)
    (hp : CHAR_LT ∉ p) (hc : OpensTag c)
    (htag : ∀ h : H5, h.s = s → h.pos = p.length + 1 → h.isClose = false → h.next k = h.tagName →
      Ends k result .none h) :
    Ends k result .none (H5.init s .dataState) := by
  have hfind : memchr s 0 CHAR_LT = some (some p.length) := by
    have := memchr_append (u := []) (c :: rest) hp
    rwa [List.nil_append, List.length_nil, Nat.zero_add, ← hs] at this
  have hget : s[p.length + 1]? = some c := by
    rw [hs, List.getElem?_append_right (by omega), Nat.add_sub_cancel_left]
    rfl
  obtain ⟨h1, hh1⟩ : ∃ h1 : H5, h1 = { H5.init s .dataState with
      tokenStart := 0, tokenType := .dataText, tokenLen := p.length - 0, pos := p.length + 1,
      state := .tagOpen } := ⟨_, rfl⟩
  have hs1 : h1.s = s := by rw [hh1]; rfl
  have hpos1 : h1.pos = p.length + 1 := by rw [hh1]
  have hget1 : h1.s[h1.pos]? = some c := by rw [hs1, hpos1]; exact hget
  have hnext1 : h1.next k = h1.tagName := by
    unfold next
    rw [show h1.state = .tagOpen by rw [hh1]]
    exact tagOpen_eq_tagName _ hget1 hc
  have hends := htag h1 hs1 hpos1 (by rw [hh1]; rfl) hnext1
  have hinit : (H5.init s .dataState).next k = if p.length = 0 then h1.tagName else some (.true, h1) := by
    unfold next
    simp only [H5.init]
    unfold data
    simp only [H5.len, Nat.not_lt_zero, if_false, hfind, Option.bind_eq_bind, Option.bind_some, Nat.sub_zero]
    rw [hh1] at hget1 ⊢
    split_ifs
    · exact tagOpen_eq_tagName _ hget1 hc
    · rfl
  by_cases hempty : p.length = 0
  · rw [if_pos hempty, ← hnext1] at hinit
    obtain ⟨fuel, hfuel⟩ := hends
    cases fuel with
    | zero => cases hfuel
    | succ fuel =>
        refine ⟨fuel + 1, ?_⟩
        rw [isXssLoop, hinit]
        rwa [isXssLoop] at hfuel
  · rw [if_neg hempty] at hinit
    have hslice : slice h1.s h1.tokenStart h1.tokenLen = some p := by
      have := slice_append [] p (CHAR_LT :: c :: rest)
      rw [hs1, show h1.tokenStart = 0 by rw [hh1], show h1.tokenLen = p.length by rw [hh1]; rfl, hs]
      exact this
    have hands : Hands ((H5.init s .dataState).next k) .dataText p h1 := ⟨hinit, by rw [hh1], hslice⟩
    exact hands.ends_of_rest (a := .none) rfl hends

/-- A name as the tables have it: in upper case, without NULs. -/
def fold (name : Bytes) : Bytes := (name.filter (· ≠ 0)).map upcase

theorem fold_cons_zero (name : Bytes) : fold (0 :: name) = fold name := rfl

theorem fold_cons {c : UInt8} (hc : c ≠ 0) (name : Bytes) : fold (c :: name) = upcase c :: fold name := by
  unfold fold
  rw [List.filter_cons_of_pos (by simpa using hc), List.map_cons]

/-- `cstrcasecmp_with_null` compares with the folded name. -/
theorem cstrcasecmpWithNull_iff : ∀ {a b : Bytes}, cstrcasecmpWithNull a b = true ↔ a = fold b
  | a, [] => by
      unfold cstrcasecmpWithNull
      exact List.isEmpty_iff
  | a, cb :: b => by
      by_cases hcb : cb = 0
      · unfold cstrcasecmpWithNull
        rw [if_pos hcb, hcb, fold_cons_zero]
        exact cstrcasecmpWithNull_iff
      · unfold cstrcasecmpWithNull
        rw [if_neg hcb, fold_cons hcb]
        cases a with
        | nil => simp
        | cons ca a =>
            rw [List.cons.injEq, ← cstrcasecmpWithNull_iff]
            by_cases hca : ca = upcase cb <;> simp [hca]

theorem blacktag_letters : ∀ tag ∈ BLACKTAG, 3 ≤ tag.length ∧ ∀ c ∈ tag, 65 ≤ c ∧ c ≤ 90 := by decide +kernel

theorem isLetter_of_upcase {c : UInt8} (h : 65 ≤ upcase c ∧ upcase c ≤ 90) : isLetter c = true := by
  unfold upcase at h
  unfold isLetter
  split_ifs at h with hc
  · simp [hc]
  · simp [h]

theorem opensTag_of_fold {name : Bytes} (hblack : fold name ∈ BLACKTAG) : ∀ c ∈ name, OpensTag c := by
  intro c hc
  by_cases hzero : c = 0
  · exact Or.inr hzero
  · have hmem : upcase c ∈ fold name :=
      List.mem_map_of_mem (List.mem_filter.mpr ⟨hc, by simpa using hzero⟩)
    exact Or.inl (isLetter_of_upcase ((blacktag_letters _ hblack).2 _ hmem))

theorem isBlackTag_of_fold {name : Bytes} (hblack : fold name ∈ BLACKTAG) : isBlackTag name = true := by
  have hlen : 3 ≤ name.length := by
    have h3 := (blacktag_letters _ hblack).1
    unfold fold at h3
    rw [List.length_map] at h3
    exact h3.trans (List.length_filter_le _ _)
  have hany : BLACKTAG.any (cstrcasecmpWithNull · name) = true :=
    List.any_eq_true.mpr ⟨_, hblack, cstrcasecmpWithNull_iff.mpr rfl⟩
  unfold isBlackTag
  rw [if_neg (by omega), hany]
  rfl

/-- A banned tag is reported, whatever text without `<` stands in front of it, in whatever case it
is written and with whatever NULs in it, and whatever follows. -/
theorem isXss_of_black_tag (k : Bool) {p name rest : Bytes} (hp : CHAR_LT ∉ p) (hblack : fold name ∈ BLACKTAG)
    (hrest : EndsName endsTagName rest) : isXss k (p ++ CHAR_LT :: (name ++ rest)) = true := by
  have hopens := opensTag_of_fold hblack
  have hname : ∀ c ∈ name, endsTagName c = false := by
    intro c hc
    rcases hopens c hc with hletter | rfl
    · exact endsTagName_letter hletter
    · rfl
  refine (isXss_iff k _).mpr ⟨.dataState, Ends.isXssIn_eq ?_⟩
  cases name with
  | nil => exact absurd hblack (by decide)
  | cons c name =>
      refine ends_of_text rfl hp (hopens c List.mem_cons_self) fun h hs hpos hclose hnext => ?_
      have hs : h.s = (p ++ [CHAR_LT]) ++ ((c :: name) ++ rest) := by rw [hs]; simp
      obtain ⟨h', hands⟩ := hands_tagName hs (by rw [hpos]; simp) hclose hname hrest
      rw [← hnext] at hands
      apply hands.reports (a := .none)
      rw [inspectToken, isBlackTag_of_fold hblack]

/-! ### Attributes -/

/-- A character that the tokenizer sees as such behind white space. -/
def Seen (c : UInt8) : Prop := isWhite c = false ∧ c ≠ 0xFF

theorem skipWhite_append {h : H5} {u ws rest : Bytes} {c : UInt8} (hs : h.s = u ++ (ws ++ c :: rest))
    (hpos : h.pos = u.length) (hws : ∀ w ∈ ws, isWhite w = true) (hc : isWhite c = false) :
    h.skipWhite k = (if k && c == 0xFF then none else some c, { h with pos := u.length + ws.length }) := by
  have hscan : scan (fun ch => !isWhite ch) h.s h.pos = some (u.length + ws.length, c) := by
    rw [hs, hpos]
    exact scan_append rest (fun w hw => by rw [hws w hw]; rfl) (by rw [hc]; rfl)
  unfold skipWhite
  rw [hscan]

theorem skipWhite_seen {h : H5} {u ws rest : Bytes} {c : UInt8} (hs : h.s = u ++ (ws ++ c :: rest))
    (hpos : h.pos = u.length) (hws : ∀ w ∈ ws, isWhite w = true) (hc : Seen c) :
    h.skipWhite k = (some c, { h with pos := u.length + ws.length }) := by
  have hff : (k && c == 0xFF) = false := by
    rw [beq_eq_false_iff_ne.mpr hc.2, Bool.and_false]
  rw [skipWhite_append hs hpos hws hc.1, hff]
  rfl

/-- A name that stands in front of its `=`. -/
def IsAttributeName (name : Bytes) : Prop :=
  ∃ c rest, name = c :: rest ∧ Seen c ∧ c ≠ CHAR_SLASH ∧ c ≠ CHAR_GT ∧ ∀ d ∈ rest, endsAttributeName d = false

theorem hands_attributeName {h : H5} {u ws name rest : Bytes} (hs : h.s = u ++ (ws ++ (name ++ CHAR_EQUALS :: rest)))
    (hpos : h.pos = u.length) (hstate : h.state = .beforeAttributeName) (hws : ∀ w ∈ ws, isWhite w = true)
    (hname : IsAttributeName name) :
    ∃ h', Hands (h.next k) .attrName name h' ∧ h'.s = h.s ∧ h'.state = .beforeAttributeValue ∧
      h'.pos = (u ++ ws ++ name ++ [CHAR_EQUALS]).length := by
  obtain ⟨c, name', rfl, hc, hslash, hgt, hname'⟩ := hname
  have hseen : h.s = u ++ (ws ++ c :: (name' ++ CHAR_EQUALS :: rest)) := hs
  have hskip := skipWhite_seen (k := k) hseen hpos hws hc
  have hscan : scan endsAttributeName h.s (u.length + ws.length + 1) =
      some (u.length + ws.length + 1 + name'.length, CHAR_EQUALS) := by
    have := scan_append (u := u ++ ws ++ [c]) rest hname' (by decide : endsAttributeName CHAR_EQUALS = true)
    rw [hs]
    simpa [Nat.add_assoc] using this
  have hnext : h.next k = attributeName { h with pos := u.length + ws.length } := by
    unfold next
    simp only [hstate, beforeAttributeName, hskip, if_neg hslash, if_neg hgt]
  have hs' : h.s = (u ++ ws) ++ ((c :: name') ++ CHAR_EQUALS :: rest) := by rw [hs]; simp
  have hlen : u.length + ws.length + 1 + name'.length - (u.length + ws.length) = (c :: name').length := by
    rw [List.length_cons]
    omega
  have hstart : u.length + ws.length = (u ++ ws).length := List.length_append.symm
  rw [hnext]
  unfold attributeName
  simp only [hscan]
  rw [if_neg (by decide), if_neg (by decide), if_pos trivial, hlen, hstart]
  refine ⟨_, hands_emit (h := { h with pos := (u ++ ws).length }) hs', rfl, rfl, ?_⟩
  simp only [List.length_append, List.length_cons, List.length_nil]
  omega

theorem hands_quoted {h : H5} {u ws value rest : Bytes} {q : UInt8}
    (hs : h.s = u ++ (ws ++ q :: (value ++ q :: rest))) (hpos : h.pos = u.length)
    (hstate : h.state = .beforeAttributeValue) (hws : ∀ w ∈ ws, isWhite w = true)
    (hq : q = CHAR_DOUBLE ∨ q = CHAR_SINGLE ∨ q = CHAR_TICK) (hvalue : q ∉ value) (hu : u ≠ []) :
    ∃ h', Hands (h.next k) .attrValue value h' := by
  have hseen : Seen q := by rcases hq with rfl | rfl | rfl <;> exact ⟨by decide, by decide⟩
  have hskip := skipWhite_seen (k := k) hs hpos hws hseen
  have hpositive : 0 < u.length := List.length_pos_of_ne_nil hu
  have hnext : h.next k = attributeValueQuote q { h with pos := u.length + ws.length } := by
    unfold next
    simp only [hstate, beforeAttributeValue, hskip]
    rcases hq with rfl | rfl | rfl
    · rfl
    · rfl
    · rfl
  have hs' : h.s = (u ++ ws ++ [q]) ++ (value ++ q :: rest) := by rw [hs]; simp
  have hlen : u.length + ws.length + 1 = (u ++ ws ++ [q]).length := by
    simp only [List.length_append, List.length_cons, List.length_nil]
  have hfind : memchr h.s (u.length + ws.length + 1) q = some (some ((u ++ ws ++ [q]).length + value.length)) := by
    rw [hs', hlen]
    exact memchr_append rest hvalue
  rw [hnext]
  unfold attributeValueQuote
  simp only [if_pos (by omega : 0 < u.length + ws.length), hfind, Option.bind_eq_bind, Option.bind_some]
  rw [hlen, Nat.add_sub_cancel_left]
  exact ⟨_, hands_emit (h := { h with pos := (u ++ ws ++ [q]).length }) hs'⟩

theorem exists_hands_value {h : H5} {u ws rest : Bytes} {c : UInt8} (hs : h.s = u ++ (ws ++ c :: rest))
    (hpos : h.pos = u.length) (hstate : h.state = .beforeAttributeValue) (hws : ∀ w ∈ ws, isWhite w = true)
    (hc : Seen c) : ∃ token h', Hands (h.next k) .attrValue token h' := by
  have hready : h.Ready := by
    unfold Ready
    rw [hstate]
    simp only [ReadyAt, H5.len]
    rw [hs, hpos, List.length_append]
    omega
  have hskip := skipWhite_seen (k := k) hs hpos hws hc
  have htype : ∀ r h', h.next k = some (r, h') → r = .true ∧ h'.tokenType = .attrValue := by
    intro r h' hnext
    unfold next at hnext
    rw [hstate] at hnext
    simp only [beforeAttributeValue, hskip] at hnext
    have hemit : ∀ {g : H5} {start n pos : ℕ} {state : State}, g.emit .attrValue start n pos state = some (r, h') →
        r = .true ∧ h'.tokenType = .attrValue := by
      intro g start n pos state hg
      obtain ⟨rfl, rfl⟩ := Prod.mk.inj (Option.some.inj hg)
      exact ⟨rfl, rfl⟩
    have hrest : ∀ {g : H5} {pos : ℕ}, g.emitRest .attrValue pos = some (r, h') →
        r = .true ∧ h'.tokenType = .attrValue := by
      intro g pos hg
      obtain ⟨n, -, hg⟩ := Option.bind_eq_some_iff.mp hg
      exact hemit hg
    have hquote : ∀ {g : H5} {q : UInt8}, attributeValueQuote q g = some (r, h') →
        r = .true ∧ h'.tokenType = .attrValue := by
      intro g q hg
      obtain ⟨idx, -, hg⟩ := Option.bind_eq_some_iff.mp hg
      cases idx with
      | none => exact hrest hg
      | some idx => exact hemit hg
    split_ifs at hnext
    · exact hquote hnext
    · exact hquote hnext
    · exact hquote hnext
    · unfold attributeValueNoQuote at hnext
      split at hnext
      · exact hrest hnext
      · split_ifs at hnext
        · exact hemit hnext
        · exact hemit hnext
  obtain ⟨h', hfalse | ⟨htrue, token⟩⟩ := delivers_next k hready
  · exact absurd (htype _ _ hfalse).1 (by decide)
  · exact ⟨_, h', htrue, (htype _ _ htrue).2, slice_of_le (token.same ▸ token.inside)⟩

/-- What stands behind the `=` of a banned attribute: something, and for an attribute that takes a
URL or the name of another one, a value in quotes that is banned itself. -/
inductive BlackValue : Attribute → Bytes → Prop
  | any {type : Attribute} {ws rest : Bytes} {c : UInt8} (htype : type = .black ∨ type = .style)
      (hws : ∀ w ∈ ws, isWhite w = true) (hc : Seen c) : BlackValue type (ws ++ c :: rest)
  | quoted {type : Attribute} {ws value rest : Bytes} {q : UInt8}
      (htype : type = .attrUrl ∧ isBlackUrl value = some true ∨ type = .attrIndirect ∧ isBlackAttr value ≠ .none)
      (hws : ∀ w ∈ ws, isWhite w = true) (hq : q = CHAR_DOUBLE ∨ q = CHAR_SINGLE ∨ q = CHAR_TICK)
      (hvalue : q ∉ value) : BlackValue type (ws ++ q :: (value ++ q :: rest))

theorem BlackValue.reports {type : Attribute} {v u : Bytes} (hv : BlackValue type v) {h : H5} (hs : h.s = u ++ v)
    (hpos : h.pos = u.length) (hstate : h.state = .beforeAttributeValue) (hu : u ≠ []) : Ends k .true type h := by
  cases hv with
  | any htype hws hc =>
      obtain ⟨token, h', hands⟩ := exists_hands_value (k := k) hs hpos hstate hws hc
      apply hands.reports (a := .none)
      rcases htype with rfl | rfl <;> rfl
  | quoted htype hws hq hvalue =>
      obtain ⟨h', hands⟩ := hands_quoted (k := k) hs hpos hstate hws hq hvalue hu
      apply hands.reports (a := .none)
      rcases htype with ⟨rfl, hurl⟩ | ⟨rfl, hattr⟩
      · rw [inspectToken, hurl]
        rfl
      · simp only [inspectToken, ne_eq, hattr, not_false_eq_true, decide_true]

/-- **A banned attribute is reported.**  Behind any text without `<`, in the first place of a tag
of any name, and whatever follows: an event handler or a style with any value, an attribute
that takes a URL with a banned one in quotes. -/
theorem isXss_of_black_attribute (k : Bool) {p tag ws name v : Bytes} {w : UInt8} (hp : CHAR_LT ∉ p)
    (hopens : ∃ c rest, tag = c :: rest ∧ OpensTag c) (htag : ∀ c ∈ tag, endsTagName c = false)
    (hw : endsTagName w = true ∧ isWhite w = true) (hws : ∀ w ∈ ws, isWhite w = true) (hname : IsAttributeName name)
    (hv : BlackValue (isBlackAttr name) v) :
    isXss k (p ++ CHAR_LT :: (tag ++ w :: (ws ++ (name ++ CHAR_EQUALS :: v)))) = true := by
  refine (isXss_iff k _).mpr ⟨.dataState, Ends.isXssIn_eq ?_⟩
  obtain ⟨c, tag, rfl, hc⟩ := hopens
  refine ends_of_text rfl hp hc fun h hs hpos _ hnext => ?_
  have hs : h.s = (p ++ [CHAR_LT]) ++ ((c :: tag) ++ w :: (ws ++ (name ++ CHAR_EQUALS :: v))) := by rw [hs]; simp
  have hands := hands_tagName_white hs (by rw [hpos]; simp) htag hw.1 hw.2
  rw [← hnext] at hands
  cases hblack : isBlackTag (c :: tag) with
  | true =>
      apply hands.reports (a := .none)
      rw [inspectToken, hblack]
  | false =>
      apply hands.ends_of_rest (a := .none) (by rw [inspectToken, hblack])
      have hs2 : h.s = (p ++ [CHAR_LT] ++ (c :: tag) ++ [w]) ++ (ws ++ (name ++ CHAR_EQUALS :: v)) := by rw [hs]; simp
      obtain ⟨h2, hands2, hsame, hstate2, hpos2⟩ := hands_attributeName (k := k)
        (h := { h with
          tokenType := .tagNameOpen, tokenStart := (p ++ [CHAR_LT]).length, tokenLen := (c :: tag).length,
          pos := (p ++ [CHAR_LT]).length + (c :: tag).length + 1, state := .beforeAttributeName })
        hs2 (by simp only [List.length_append, List.length_cons, List.length_nil]) rfl hws hname
      apply hands2.ends_of_rest (a := isBlackAttr name) rfl
      refine hv.reports (u := p ++ [CHAR_LT] ++ (c :: tag) ++ [w] ++ ws ++ name ++ [CHAR_EQUALS]) ?_ hpos2 hstate2
        (by simp)
      rw [hsame]
      exact hs2.trans (by simp)

/-- `<img src="&#106;AVAscript:...">`. -/
theorem isXss_of_entity_url : isXss true (ascii "<img src=\"&#106;AVAscript:f()\">") = true := by
  have hvalue : BlackValue (isBlackAttr (ascii "src"))
      ([] ++ CHAR_DOUBLE :: (ascii "&#106;AVAscript:f()" ++ CHAR_DOUBLE :: ascii ">")) :=
    .quoted (Or.inl ⟨by decide +kernel, by decide +kernel⟩) (by decide) (Or.inl rfl) (by decide)
  have htext : isXss true ([] ++ CHAR_LT :: (ascii "img" ++ 32 :: ([] ++ (ascii "src" ++ CHAR_EQUALS ::
      ([] ++ CHAR_DOUBLE :: (ascii "&#106;AVAscript:f()" ++ CHAR_DOUBLE :: ascii ">")))))) = true :=
    isXss_of_black_attribute true (by decide) ⟨_, _, rfl, by decide⟩ (by decide) (by decide) (by decide)
      ⟨_, _, rfl, ⟨by decide, by decide⟩, by decide, by decide, by decide⟩ hvalue
  exact htext

/-! ### Inputs without a tag and without a value -/

/-- States in which neither a tag nor a value has been begun. -/
def quietState : State → Bool
  | .tagOpen | .beforeAttributeValue | .attributeValueSingleQuote | .attributeValueDoubleQuote
  | .attributeValueBackQuote => false
  | _ => true

/-- Tokens that are never reported. -/
def quietType : TokenType → Bool
  | .dataText | .attrName | .tagNameClose | .tagNameSelfclose => true
  | _ => false

/-- The token, if there is one, is never reported, and nothing begins behind it. -/
def Quiet (s : Bytes) (r : Next) : Prop :=
  ∀ h', r = some (.true, h') → h'.s = s ∧ quietState h'.state = true ∧ quietType h'.tokenType = true

theorem quiet_emit {h : H5} {type : TokenType} {start n pos : ℕ} {state : State} (hstate : quietState state = true)
    (htype : quietType type = true) : Quiet h.s (h.emit type start n pos state) := by
  intro h' hr
  obtain ⟨-, rfl⟩ := Prod.mk.inj (Option.some.inj hr)
  exact ⟨rfl, hstate, htype⟩

theorem quiet_emitRest {h : H5} {type : TokenType} {pos : ℕ} (htype : quietType type = true) :
    Quiet h.s (h.emitRest type pos) := by
  intro h' hr
  obtain ⟨n, -, hr⟩ := Option.bind_eq_some_iff.mp hr
  exact quiet_emit rfl htype h' hr

theorem quiet_false (s : Bytes) (h : H5) : Quiet s (some (.false, h)) := by
  intro h' hr
  cases (Prod.mk.inj (Option.some.inj hr)).1

theorem quiet_bind {α : Type} {s : Bytes} {x : Option α} {f : α → Next} (hf : ∀ a, x = some a → Quiet s (f a)) :
    Quiet s (x.bind f) := by
  intro h' hr
  obtain ⟨a, ha, hr⟩ := Option.bind_eq_some_iff.mp hr
  exact hf a ha h' hr

theorem skipWhite_mem {h : H5} {c : UInt8} (hc : (h.skipWhite k).1 = some c) : c ∈ h.s := by
  unfold skipWhite at hc
  split at hc
  · cases hc
  · next pos ch hscan =>
      obtain ⟨-, -, hget, -⟩ := scan_eq_some hscan
      simp only at hc
      split_ifs at hc
      rw [← Option.some.inj hc]
      exact List.mem_of_getElem? hget

theorem skipWhite_same (h : H5) : (h.skipWhite k).2.s = h.s := by
  unfold skipWhite
  split <;> rfl

section Plain

variable {s : Bytes} (hlt : CHAR_LT ∉ s) (heq : CHAR_EQUALS ∉ s)

include hlt in
theorem quiet_data {h : H5} (hs : h.s = s) : ∀ fuel, Quiet s (data fuel h)
  | 0 => fun _ hr => by cases hr
  | fuel + 1 => by
      unfold data
      split_ifs
      · intro h' hr
        cases (Prod.mk.inj (Option.some.inj hr)).1
      · refine quiet_bind fun r hr => ?_
        cases r with
        | none =>
            refine quiet_bind fun n _ => ?_
            split_ifs
            · exact quiet_false _ _
            · intro h' hr
              obtain ⟨-, rfl⟩ := Prod.mk.inj (Option.some.inj hr)
              exact ⟨hs, rfl, rfl⟩
        | some idx =>
            obtain ⟨-, -, hget⟩ := memchr_eq_some hr
            exact absurd (hs ▸ List.mem_of_getElem? hget) hlt

include heq in
theorem quiet_attributeName {h : H5} (hs : h.s = s) : Quiet s h.attributeName := by
  subst hs
  unfold attributeName
  split
  · exact quiet_emitRest rfl
  · next pos ch hscan =>
      obtain ⟨-, -, hget, -⟩ := scan_eq_some hscan
      have hne : ch ≠ CHAR_EQUALS := fun he => heq (he ▸ List.mem_of_getElem? hget)
      rw [if_neg hne]
      split_ifs
      · exact quiet_emit rfl rfl
      · exact quiet_emit rfl rfl
      · exact quiet_emit rfl rfl

include heq in
theorem quiet_attribute_cycle (fuel : ℕ) :
    (∀ h : H5, h.s = s → Quiet s (beforeAttributeName k fuel h)) ∧
    (∀ h : H5, h.s = s → Quiet s (selfClosingStartTag k fuel h)) := by
  induction fuel with
  | zero => exact ⟨fun _ _ _ hr => (by cases hr), fun _ _ _ hr => (by cases hr)⟩
  | succ fuel ih =>
      obtain ⟨ihbefore, ihself⟩ := ih
      refine ⟨fun h hs => ?_, fun h hs => ?_⟩
      · have hsame : (h.skipWhite k).2.s = s := (skipWhite_same h).trans hs
        unfold beforeAttributeName
        simp only
        split
        · exact quiet_false _ _
        · split_ifs
          · refine quiet_bind fun b _ => ?_
            split_ifs
            · exact ihbefore _ hsame
            · exact ihself _ hsame
          · exact hsame ▸ quiet_emit rfl rfl
          · exact quiet_attributeName heq hsame
      · unfold selfClosingStartTag
        split_ifs
        · exact quiet_false _ _
        · refine quiet_bind fun ch _ => ?_
          split_ifs
          · exact quiet_bind fun start _ => hs ▸ quiet_emit rfl rfl
          · exact ihbefore h hs

include heq in
theorem quiet_afterAttributeName {h : H5} (hs : h.s = s) (fuel : ℕ) : Quiet s (h.afterAttributeName k fuel) := by
  have hsame : (h.skipWhite k).2.s = s := (skipWhite_same h).trans hs
  unfold afterAttributeName
  simp only
  split
  · exact quiet_false _ _
  · next c hc =>
      have hne : c ≠ CHAR_EQUALS := fun he => heq (he ▸ hs ▸ skipWhite_mem hc)
      rw [if_neg hne]
      split_ifs
      · exact (quiet_attribute_cycle heq fuel).2 _ hsame
      · refine hsame ▸ quiet_emit ?_ rfl
        split_ifs <;> rfl
      · exact quiet_attributeName heq hsame

include hlt heq in
theorem quiet_next {h : H5} (hs : h.s = s) (hstate : quietState h.state = true) : Quiet s (h.next k) := by
  obtain ⟨hbefore, hself⟩ := quiet_attribute_cycle (k := k) heq (2 * h.len + 4)
  unfold next
  cases hst : h.state <;> rw [hst] at hstate <;> simp only [quietState, Bool.false_eq_true] at hstate <;> simp only
  case eof => exact quiet_false _ _
  case data => exact quiet_data hlt hs _
  case tagNameClose =>
    refine hs ▸ quiet_emit ?_ rfl
    split_ifs <;> rfl
  case selfClosingStartTag => exact hself h hs
  case beforeAttributeName => exact hbefore h hs
  case afterAttributeName => exact quiet_afterAttributeName heq hs _
  case afterAttributeValueQuoted =>
    unfold afterAttributeValueQuoted
    split_ifs
    · exact quiet_false _ _
    · refine quiet_bind fun ch _ => ?_
      split_ifs
      · exact hbefore _ hs
      · exact hself _ hs
      · exact hs ▸ quiet_emit rfl rfl
      · exact hbefore h hs

theorem inspectToken_quiet {attr attr' : Attribute} {type : TokenType} {token : Bytes} {reported : Bool}
    (htype : quietType type = true) (h : inspectToken attr type token = some (reported, attr')) : reported = false := by
  unfold inspectToken at h
  split at h
  all_goals first
    | exact absurd htype (by decide)
    | exact (Prod.mk.inj (Option.some.inj h)).1.symm

include hlt heq in
theorem isXssLoop_quiet : ∀ (fuel : ℕ) (attr : Attribute) {h : H5}, h.s = s → quietState h.state = true →
    isXssLoop k fuel attr h ≠ some .true
  | 0, _, _, _, _ => fun hr => by cases hr
  | fuel + 1, attr, h, hs, hstate => by
      intro hr
      unfold isXssLoop at hr
      obtain ⟨⟨result, h'⟩, hnext, hr⟩ := Option.bind_eq_some_iff.mp hr
      simp only at hr
      split_ifs at hr with hresult
      · exact hresult (Option.some.inj hr)
      · obtain rfl : result = .true := not_not.mp hresult
        obtain ⟨hs', hstate', htype⟩ := quiet_next hlt heq hs hstate h' hnext
        obtain ⟨token, -, hr⟩ := Option.bind_eq_some_iff.mp hr
        obtain ⟨⟨reported, attr'⟩, hinspect, hr⟩ := Option.bind_eq_some_iff.mp hr
        rw [inspectToken_quiet htype hinspect] at hr
        exact isXssLoop_quiet fuel attr' hs' hstate' hr

include hlt heq in
/-- From the inside of a value, the value is passed over first. -/
theorem isXssLoop_quote {fuel : ℕ} {h : H5} {q : UInt8} (hs : h.s = s)
    (hnext : h.next k = attributeValueQuote q h) : isXssLoop k fuel .none h ≠ some .true := by
  intro hr
  cases fuel with
  | zero => cases hr
  | succ fuel =>
      unfold isXssLoop at hr
      obtain ⟨⟨result, h'⟩, hcall, hr⟩ := Option.bind_eq_some_iff.mp hr
      have hvalue : h'.s = s ∧ quietState h'.state = true ∧ h'.tokenType = .attrValue := by
        rw [hnext] at hcall
        unfold attributeValueQuote at hcall
        obtain ⟨r, -, hcall⟩ := Option.bind_eq_some_iff.mp hcall
        cases r with
        | none =>
            obtain ⟨n, -, hcall⟩ := Option.bind_eq_some_iff.mp hcall
            obtain ⟨-, rfl⟩ := Prod.mk.inj (Option.some.inj hcall)
            split_ifs <;> exact ⟨hs, rfl, rfl⟩
        | some idx =>
            obtain ⟨-, rfl⟩ := Prod.mk.inj (Option.some.inj hcall)
            split_ifs <;> exact ⟨hs, rfl, rfl⟩
      obtain ⟨hs', hstate', htype⟩ := hvalue
      simp only at hr
      split_ifs at hr with hresult
      · exact hresult (Option.some.inj hr)
      · obtain ⟨token, -, hr⟩ := Option.bind_eq_some_iff.mp hr
        rw [htype] at hr
        exact isXssLoop_quiet hlt heq fuel .none hs' hstate' hr

end Plain

/-- Wherever one looks at it, an input without `<` and `=` is not reported. -/
theorem not_isXssIn_of_plain (k : Bool) {s : Bytes} (hlt : CHAR_LT ∉ s) (heq : CHAR_EQUALS ∉ s) (flags : Flags) :
    isXssIn k s flags ≠ some .true := by
  intro hr
  cases flags with
  | dataState => exact isXssLoop_quiet hlt heq _ _ rfl rfl hr
  | valueNoQuote => exact isXssLoop_quiet hlt heq _ _ rfl rfl hr
  | valueSingleQuote => exact isXssLoop_quote hlt heq rfl rfl hr
  | valueDoubleQuote => exact isXssLoop_quote hlt heq rfl rfl hr
  | valueBackQuote => exact isXssLoop_quote hlt heq rfl rfl hr

/-- **An input without `<` and `=` is passed**, from wherever one looks at it. -/
theorem isXss_of_plain (k : Bool) {s : Bytes} (hlt : CHAR_LT ∉ s) (heq : CHAR_EQUALS ∉ s) : isXss k s = false := by
  rw [← Bool.not_eq_true, isXss_iff]
  rintro ⟨flags, hr⟩
  exact not_isXssIn_of_plain k hlt heq flags hr

theorem isXss_of_plain_text : isXss true (ascii "a 'quoted' > text/with `ticks`") = false :=
  isXss_of_plain true (by decide) (by decide)

/-! ### The byte that ends the scan -/

theorem isXssLoop_of_false {h h' : H5} (hnext : h.next k = some (.false, h')) (fuel : ℕ) (attr : Attribute) :
    isXssLoop k (fuel + 1) attr h = some .false := by
  rw [isXssLoop, hnext]
  rfl

/-- Between two attributes a signed 0xFF is taken for the end. -/
theorem ends_of_eof_byte {h : H5} {u ws rest : Bytes} {attr : Attribute} (hs : h.s = u ++ (ws ++ 0xFF :: rest))
    (hpos : h.pos = u.length) (hws : ∀ w ∈ ws, isWhite w = true)
    (hstate : h.state = .beforeAttributeName ∨ h.state = .afterAttributeName) : Ends true .false attr h := by
  have hskip := skipWhite_append (k := true) hs hpos hws (by decide)
  obtain ⟨h', hnext⟩ : ∃ h', h.next true = some (.false, h') := by
    rcases hstate with hstate | hstate
    · exact ⟨_, by simp only [next, hstate, beforeAttributeName, hskip]; rfl⟩
    · exact ⟨_, by simp only [next, hstate, afterAttributeName, hskip]; rfl⟩
  exact ⟨1, isXssLoop_of_false hnext 0 attr⟩

/-- From the inside of a value that is never closed, there is only the value. -/
theorem ends_of_unclosed {s : Bytes} {flags : Flags} {q : UInt8} (hq : q ∉ s)
    (hnext : (H5.init s flags).next k = attributeValueQuote q (H5.init s flags)) :
    Ends k .false .none (H5.init s flags) := by
  have hfind : memchr s 0 q = some none := memchr_rest (u := []) hq
  have hands : Hands ((H5.init s flags).next k) .attrValue s { H5.init s flags with
      tokenType := .attrValue, tokenStart := 0, tokenLen := s.length, pos := 0, state := .eof } := by
    rw [hnext]
    unfold attributeValueQuote
    simp only [H5.init, Nat.lt_irrefl, if_false, hfind, Option.bind_eq_bind, Option.bind_some]
    exact hands_emitRest (u := []) rfl rfl
  exact hands.ends_of_rest (a := .none) rfl ⟨1, isXssLoop_of_false rfl 0 .none⟩

theorem isLetter_ne {c : UInt8} (hc : isLetter c = true) : isWhite c = false ∧ c ≠ CHAR_SLASH ∧ c ≠ CHAR_EQUALS ∧
    c ≠ CHAR_GT ∧ c ≠ CHAR_LT := by
  have hname := endsTagName_letter hc
  have hnonzero : c ≠ 0 := by
    rintro rfl
    exact absurd hc (by decide)
  unfold endsTagName at hname
  rw [bne_iff_ne.mpr hnonzero, Bool.true_and, Bool.or_eq_false_iff, Bool.or_eq_false_iff] at hname
  obtain ⟨⟨hwhite, hslash⟩, hgt⟩ := hname
  refine ⟨hwhite, beq_eq_false_iff_ne.mp hslash, ?_, beq_eq_false_iff_ne.mp hgt, ?_⟩ <;>
  · rintro rfl
    exact absurd hc (by decide)

/-- **A byte that hides what follows.**  Where `char` is signed, an input that opens a harmless tag
and has a byte 0xFF in the place of its first attribute is passed, whatever stands behind that
byte, as long as it has no quotes. -/
theorem isXss_of_eof_byte {name ws rest : Bytes} {w : UInt8} (hne : name ≠ [])
    (hletters : ∀ c ∈ name, isLetter c = true)
    (hharmless : isBlackTag name = false) (hw : endsTagName w = true ∧ isWhite w = true)
    (hws : ∀ w ∈ ws, isWhite w = true)
    (hquotes : CHAR_SINGLE ∉ rest ∧ CHAR_DOUBLE ∉ rest ∧ CHAR_TICK ∉ rest) :
    isXss true (CHAR_LT :: (name ++ w :: (ws ++ 0xFF :: rest))) = false := by
  have hquote : ∀ q, isLetter q = false → isWhite q = false → q ≠ CHAR_LT → q ≠ 0xFF → q ∉ rest →
      q ∉ CHAR_LT :: (name ++ w :: (ws ++ 0xFF :: rest)) := by
    intro q hletter hwhite hlt hff hrest hmem
    simp only [List.mem_cons, List.mem_append] at hmem
    rcases hmem with rfl | hmem | rfl | hmem | rfl | hmem
    · exact hlt rfl
    · rw [hletters q hmem] at hletter
      cases hletter
    · rw [hw.2] at hwhite
      cases hwhite
    · rw [hws q hmem] at hwhite
      cases hwhite
    · exact hff rfl
    · exact hrest hmem
  obtain ⟨hsingle, hdouble, htick⟩ := hquotes
  rw [← Bool.not_eq_true, isXss_iff]
  rintro ⟨flags, hr⟩
  have hends : Ends true .false .none (H5.init (CHAR_LT :: (name ++ w :: (ws ++ 0xFF :: rest))) flags) := by
    cases flags with
    | valueSingleQuote =>
        exact ends_of_unclosed (hquote _ (by decide) (by decide) (by decide) (by decide) hsingle) rfl
    | valueDoubleQuote =>
        exact ends_of_unclosed (hquote _ (by decide) (by decide) (by decide) (by decide) hdouble) rfl
    | valueBackQuote =>
        exact ends_of_unclosed (hquote _ (by decide) (by decide) (by decide) (by decide) htick) rfl
    | dataState =>
        obtain ⟨c, name, rfl⟩ := List.exists_cons_of_ne_nil hne
        refine ends_of_text (p := []) rfl (by simp) (Or.inl (hletters c List.mem_cons_self)) fun h hs hpos _ hnext => ?_
        have hs' : h.s = [CHAR_LT] ++ ((c :: name) ++ w :: (ws ++ 0xFF :: rest)) := hs
        have hands := hands_tagName_white hs' (by rw [hpos]; rfl)
          (fun d hd => endsTagName_letter (hletters d hd)) hw.1 hw.2
        rw [← hnext] at hands
        apply hands.ends_of_rest (a := .none) (by rw [inspectToken, hharmless])
        have hs2 : h.s = ([CHAR_LT] ++ (c :: name) ++ [w]) ++ (ws ++ 0xFF :: rest) := hs'.trans (by simp)
        refine ends_of_eof_byte (u := [CHAR_LT] ++ (c :: name) ++ [w]) hs2 ?_ hws (Or.inl rfl)
        · simp only [List.length_append, List.length_cons, List.length_nil]
    | valueNoQuote =>
        have hs : (H5.init (CHAR_LT :: (name ++ w :: (ws ++ 0xFF :: rest))) .valueNoQuote).s =
            [] ++ ((CHAR_LT :: name) ++ w :: (ws ++ 0xFF :: rest)) := rfl
        have hseen : (H5.init (CHAR_LT :: (name ++ w :: (ws ++ 0xFF :: rest))) .valueNoQuote).s =
            [] ++ ([] ++ CHAR_LT :: (name ++ w :: (ws ++ 0xFF :: rest))) := rfl
        have hskip := skipWhite_seen (k := true) hseen rfl (by simp) ⟨by decide, by decide⟩
        have hname : ∀ c ∈ name, endsAttributeName c = false := by
          intro c hc
          obtain ⟨h1, h2, h3, h4, -⟩ := isLetter_ne (hletters c hc)
          unfold endsAttributeName
          rw [h1, beq_eq_false_iff_ne.mpr h2, beq_eq_false_iff_ne.mpr h3, beq_eq_false_iff_ne.mpr h4]
          rfl
        have hwends : endsAttributeName w = true := by
          unfold endsAttributeName
          rw [hw.2]
          rfl
        have hscan := scan_append (u := [CHAR_LT]) (ws ++ 0xFF :: rest) hname hwends
        have hands : Hands ((H5.init (CHAR_LT :: (name ++ w :: (ws ++ 0xFF :: rest))) .valueNoQuote).next true)
            .attrName (CHAR_LT :: name) { H5.init (CHAR_LT :: (name ++ w :: (ws ++ 0xFF :: rest))) .valueNoQuote with
              tokenType := .attrName, tokenStart := 0, tokenLen := (CHAR_LT :: name).length,
              pos := 1 + name.length + 1, state := .afterAttributeName } := by
          unfold next
          simp only [H5.init, beforeAttributeName] at hskip hscan ⊢
          rw [hskip]
          simp only [if_neg (by decide : CHAR_LT ≠ CHAR_SLASH), if_neg (by decide : CHAR_LT ≠ CHAR_GT)]
          unfold attributeName
          simp only [List.length_nil, List.length_cons, Nat.zero_add, List.singleton_append] at hscan ⊢
          rw [hscan]
          simp only [hw.2, if_true, Nat.sub_zero, Nat.add_comm 1]
          exact hands_emit (u := []) hs
        apply hands.ends_of_rest (a := isBlackAttr (CHAR_LT :: name)) rfl
        have hs2 : (H5.init (CHAR_LT :: (name ++ w :: (ws ++ 0xFF :: rest))) .valueNoQuote).s =
            (CHAR_LT :: name ++ [w]) ++ (ws ++ 0xFF :: rest) := hs.trans (by simp)
        refine ends_of_eof_byte (u := CHAR_LT :: name ++ [w]) hs2 ?_ hws (Or.inr rfl)
        simp only [List.length_append, List.length_cons, List.length_nil]
        omega
  rw [hends.isXssIn_eq] at hr
  cases hr

/-- A script behind the byte is missed; where `char` is unsigned it is found. -/
theorem isXss_of_eof_byte_script :
    isXss true (CHAR_LT :: (ascii "a" ++ 32 :: ([] ++ 0xFF :: ascii "><script>f()</script>"))) = false ∧
      isXss false (CHAR_LT :: (ascii "a" ++ 32 :: ([] ++ 0xFF :: ascii "><script>f()</script>"))) = true :=
  ⟨isXss_of_eof_byte (by decide) (by decide) (by decide) (by decide) (by decide) (by decide), by decide +kernel⟩

end PurpleWolf.Xss
