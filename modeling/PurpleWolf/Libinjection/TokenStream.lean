import PurpleWolf.Libinjection.Html5

/-! # The tokens of an input

What one call of the tokenizer does, whatever the input: it stays inside of it, and the token
that it hands out lies behind the tokens before and leaves less to do.  `Delivers` says so of
the result of a state function, and every state function has one lemma that proves it.

* **Places.**  `ReadyAt` is what holds of the position in each state, `lowAt` where the next
  token may start: a `<` or `/` that has been read already can still become part of a token.
* **Budget.**  `budgetAt` is how many tokens can follow. -/

namespace PurpleWolf.Html5

open Memory

/-- What holds of the position between two calls. -/
def ReadyAt (len pos : ℕ) : State → Prop
  | .tagOpen | .selfClosingStartTag => 1 ≤ pos ∧ pos ≤ len
  | .tagNameClose => pos < len
  | .attributeValueSingleQuote | .attributeValueDoubleQuote | .attributeValueBackQuote => pos = 0
  | _ => pos ≤ len

/-- No later token starts in front of it. -/
def lowAt (pos : ℕ) : State → ℕ
  | .tagOpen | .selfClosingStartTag => pos - 1
  | _ => pos

/-- How many tokens can still come. -/
def budgetAt (len pos : ℕ) : State → ℕ
  | .eof => 0
  | .tagOpen | .beforeAttributeValue => len - pos + 1
  | .attributeValueSingleQuote | .attributeValueDoubleQuote | .attributeValueBackQuote => len - pos + 1
  | _ => len - pos

namespace H5

def Ready (h : H5) : Prop := ReadyAt h.len h.pos h.state

def low (h : H5) : ℕ := lowAt h.pos h.state

def budget (h : H5) : ℕ := budgetAt h.len h.pos h.state

theorem Ready.pos_le {h : H5} (hready : h.Ready) : h.pos ≤ h.len := by
  unfold Ready at hready
  cases hs : h.state <;> rw [hs] at hready <;> simp only [ReadyAt] at hready <;> omega

/-- The token of `h'`, when `h'` follows a state with the input `s`: it lies at `lo` or behind,
fewer than `m` tokens follow it, and all of them behind it. -/
structure Token (s : Bytes) (lo m : ℕ) (h' : H5) : Prop where
  same : h'.s = s
  start : lo ≤ h'.tokenStart
  inside : h'.tokenStart + h'.tokenLen ≤ s.length
  ready : h'.Ready
  behind : h'.state = .eof ∨ h'.tokenStart + h'.tokenLen ≤ h'.low
  fewer : h'.budget < m

/-- A state function has stayed inside of the input, and has found the end of the tokens or a
further one. -/
def Delivers (s : Bytes) (lo m : ℕ) (r : Next) : Prop :=
  ∃ h', r = some (.false, h') ∨ (r = some (.true, h') ∧ Token s lo m h')

theorem Delivers.mono {s : Bytes} {lo lo' m m' : ℕ} {r : Next} (hr : Delivers s lo m r) (hlo : lo' ≤ lo)
    (hm : m ≤ m') : Delivers s lo' m' r := by
  obtain ⟨h', hfalse | ⟨htrue, token⟩⟩ := hr
  · exact ⟨h', Or.inl hfalse⟩
  · exact ⟨h', Or.inr ⟨htrue, { token with start := hlo.trans token.start, fewer := token.fewer.trans_le hm }⟩⟩

theorem delivers_false (s : Bytes) (lo m : ℕ) (h' : H5) : Delivers s lo m (some (.false, h')) := ⟨h', Or.inl rfl⟩

section Emit

variable {h : H5} {lo m : ℕ}

theorem delivers_emit {type : TokenType} {start n pos : ℕ} {state : State} (hlo : lo ≤ start)
    (hin : start + n ≤ h.len) (hready : ReadyAt h.len pos state)
    (hbehind : state = .eof ∨ start + n ≤ lowAt pos state) (hm : budgetAt h.len pos state < m) :
    Delivers h.s lo m (h.emit type start n pos state) :=
  ⟨_, Or.inr ⟨rfl, rfl, hlo, hin, hready, hbehind, hm⟩⟩

theorem delivers_emitRest {type : TokenType} {pos : ℕ} (hlo : lo ≤ h.pos) (hle : h.pos ≤ h.len)
    (hpos : pos ≤ h.len) (hm : 0 < m) : Delivers h.s lo m (h.emitRest type pos) := by
  unfold emitRest
  rw [sizeSub_of_le hle]
  exact delivers_emit hlo (by omega) hpos (Or.inl rfl) hm

end Emit

/-! ### Reading -/

theorem exists_getElem? {h : H5} {i : ℕ} (hi : i < h.len) : ∃ ch, h.s[i]? = some ch :=
  ⟨_, List.getElem?_eq_getElem hi⟩

theorem delivers_memchr {h : H5} {lo m : ℕ} {c : UInt8} {absent : Next} {found : ℕ → Next} {pos : ℕ}
    (hpos : pos ≤ h.len) (habsent : Delivers h.s lo m absent)
    (hfound : ∀ idx, pos ≤ idx → idx < h.len → Delivers h.s lo m (found idx)) :
    Delivers h.s lo m (do match ← memchr h.s pos c with
      | none => absent
      | some idx => found idx) := by
  obtain ⟨r, hr⟩ := memchr_of_le (s := h.s) c hpos
  cases r with
  | none => rw [hr]; exact habsent
  | some idx =>
      obtain ⟨hge, hlt, -⟩ := memchr_eq_some hr
      rw [hr]
      exact hfound idx hge hlt

theorem exists_looksAt {h : H5} (tests : List (UInt8 → Bool)) {i : ℕ} (hi : i + tests.length ≤ h.len) :
    ∃ b, h.looksAt i tests = some b := by
  induction tests generalizing i with
  | nil => exact ⟨true, rfl⟩
  | cons test tests ih =>
      rw [List.length_cons] at hi
      obtain ⟨ch, hch⟩ := h.exists_getElem? (i := i) (by omega)
      obtain ⟨b, hb⟩ := ih (i := i + 1) (by omega)
      unfold looksAt
      rw [hch]
      simp only [Option.bind_eq_bind, Option.bind_some, hb]
      split_ifs
      · exact ⟨b, rfl⟩
      · exact ⟨false, rfl⟩

theorem exists_startsWith (h : H5) {n : ℕ} (tests : List (UInt8 → Bool)) (hn : tests.length = n) :
    ∃ b, h.startsWith (h.len - h.pos) n tests = some b ∧ (b = true → n ≤ h.len - h.pos) := by
  unfold startsWith
  by_cases hremaining : n ≤ h.len - h.pos
  · by_cases hzero : n = 0
    · exact ⟨true, by rw [if_pos hremaining, List.length_eq_zero_iff.mp (hn.trans hzero)]; rfl, fun _ => hremaining⟩
    · obtain ⟨b, hb⟩ := h.exists_looksAt tests (i := h.pos) (by omega)
      exact ⟨b, by rw [if_pos hremaining, hb], fun _ => hremaining⟩
  · exact ⟨false, if_neg hremaining, fun hf => by cases hf⟩

/-! ### Comments and declarations -/

section Comments

variable {h : H5} {lo m : ℕ} (hlo : lo ≤ h.pos) (hle : h.pos ≤ h.len) (hm : h.len - h.pos < m)

include hlo hle hm

theorem delivers_bogusComment : Delivers h.s lo m h.bogusComment := by
  refine delivers_memchr hle (delivers_emitRest hlo hle le_rfl (by omega)) fun idx hge hlt => ?_
  refine delivers_emit hlo (by omega) ?_ (Or.inr ?_) ?_
  all_goals simp only [ReadyAt, lowAt, budgetAt]; omega

theorem delivers_bogusComment2Loop : ∀ (fuel pos : ℕ), h.pos ≤ pos → pos ≤ h.len → h.len - pos < fuel →
    Delivers h.s lo m (h.bogusComment2Loop fuel pos)
  | 0, pos, _, _, hfuel => absurd hfuel (Nat.not_lt_zero _)
  | fuel + 1, pos, hge, hpos, hfuel => by
      have hrest : Delivers h.s lo m (h.emitRest .tagComment h.len) := delivers_emitRest hlo hle le_rfl (by omega)
      refine delivers_memchr hpos hrest fun idx hidx hlt => ?_
      by_cases hend : h.len ≤ idx + 1
      · rw [if_pos hend]
        exact hrest
      · obtain ⟨ch, hch⟩ := h.exists_getElem? (i := idx + 1) (by omega)
        rw [if_neg hend, hch]
        simp only [Option.bind_eq_bind, Option.bind_some]
        split_ifs
        · exact delivers_bogusComment2Loop fuel (idx + 1) (by omega) (by omega) (by omega)
        · refine delivers_emit hlo (by omega) ?_ (Or.inr ?_) ?_
          all_goals simp only [ReadyAt, lowAt, budgetAt]; omega

theorem delivers_bogusComment2 : Delivers h.s lo m h.bogusComment2 :=
  delivers_bogusComment2Loop hlo hle hm _ _ le_rfl hle (by omega)

theorem delivers_commentLoop : ∀ (fuel pos : ℕ), h.pos ≤ pos → pos ≤ h.len → h.len - pos < fuel →
    Delivers h.s lo m (h.commentLoop fuel pos)
  | 0, pos, _, _, hfuel => absurd hfuel (Nat.not_lt_zero _)
  | fuel + 1, pos, hge, hpos, hfuel => by
      have hrest : Delivers h.s lo m (h.emitRest .tagComment h.pos) := delivers_emitRest hlo hle hle (by omega)
      refine delivers_memchr hpos hrest fun idx hidx hlt => ?_
      by_cases hshort : h.len < idx + 3
      · rw [if_pos hshort]
        exact hrest
      · rw [if_neg hshort]
        have hagain := delivers_commentLoop fuel (idx + 1) (by omega) (by omega) (by omega)
        split
        · exact hrest
        · next j ch hscan =>
            obtain ⟨hj, hjlt, -⟩ := scan_eq_some hscan
            have hjlt : j < h.len := hjlt
            split_ifs with hdash hend
            · exact hagain
            · exact hrest
            · obtain ⟨ch, hch⟩ := h.exists_getElem? (i := j + 1) (by omega)
              rw [hch]
              simp only [Option.bind_eq_bind, Option.bind_some]
              split_ifs
              · exact hagain
              · refine delivers_emit hlo (by omega) ?_ (Or.inr ?_) ?_
                all_goals simp only [ReadyAt, lowAt, budgetAt]; omega

theorem delivers_comment : Delivers h.s lo m h.comment :=
  delivers_commentLoop hlo hle hm _ _ le_rfl hle (by omega)

theorem delivers_cdataLoop : ∀ (fuel pos : ℕ), h.pos ≤ pos → pos ≤ h.len → h.len - pos < fuel →
    Delivers h.s lo m (h.cdataLoop fuel pos)
  | 0, pos, _, _, hfuel => absurd hfuel (Nat.not_lt_zero _)
  | fuel + 1, pos, hge, hpos, hfuel => by
      have hrest : Delivers h.s lo m (h.emitRest .dataText h.pos) := delivers_emitRest hlo hle hle (by omega)
      refine delivers_memchr hpos hrest fun idx hidx hlt => ?_
      by_cases hshort : h.len < idx + 3
      · rw [if_pos hshort]
        exact hrest
      · obtain ⟨ch1, hch1⟩ := h.exists_getElem? (i := idx + 1) (by omega)
        obtain ⟨ch2, hch2⟩ := h.exists_getElem? (i := idx + 2) (by omega)
        rw [if_neg hshort, hch1, hch2]
        simp only [Option.bind_eq_bind, Option.bind_some]
        split_ifs
        · refine delivers_emit hlo (by omega) ?_ (Or.inr ?_) ?_
          all_goals simp only [ReadyAt, lowAt, budgetAt]; omega
        · exact delivers_cdataLoop fuel (idx + 1) (by omega) (by omega) (by omega)

theorem delivers_cdata : Delivers h.s lo m h.cdata :=
  delivers_cdataLoop hlo hle hm _ _ le_rfl hle (by omega)

theorem delivers_doctype : Delivers h.s lo m h.doctype := by
  refine delivers_memchr hle (delivers_emitRest hlo hle hle (by omega)) fun idx hge hlt => ?_
  refine delivers_emit hlo (by omega) ?_ (Or.inr ?_) ?_
  all_goals simp only [ReadyAt, lowAt, budgetAt]; omega

theorem delivers_markupDeclarationOpen : Delivers h.s lo m h.markupDeclarationOpen := by
  obtain ⟨b1, h1, -⟩ := h.exists_startsWith DOCTYPE_TESTS rfl
  obtain ⟨b2, h2, hcdata⟩ := h.exists_startsWith CDATA_TESTS rfl
  obtain ⟨b3, h3, hdashes⟩ := h.exists_startsWith DASHES_TESTS rfl
  unfold markupDeclarationOpen
  rw [sizeSub_of_le hle]
  simp only [Option.bind_eq_bind, Option.bind_some]
  rw [show h.startsWith (h.len - h.pos) 7 DOCTYPE_TESTS = some b1 from h1,
    show h.startsWith (h.len - h.pos) 7 CDATA_TESTS = some b2 from h2,
    show h.startsWith (h.len - h.pos) 2 DASHES_TESTS = some b3 from h3]
  simp only [Option.bind_some]
  split_ifs with hb1 hb2 hb3
  · exact delivers_doctype hlo hle hm
  · have hlen : 7 ≤ h.len - h.pos := hcdata hb2
    exact delivers_cdata (h := { h with pos := h.pos + 7 }) (hlo.trans (Nat.le_add_right _ _))
      (show h.pos + 7 ≤ h.len by omega) (show h.len - (h.pos + 7) < m by omega)
  · have hlen : 2 ≤ h.len - h.pos := hdashes hb3
    exact delivers_comment (h := { h with pos := h.pos + 2 }) (hlo.trans (Nat.le_add_right _ _))
      (show h.pos + 2 ≤ h.len by omega) (show h.len - (h.pos + 2) < m by omega)
  · exact delivers_bogusComment hlo hle hm

end Comments

/-! ### Tags -/

theorem delivers_tagNameClose {h : H5} {lo m : ℕ} (hlo : lo ≤ h.pos) (hlt : h.pos < h.len) (hm : h.len - h.pos ≤ m) :
    Delivers h.s lo m h.tagNameClose := by
  unfold tagNameClose
  split_ifs with hend
  · refine delivers_emit (h := { h with isClose := false }) hlo hlt ?_ (Or.inr ?_) ?_
    all_goals simp only [ReadyAt, lowAt, budgetAt, len] at *; omega
  · refine delivers_emit (h := { h with isClose := false }) hlo hlt ?_ (Or.inl rfl) ?_
    all_goals simp only [ReadyAt, budgetAt, len] at *; omega

/-- A tag name starts with a character that does not end it. -/
theorem delivers_tagName {h : H5} {lo m : ℕ} {ch : UInt8} (hlo : lo ≤ h.pos) (hch : h.s[h.pos]? = some ch)
    (hname : endsTagName ch = false) (hm : h.len - h.pos ≤ m) : Delivers h.s lo m h.tagName := by
  have hlt : h.pos < h.len := (List.getElem?_eq_some_iff.mp hch).1
  unfold tagName
  split
  · exact delivers_emitRest hlo hlt.le hlt.le (by omega)
  · next pos ch' hscan =>
      obtain ⟨hle, hpos, hget, hends, -⟩ := scan_eq_some hscan
      have hpos : pos < h.len := hpos
      have hne : h.pos ≠ pos := by
        rintro rfl
        rw [Option.some.inj (hget.symm.trans hch), hname] at hends
        cases hends
      split_ifs
      · refine delivers_emit hlo (by omega) ?_ (Or.inr ?_) ?_
        all_goals simp only [ReadyAt, lowAt, budgetAt]; omega
      · refine delivers_emit hlo (by omega) ?_ (Or.inr ?_) ?_
        all_goals simp only [ReadyAt, lowAt, budgetAt]; omega
      · refine delivers_emit (h := { h with isClose := false }) hlo ?_ ?_ (Or.inr ?_) ?_
        all_goals simp only [ReadyAt, lowAt, budgetAt, len] at *; omega
      · refine delivers_emit hlo (by omega) ?_ (Or.inr ?_) ?_
        all_goals simp only [ReadyAt, lowAt, budgetAt]; omega

theorem endsTagName_letter {ch : UInt8} (h : isLetter ch = true) : endsTagName ch = false := by
  unfold isLetter at h
  unfold endsTagName isWhite CHAR_SLASH CHAR_GT
  simp only [Bool.or_eq_true, Bool.and_eq_true, decide_eq_true_eq, UInt8.le_iff_toNat_le] at h
  simp only [Bool.and_eq_false_iff, Bool.or_eq_false_iff, beq_eq_false_iff_ne, ne_eq, UInt8.ext_iff,
    List.contains_cons, List.contains_nil]
  right
  rcases h with h | h <;> simp at h ⊢ <;> omega

/-- `data`, `tagOpen` and `endTagOpen` call each other; each turn of the cycle passes a `<`. -/
theorem delivers_data_cycle (fuel : ℕ) :
    (∀ h : H5, h.pos ≤ h.len → 2 * (h.len - h.pos) < fuel → Delivers h.s h.pos (h.len - h.pos) (data fuel h)) ∧
    (∀ h : H5, 1 ≤ h.pos → h.pos ≤ h.len → 2 * (h.len - h.pos) + 1 < fuel →
      Delivers h.s (h.pos - 1) (h.len - h.pos + 1) (tagOpen fuel h)) ∧
    (∀ h : H5, h.pos ≤ h.len → 2 * (h.len - h.pos) + 1 < fuel →
      Delivers h.s h.pos (h.len - h.pos + 1) (endTagOpen fuel h)) := by
  induction fuel with
  | zero => exact ⟨fun _ _ hf => by omega, fun _ _ _ hf => by omega, fun _ _ hf => by omega⟩
  | succ fuel ih =>
      obtain ⟨ihdata, ihtag, ihend⟩ := ih
      refine ⟨fun h hle hfuel => ?_, fun h hge hle hfuel => ?_, fun h hle hfuel => ?_⟩
      · unfold data
        rw [if_neg (by omega)]
        refine delivers_memchr hle ?_ fun idx hidx hlt => ?_
        · rw [sizeSub_of_le hle]
          simp only [Option.bind_eq_bind, Option.bind_some]
          split_ifs with hn
          · exact delivers_false _ _ _ _
          · refine delivers_emit le_rfl (by omega) hle (Or.inl rfl) ?_
            simp only [budgetAt]
            omega
        · simp only
          split_ifs with hn
          · refine (ihtag { h with
              tokenStart := h.pos, tokenType := .dataText, tokenLen := idx - h.pos, pos := idx + 1,
              state := .tagOpen } ?_ ?_ ?_).mono ?_ ?_
            all_goals simp only [len] at *; omega
          · refine delivers_emit le_rfl (by omega) ?_ (Or.inr ?_) ?_
            all_goals simp only [ReadyAt, lowAt, budgetAt]; omega
      · have hzero : ¬ h.pos = 0 := by omega
        unfold tagOpen
        simp only [if_neg hzero]
        split_ifs with hend
        · exact delivers_false _ _ _ _
        · obtain ⟨ch, hch⟩ := h.exists_getElem? (i := h.pos) (by omega)
          rw [hch]
          simp only [Option.bind_eq_bind, Option.bind_some]
          have hstep : h.pos + 1 ≤ h.len := by omega
          split_ifs with h1 h2 h3 h4 h5 h6
          · exact delivers_markupDeclarationOpen (h := { h with pos := h.pos + 1 }) (by simp only; omega) hstep
              (by simp only [len] at *; omega)
          · exact (ihend { h with pos := h.pos + 1, isClose := true } hstep (by simp only [len] at *; omega)).mono
              (by simp only; omega) (by simp only [len] at *; omega)
          · exact delivers_bogusComment (h := { h with pos := h.pos + 1 }) (by simp only; omega) hstep
              (by simp only [len] at *; omega)
          · exact delivers_bogusComment2 (h := { h with pos := h.pos + 1 }) (by simp only; omega) hstep
              (by simp only [len] at *; omega)
          · exact delivers_tagName (by omega) hch (endsTagName_letter h5) (by omega)
          · exact delivers_tagName (by omega) hch (by rw [h6]; rfl) (by omega)
          · rw [sizeSub_of_le hge]
            refine delivers_emit le_rfl (by omega) hle (Or.inr ?_) ?_
            all_goals simp only [lowAt, budgetAt]; omega
      · unfold endTagOpen
        split_ifs with hend
        · exact delivers_false _ _ _ _
        · obtain ⟨ch, hch⟩ := h.exists_getElem? (i := h.pos) (by omega)
          rw [hch]
          simp only [Option.bind_eq_bind, Option.bind_some]
          split_ifs with h1 h2
          · exact (ihdata h hle (by omega)).mono le_rfl (by omega)
          · exact delivers_tagName le_rfl hch (endsTagName_letter h2) (by omega)
          · exact delivers_bogusComment (h := { h with isClose := false }) le_rfl hle (by simp only [len] at *; omega)

/-! ### Attributes -/

section Attributes

variable (signedChar : Bool)

theorem skipWhite_spec {h : H5} (hle : h.pos ≤ h.len) :
    ∃ pos, h.pos ≤ pos ∧ pos ≤ h.len ∧ (h.skipWhite signedChar).2 = { h with pos := pos } ∧
      ∀ ch, (h.skipWhite signedChar).1 = some ch → h.s[pos]? = some ch ∧ isWhite ch = false := by
  unfold skipWhite
  split
  · exact ⟨h.len, hle, le_rfl, by rw [Nat.max_eq_right hle], fun ch hch => by cases hch⟩
  · next pos ch hscan =>
      obtain ⟨hge, hlt, hget, hwhite, -⟩ := scan_eq_some hscan
      refine ⟨pos, hge, Nat.le_of_lt hlt, rfl, fun ch' hch' => ?_⟩
      simp only at hch'
      split_ifs at hch'
      rw [← Option.some.inj hch']
      exact ⟨hget, by simpa using hwhite⟩

theorem delivers_attributeName {h : H5} {lo m : ℕ} (hlo : lo ≤ h.pos) (hlt : h.pos < h.len) (hm : h.len - h.pos ≤ m) :
    Delivers h.s lo m h.attributeName := by
  unfold attributeName
  split
  · exact delivers_emitRest hlo hlt.le le_rfl (by omega)
  · next pos ch hscan =>
      obtain ⟨hge, hpos, -⟩ := scan_eq_some hscan
      have hpos : pos < h.len := hpos
      split_ifs
      all_goals
        refine delivers_emit hlo (by omega) ?_ (Or.inr ?_) ?_
        all_goals simp only [ReadyAt, lowAt, budgetAt]; omega

theorem exists_goesOn (h : H5) : ∃ b, h.goesOn = some b := by
  unfold goesOn
  split_ifs with hlt
  · obtain ⟨ch, hch⟩ := exists_getElem? hlt
    exact ⟨ch != CHAR_GT, by rw [hch]; rfl⟩
  · exact ⟨false, rfl⟩

/-- `beforeAttributeName` and `selfClosingStartTag` call each other; each turn passes a `/`. -/
theorem delivers_attribute_cycle (fuel : ℕ) :
    (∀ h : H5, h.pos ≤ h.len → 2 * (h.len - h.pos) < fuel →
      Delivers h.s h.pos (h.len - h.pos) (beforeAttributeName signedChar fuel h)) ∧
    (∀ h : H5, 1 ≤ h.pos → h.pos ≤ h.len → 2 * (h.len - h.pos) + 1 < fuel →
      Delivers h.s (h.pos - 1) (h.len - h.pos) (selfClosingStartTag signedChar fuel h)) := by
  induction fuel with
  | zero => exact ⟨fun _ _ hf => by omega, fun _ _ _ hf => by omega⟩
  | succ fuel ih =>
      obtain ⟨ihbefore, ihself⟩ := ih
      refine ⟨fun h hle hfuel => ?_, fun h hge hle hfuel => ?_⟩
      · obtain ⟨pos, hge, hpos, hskip, hread⟩ := skipWhite_spec signedChar hle
        unfold beforeAttributeName
        cases hch : (h.skipWhite signedChar).1 with
        | none =>
            simp only [hch]
            exact delivers_false _ _ _ _
        | some ch =>
            obtain ⟨hget, -⟩ := hread ch hch
            have hlt : pos < h.len := (List.getElem?_eq_some_iff.mp hget).1
            simp only [hch, hskip]
            split_ifs with h1 h2
            · obtain ⟨b, hb⟩ := exists_goesOn { h with pos := pos + 1 }
              rw [hb]
              simp only [Option.bind_eq_bind, Option.bind_some]
              split_ifs
              · refine (ihbefore { h with pos := pos + 1 } ?_ ?_).mono ?_ ?_
                all_goals simp only [len] at *; omega
              · refine (ihself { h with pos := pos + 1 } ?_ ?_ ?_).mono ?_ ?_
                all_goals simp only [len] at *; omega
            · refine delivers_emit (h := { h with pos := pos }) hge ?_ ?_ (Or.inr ?_) ?_
              all_goals simp only [ReadyAt, lowAt, budgetAt, len] at *; omega
            · exact delivers_attributeName (h := { h with pos := pos }) hge hlt (by simp only [len] at *; omega)
      · unfold selfClosingStartTag
        split_ifs with hend
        · exact delivers_false _ _ _ _
        · obtain ⟨ch, hch⟩ := h.exists_getElem? (i := h.pos) (by omega)
          rw [hch]
          simp only [Option.bind_eq_bind, Option.bind_some]
          split_ifs with h1
          · rw [sizeSub_of_le hge]
            refine delivers_emit le_rfl (by omega) ?_ (Or.inr ?_) ?_
            all_goals simp only [ReadyAt, lowAt, budgetAt]; omega
          · exact (ihbefore h hle (by omega)).mono (by omega) le_rfl

/-- The quote is skipped, unless the input starts behind it. -/
theorem delivers_attributeValueQuote {h : H5} {lo m : ℕ} (qchar : UInt8) (hlo : lo ≤ h.pos)
    (hlt : h.pos = 0 ∨ h.pos < h.len) (hm : h.len - h.pos < m) : Delivers h.s lo m (h.attributeValueQuote qchar) := by
  unfold attributeValueQuote
  obtain ⟨pos, hpos, hge, hle⟩ : ∃ pos, (if 0 < h.pos then { h with pos := h.pos + 1 } else h) = { h with pos := pos } ∧
      h.pos ≤ pos ∧ pos ≤ h.len := by
    split_ifs with hzero
    · exact ⟨h.pos + 1, rfl, by omega, by omega⟩
    · exact ⟨h.pos, rfl, le_rfl, by omega⟩
  simp only [hpos]
  refine delivers_memchr (h := { h with pos := pos }) hle
    (delivers_emitRest (h := { h with pos := pos }) (hlo.trans hge) hle hle (by omega)) fun idx hidx hlt' => ?_
  refine delivers_emit (h := { h with pos := pos }) (hlo.trans hge) ?_ ?_ (Or.inr ?_) ?_
  all_goals simp only [ReadyAt, lowAt, budgetAt, len] at *; omega

theorem delivers_attributeValueNoQuote {h : H5} {lo m : ℕ} (hlo : lo ≤ h.pos) (hle : h.pos ≤ h.len)
    (hm : h.len - h.pos < m) : Delivers h.s lo m h.attributeValueNoQuote := by
  unfold attributeValueNoQuote
  split
  · exact delivers_emitRest hlo hle hle (by omega)
  · next pos ch hscan =>
      obtain ⟨hge, hpos, -⟩ := scan_eq_some hscan
      have hpos : pos < h.len := hpos
      split_ifs
      all_goals
        refine delivers_emit hlo (by omega) ?_ (Or.inr ?_) ?_
        all_goals simp only [ReadyAt, lowAt, budgetAt]; omega

theorem delivers_beforeAttributeValue {h : H5} (hle : h.pos ≤ h.len) :
    Delivers h.s h.pos (h.len - h.pos + 1) (h.beforeAttributeValue signedChar) := by
  obtain ⟨pos, hge, hpos, hskip, hread⟩ := skipWhite_spec signedChar hle
  unfold beforeAttributeValue
  cases hch : (h.skipWhite signedChar).1 with
  | none =>
      simp only [hch]
      exact delivers_false _ _ _ _
  | some ch =>
      obtain ⟨hget, -⟩ := hread ch hch
      have hlt : pos < h.len := (List.getElem?_eq_some_iff.mp hget).1
      have hm : h.len - pos < h.len - h.pos + 1 := by omega
      simp only [hch, hskip]
      split_ifs
      · exact delivers_attributeValueQuote (h := { h with pos := pos }) CHAR_DOUBLE hge (Or.inr hlt) hm
      · exact delivers_attributeValueQuote (h := { h with pos := pos }) CHAR_SINGLE hge (Or.inr hlt) hm
      · exact delivers_attributeValueQuote (h := { h with pos := pos }) CHAR_TICK hge (Or.inr hlt) hm
      · exact delivers_attributeValueNoQuote (h := { h with pos := pos }) hge hpos hm

theorem delivers_afterAttributeName {h : H5} {fuel : ℕ} (hle : h.pos ≤ h.len) (hfuel : 2 * h.len < fuel) :
    Delivers h.s h.pos (h.len - h.pos) (h.afterAttributeName signedChar fuel) := by
  obtain ⟨pos, hge, hpos, hskip, hread⟩ := skipWhite_spec signedChar hle
  unfold afterAttributeName
  cases hch : (h.skipWhite signedChar).1 with
  | none =>
      simp only [hch]
      exact delivers_false _ _ _ _
  | some ch =>
      obtain ⟨hget, -⟩ := hread ch hch
      have hlt : pos < h.len := (List.getElem?_eq_some_iff.mp hget).1
      have hm : h.len - pos ≤ h.len - h.pos := by omega
      simp only [hch, hskip]
      split_ifs
      · refine ((delivers_attribute_cycle signedChar fuel).2 { h with pos := pos + 1 } ?_ ?_ ?_).mono ?_ ?_
        all_goals simp only [len] at *; omega
      · refine (delivers_beforeAttributeValue signedChar (h := { h with pos := pos + 1 }) ?_).mono ?_ ?_
        all_goals simp only [len] at *; omega
      · exact delivers_tagNameClose (h := { h with pos := pos }) hge hlt hm
      · exact delivers_attributeName (h := { h with pos := pos }) hge hlt hm

theorem delivers_afterAttributeValueQuoted {h : H5} {fuel : ℕ} (hle : h.pos ≤ h.len) (hfuel : 2 * h.len + 1 < fuel) :
    Delivers h.s h.pos (h.len - h.pos) (h.afterAttributeValueQuoted signedChar fuel) := by
  obtain ⟨hbefore, hself⟩ := delivers_attribute_cycle signedChar fuel
  unfold afterAttributeValueQuoted
  split_ifs with hend
  · exact delivers_false _ _ _ _
  · obtain ⟨ch, hch⟩ := h.exists_getElem? (i := h.pos) (by omega)
    rw [hch]
    simp only [Option.bind_eq_bind, Option.bind_some]
    split_ifs
    · refine (hbefore { h with pos := h.pos + 1 } ?_ ?_).mono ?_ ?_
      all_goals simp only [len] at *; omega
    · refine (hself { h with pos := h.pos + 1 } ?_ ?_ ?_).mono ?_ ?_
      all_goals simp only [len] at *; omega
    · refine delivers_emit le_rfl (by omega) ?_ (Or.inr ?_) ?_
      all_goals simp only [ReadyAt, lowAt, budgetAt]; omega
    · exact hbefore h hle (by omega)

/-- **One call.**  Whatever the input, `libinjection_h5_next` stays inside of it, and either
says that there is no further token, or hands out a token behind the ones before. -/
theorem delivers_next {h : H5} (hready : h.Ready) : Delivers h.s h.low h.budget (h.next signedChar) := by
  have hle := hready.pos_le
  obtain ⟨hdata, htag, -⟩ := delivers_data_cycle (2 * h.len + 4)
  obtain ⟨hbefore, hself⟩ := delivers_attribute_cycle signedChar (2 * h.len + 4)
  unfold Ready at hready
  unfold next low budget
  cases hs : h.state <;> rw [hs] at hready <;> simp only [ReadyAt] at hready <;> simp only [lowAt, budgetAt]
  case eof => exact delivers_false _ _ _ _
  case data => exact hdata h hle (by omega)
  case tagOpen => exact htag h hready.1 hle (by omega)
  case tagNameClose => exact delivers_tagNameClose le_rfl hready le_rfl
  case selfClosingStartTag => exact hself h hready.1 hle (by omega)
  case beforeAttributeName => exact hbefore h hle (by omega)
  case afterAttributeName => exact delivers_afterAttributeName signedChar hle (by omega)
  case beforeAttributeValue => exact delivers_beforeAttributeValue signedChar hle
  case afterAttributeValueQuoted => exact delivers_afterAttributeValueQuoted signedChar hle (by omega)
  case attributeValueSingleQuote => exact delivers_attributeValueQuote CHAR_SINGLE le_rfl (Or.inl hready) (by omega)
  case attributeValueDoubleQuote => exact delivers_attributeValueQuote CHAR_DOUBLE le_rfl (Or.inl hready) (by omega)
  case attributeValueBackQuote => exact delivers_attributeValueQuote CHAR_TICK le_rfl (Or.inl hready) (by omega)

end Attributes

theorem ready_init (s : Bytes) (flags : Flags) : (init s flags).Ready := by
  cases flags <;> first | exact Nat.zero_le _ | rfl

theorem budget_init_le (s : Bytes) (flags : Flags) : (init s flags).budget ≤ s.length + 1 := by
  cases flags <;> first | exact Nat.le_succ _ | exact le_rfl

/-! ### Whole runs -/

/-- The states in which the calls of `next` hand out a token, up to the call that says that there
is none. -/
def tokens (signedChar : Bool) : ℕ → H5 → Option (List H5)
  | 0, _ => none
  | fuel + 1, h => do
      let (result, h) ← h.next signedChar
      if result ≠ .true then some []
      else
        let rest ← tokens signedChar fuel h
        some (h :: rest)

/-- The tokens lie in order, none of them in front of `lo`, and inside of the input. -/
def InOrder (s : Bytes) : ℕ → List H5 → Prop
  | _, [] => True
  | lo, h :: hs => lo ≤ h.tokenStart ∧ h.tokenStart + h.tokenLen ≤ s.length ∧
      InOrder s (h.tokenStart + h.tokenLen) hs

theorem InOrder.mono {s : Bytes} {lo lo' : ℕ} {hs : List H5} (hle : lo' ≤ lo) (h : InOrder s lo hs) :
    InOrder s lo' hs := by
  cases hs with
  | nil => trivial
  | cons h' hs => exact ⟨hle.trans h.1, h.2⟩

theorem tokens_eof (signedChar : Bool) {fuel : ℕ} {h : H5} (hs : h.state = .eof) :
    tokens signedChar (fuel + 1) h = some [] := by
  unfold tokens next
  rw [hs]
  rfl

theorem exists_tokens (signedChar : Bool) : ∀ (fuel : ℕ) {h : H5}, h.Ready → h.budget < fuel →
    ∃ hs, tokens signedChar fuel h = some hs ∧ hs.length ≤ h.budget ∧ InOrder h.s h.low hs
  | 0, _, _, hfuel => absurd hfuel (Nat.not_lt_zero _)
  | fuel + 1, h, hready, hfuel => by
      unfold tokens
      obtain ⟨h', hfalse | ⟨htrue, token⟩⟩ := delivers_next signedChar hready
      · exact ⟨[], by rw [hfalse]; rfl, Nat.zero_le _, trivial⟩
      · have hfewer := token.fewer
        obtain ⟨hs, hrun, hlen, horder⟩ := exists_tokens signedChar fuel token.ready (by omega)
        refine ⟨h' :: hs, by rw [htrue]; simp [hrun], by rw [List.length_cons]; omega, token.start, token.inside, ?_⟩
        rw [token.same] at horder
        rcases token.behind with heof | hbehind
        · obtain ⟨k, rfl⟩ : ∃ k, fuel = k + 1 := ⟨fuel - 1, by omega⟩
          rw [tokens_eof signedChar heof] at hrun
          rw [← Option.some.inj hrun]
          trivial
        · exact horder.mono hbehind

/-- **The tokens of an input.**  From each of the five ways to begin, the tokenizer comes to an
end without leaving the input, after no more tokens than the input has bytes and one; the
tokens lie inside of the input, one behind the other. -/
theorem tokens_spec (signedChar : Bool) (s : Bytes) (flags : Flags) :
    ∃ hs, tokens signedChar (s.length + 2) (init s flags) = some hs ∧ hs.length ≤ s.length + 1 ∧ InOrder s 0 hs := by
  have hbudget := budget_init_le s flags
  obtain ⟨hs, hrun, hlen, horder⟩ := exists_tokens signedChar (s.length + 2) (ready_init s flags) (by omega)
  exact ⟨hs, hrun, hlen.trans hbudget, horder.mono (Nat.zero_le _)⟩

end H5

end PurpleWolf.Html5
