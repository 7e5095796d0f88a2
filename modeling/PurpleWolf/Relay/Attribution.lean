import PurpleWolf.Lib.JsonParser
import PurpleWolf.Relay.Fidelity

/-! # Who the relay attributes an event to

The parser looks up Traefik's `middlewareName=`, `routerName=` and `entryPointName=` in
the whole stripped line, the JSON payload included.  `attribution_independent` tells for
which text in front of the payload the three answers cannot depend on the payload: each
key occurs there and its value is finished there.

* **One direction.**  A finished value is found before the payload is reached.
* **The other.**  An unfinished value runs into the payload, and a missing key is looked
  up in it: two hosts that differ in one letter yield two answers (`probe`). -/

namespace PurpleWolf.Relay

open Json AuditEntry

/-! ### The first occurrence of a key -/

theorem afterKey_length {key s r : Str} (h : afterKey key s = some r) : key.length + r.length ≤ s.length := by
  induction s with
  | nil =>
      unfold afterKey at h
      split_ifs at h with hkey
      rw [List.isEmpty_iff.mp hkey, ← Option.some.inj h]
      simp
  | cons c s ih =>
      unfold afterKey at h
      split_ifs at h with hkey
      · have hlen := (List.isPrefixOf_iff_prefix.mp hkey).length_le
        rw [← Option.some.inj h, List.length_drop]
        omega
      · have := ih h
        rw [List.length_cons]
        omega

/-- An occurrence stays the first one, whatever is appended. -/
theorem afterKey_append {key s r : Str} (h : afterKey key s = some r) (t : Str) (hkey : key ≠ []) :
    afterKey key (s ++ t) = some (r ++ t) := by
  induction s with
  | nil =>
      unfold afterKey at h
      split_ifs at h with hempty
      exact absurd (List.isEmpty_iff.mp hempty) hkey
  | cons c s ih =>
      unfold afterKey at h
      rw [List.cons_append, afterKey]
      split_ifs at h with hpre
      · have hpre' := List.isPrefixOf_iff_prefix.mp hpre
        have hpre'' : key <+: c :: (s ++ t) := hpre'.trans ⟨t, rfl⟩
        rw [if_pos (List.isPrefixOf_iff_prefix.mpr hpre''), ← Option.some.inj h, ← List.cons_append,
          List.drop_append_of_le_length hpre'.length_le]
      · have hlen := afterKey_length h
        have hno : ¬ key.isPrefixOf (c :: (s ++ t)) = true := by
          intro hpre'
          apply hpre
          rw [List.isPrefixOf_iff_prefix] at hpre' ⊢
          rw [← List.cons_append] at hpre'
          exact List.prefix_of_prefix_length_le hpre' (List.prefix_append _ _)
            (by rw [List.length_cons]; omega)
        rw [if_neg hno, ih h]

section Terminated

variable {k : Str}

/-- A key that ends with the only `=` cannot start where its `=` would have to fall into a
text without one. -/
theorem not_key_prefix {a w t : Str} (hw : '=' ∉ w) (hle : a.length ≤ k.length)
    (hlt : k.length < a.length + w.length) : ¬ (k ++ ['=']) <+: a ++ (w ++ '=' :: t) := by
  rintro ⟨u, hu⟩
  have hleft : (k ++ ['='] ++ u)[k.length]? = some '=' := by simp
  have hright : (a ++ (w ++ '=' :: t))[k.length]? = w[k.length - a.length]? := by
    rw [List.getElem?_append_right hle, List.getElem?_append_left (by omega)]
  rw [hu, hright] at hleft
  exact hw (List.mem_of_getElem? hleft)

/-- The first occurrence, if there is none in `s` and no `=` between `s` and it. -/
theorem afterKey_skip (hk : '=' ∉ k) {gap : Str} (hgap : '=' ∉ gap) (t : Str) : ∀ s : Str,
    afterKey (k ++ ['=']) s = none → afterKey (k ++ ['=']) (s ++ gap ++ (k ++ '=' :: t)) = some t
  | c :: s, hs => by
      unfold afterKey at hs
      split_ifs at hs with hpre
      rw [List.cons_append, List.cons_append, afterKey, afterKey_skip hk hgap t s hs, if_neg]
      rw [List.isPrefixOf_iff_prefix] at hpre ⊢
      intro hpre'
      by_cases hlen : (k ++ ['=']).length ≤ (c :: s).length
      · apply hpre
        refine List.prefix_of_prefix_length_le hpre' ?_ hlen
        exact ⟨gap ++ (k ++ '=' :: t), by simp⟩
      · have hrest : c :: (s ++ gap ++ (k ++ '=' :: t)) = (c :: s) ++ ((gap ++ k) ++ '=' :: t) := by simp
        rw [hrest] at hpre'
        simp only [List.length_append, List.length_cons, List.length_nil] at hlen
        refine not_key_prefix (by simp [hgap, hk]) ?_ ?_ hpre'
        · rw [List.length_cons]
          omega
        · rw [List.length_cons, List.length_append]
          omega
  | [], _ => by
      rw [List.nil_append]
      induction gap with
      | nil =>
          have hpre : (k ++ ['=']) <+: k ++ '=' :: t := ⟨t, by simp⟩
          have hdrop : (k ++ '=' :: t).drop (k ++ ['=']).length = t := by
            rw [List.append_cons k '=' t, List.drop_left]
          rw [List.nil_append]
          cases hs : k ++ '=' :: t with
          | nil => simp at hs
          | cons d u =>
              rw [afterKey, ← hs, if_pos (List.isPrefixOf_iff_prefix.mpr hpre), hdrop]
      | cons d gap ih =>
          rw [List.mem_cons, not_or] at hgap
          rw [List.cons_append, afterKey, ih hgap.2, if_neg]
          rw [List.isPrefixOf_iff_prefix]
          have hrest : d :: (gap ++ (k ++ '=' :: t)) = [] ++ ((d :: gap ++ k) ++ '=' :: t) := by simp
          rw [hrest]
          refine not_key_prefix ?_ (by simp) (by simp)
          simp [hgap.1, hgap.2, hk]

end Terminated

/-! ### The value of a key -/

/-- The value that starts a text: up to the first white space, without quotes around. -/
def valueText (rest : Str) : Str := trimQuotes (rest.takeWhile (fun c => !Text.isWhitespace c))

theorem findValue_of_afterKey {key s rest : Str} (h : afterKey key s = some rest) :
    findValue s key = if (valueText rest).isEmpty then none else some (valueText rest) := by
  unfold findValue
  rw [h]
  rfl

theorem takeWhile_append_of_stop {p : Char → Bool} {s : Str} (h : ∃ c ∈ s, p c = false) (t : Str) :
    (s ++ t).takeWhile p = s.takeWhile p := by
  obtain ⟨c, hc, hp⟩ := h
  rw [List.takeWhile_append, if_neg]
  intro hlen
  have hall : s.takeWhile p = s := List.takeWhile_prefix p |>.eq_of_length hlen
  exact absurd (List.mem_takeWhile_imp (hall ▸ hc)) (by simp [hp])

/-- A value that white space ends does not see the text behind. -/
theorem valueText_append {rest : Str} (h : ∃ c ∈ rest, Text.isWhitespace c = true) (t : Str) :
    valueText (rest ++ t) = valueText rest := by
  unfold valueText
  rw [takeWhile_append_of_stop]
  obtain ⟨c, hc, hw⟩ := h
  exact ⟨c, hc, by simp [hw]⟩

theorem trimQuotes_append_cons {c : Char} (hc : isQuote c = false) (a b : Str) :
    trimQuotes (a ++ c :: b) = a.dropWhile isQuote ++ c :: b.rdropWhile isQuote := by
  have hfront : (a ++ c :: b).dropWhile isQuote = a.dropWhile isQuote ++ c :: b := by
    rw [List.dropWhile_append]
    split_ifs with hall
    · rw [List.isEmpty_iff.mp hall, List.dropWhile_cons_of_neg (by simp [hc]), List.nil_append]
    · rfl
  unfold trimQuotes List.rdropWhile
  rw [hfront, List.reverse_append, List.reverse_cons, List.append_assoc, List.dropWhile_append]
  split_ifs with hall
  · rw [List.isEmpty_iff.mp hall, List.singleton_append, List.dropWhile_cons_of_neg (by simp [hc])]
    simp
  · simp

/-- The values that the parser reports: a middleware or a router by its bare name
(`named`), the entry point as it stands. -/
def fieldOf (key : Str) (named : Bool) (s : Str) : Option Str :=
  if named then (findValue s key).map stripTraefikSuffix else findValue s key

/-- The characters that finish a value; the name ends at the `@` of its provider. -/
def stops (named : Bool) (c : Char) : Bool := Text.isWhitespace c || (named && c == '@')

/-- The key occurs, and the value after its first occurrence is finished. -/
def Settled (key : Str) (named : Bool) (s : Str) : Prop :=
  ∃ rest, afterKey key s = some rest ∧ ∃ c ∈ rest, stops named c = true

instance (key : Str) (named : Bool) (s : Str) : Decidable (Settled key named s) :=
  match h : afterKey key s with
  | none => isFalse (by rintro ⟨rest, hrest, -⟩; rw [h] at hrest; cases hrest)
  | some rest =>
      decidable_of_iff (rest.any (stops named) = true) (by
        unfold Settled
        rw [h, List.any_eq_true]
        simp)

theorem stripTraefikSuffix_valueText {rest : Str} (hat : '@' ∈ rest)
    (hspace : ∀ c ∈ rest, Text.isWhitespace c = false) (t : Str) :
    valueText (rest ++ t) ≠ [] ∧
      stripTraefikSuffix (valueText (rest ++ t)) = (rest.takeWhile (· ≠ '@')).dropWhile isQuote := by
  obtain ⟨a, b, rfl, ha⟩ := List.eq_append_cons_of_mem hat
  have hvalue : ∃ b', valueText (a ++ '@' :: b ++ t) = a.dropWhile isQuote ++ '@' :: b' := by
    unfold valueText
    rw [List.takeWhile_append_of_pos (by simpa using hspace), List.append_assoc, List.cons_append,
      trimQuotes_append_cons (by decide)]
    exact ⟨_, rfl⟩
  obtain ⟨b', hb'⟩ := hvalue
  have hname : (a ++ '@' :: b).takeWhile (· ≠ '@') = a := by
    rw [List.takeWhile_append_of_pos]
    · simp
    · intro c hc
      simpa using ne_of_mem_of_not_mem hc ha
  rw [hb', hname]
  refine ⟨by simp, ?_⟩
  unfold stripTraefikSuffix
  rw [Text.splitOnce_append]
  intro hmem
  exact ha ((List.dropWhile_suffix _).subset hmem)

/-- **A settled field does not see the text behind.** -/
theorem fieldOf_append {key : Str} {named : Bool} {s : Str} (h : Settled key named s) (hkey : key ≠ [])
    (t : Str) : fieldOf key named (s ++ t) = fieldOf key named s := by
  obtain ⟨rest, hrest, c, hc, hstop⟩ := h
  have hrest' := afterKey_append hrest t hkey
  by_cases hspace : ∃ c ∈ rest, Text.isWhitespace c = true
  · have hvalue := valueText_append hspace t
    unfold fieldOf
    rw [findValue_of_afterKey hrest, findValue_of_afterKey hrest', hvalue]
  · have hspace' : ∀ c ∈ rest, Text.isWhitespace c = false := by simpa using hspace
    have hnamed : named = true ∧ c = '@' := by simpa [stops, hspace' c hc] using hstop
    obtain ⟨rfl, rfl⟩ := hnamed
    have h1 := stripTraefikSuffix_valueText hc hspace' t
    have h2 := stripTraefikSuffix_valueText hc hspace' []
    rw [List.append_nil] at h2
    unfold fieldOf
    rw [if_pos rfl, if_pos rfl, findValue_of_afterKey hrest, findValue_of_afterKey hrest', if_neg, if_neg,
      Option.map_some, Option.map_some, h1.2, h2.2]
    · simpa using h2.1
    · simpa using h1.1

theorem valueText_letter {w : Str} {x : Char} (hw : ∀ c ∈ w, Text.isWhitespace c = false)
    (hx : Text.isWhitespace x = false) (hq : isQuote x = false) (t : Str) :
    valueText (w ++ x :: ' ' :: t) = w.dropWhile isQuote ++ [x] := by
  have htake : (w ++ x :: ' ' :: t).takeWhile (fun c => !Text.isWhitespace c) = w ++ [x] := by
    rw [List.takeWhile_append_of_pos (by simpa using hw), List.takeWhile_cons_of_pos (by simp [hx]),
      List.takeWhile_cons_of_neg (by decide)]
  unfold valueText
  rw [htake, trimQuotes_append_cons hq, List.rdropWhile_nil]

/-- **An unsettled field is read from what follows**: a text that contains the key and a
letter decides the last letter of the answer. -/
theorem fieldOf_unsettled {k : Str} {named : Bool} {s : Str} (h : ¬ Settled (k ++ ['=']) named s)
    (hk : '=' ∉ k ∧ ∀ c ∈ k, stops named c = false) {gap : Str}
    (hgap : '=' ∉ gap ∧ ∀ c ∈ gap, stops named c = false) :
    ∃ w, ∀ x, stops named x = false → isQuote x = false → ∀ t,
      fieldOf (k ++ ['=']) named (s ++ gap ++ (k ++ '=' :: x :: ' ' :: t)) = some (w ++ [x]) := by
  -- what stands between the key and the letter: nothing if the key is missing
  have hvalue : ∃ w, (∀ c ∈ w, stops named c = false) ∧ ∀ x t,
      afterKey (k ++ ['=']) (s ++ gap ++ (k ++ '=' :: x :: ' ' :: t)) = some (w ++ x :: ' ' :: t) := by
    cases hs : afterKey (k ++ ['=']) s with
    | none => exact ⟨[], by simp, fun x t => afterKey_skip hk.1 hgap.1 _ s hs⟩
    | some rest =>
        refine ⟨rest ++ gap ++ k ++ ['='], ?_, ?_⟩
        · have hrest : ∀ c ∈ rest, stops named c = false := by
            intro c hc
            rw [Bool.eq_false_iff]
            exact fun hstop => h ⟨rest, hs, c, hc, hstop⟩
          intro c hc
          simp only [List.mem_append, List.mem_singleton] at hc
          rcases hc with ((hc | hc) | hc) | rfl
          · exact hrest c hc
          · exact hgap.2 c hc
          · exact hk.2 c hc
          · cases named <;> decide
        · intro x t
          have happ := afterKey_append hs (gap ++ (k ++ '=' :: x :: ' ' :: t)) (by simp)
          simpa using happ
  obtain ⟨w, hw, hafter⟩ := hvalue
  have hspace : ∀ c, stops named c = false → Text.isWhitespace c = false := by
    intro c hc
    exact (Bool.or_eq_false_iff.mp hc).1
  refine ⟨w.dropWhile isQuote, ?_⟩
  intro x hx hq t
  have htext := valueText_letter (fun c hc => hspace c (hw c hc)) (hspace x hx) hq t
  have hfind := findValue_of_afterKey (hafter x t)
  rw [htext, if_neg (by simp)] at hfind
  unfold fieldOf
  split_ifs with hnamed
  · rw [hfind, Option.map_some]
    have hat : ∀ c, stops named c = false → c ≠ '@' := by
      rintro c hc rfl
      rw [hnamed] at hc
      exact absurd hc (by decide)
    have hno : '@' ∉ w.dropWhile isQuote ++ [x] := by
      intro hmem
      rcases List.mem_append.mp hmem with hmem | hmem
      · exact hat _ (hw _ ((List.dropWhile_suffix _).subset hmem)) rfl
      · exact hat _ hx (List.mem_singleton.mp hmem).symm
    unfold stripTraefikSuffix
    rw [Text.splitOnce_eq_none hno]
  · exact hfind

/-! ### The parsed line -/

variable (S : Json.Codec)

theorem parseLine_fields {text : Str} {p : ParsedAudit} (h : parseLine S (Utf8.encode text) = .ok p) :
    p.middleware = fieldOf middlewareKey true (stripAnsi text) ∧
      p.router = fieldOf routerKey true (stripAnsi text) ∧
      p.entryPoint = fieldOf entryPointKey false (stripAnsi text) := by
  unfold parseLine parseLineWith at h
  rw [Utf8.decode?_encode] at h
  simp only at h
  split_ifs at h with hbrace
  split at h
  · cases h
  · split at h
    · cases h
    · split_ifs at h with hsig
      cases h
      exact ⟨rfl, rfl, rfl⟩

/-- The answers do not depend on the entry in the line. -/
def Independent (before after : Str) : Prop :=
  ∀ e₁ e₂ p₁ p₂, parseLine S (Utf8.encode (before ++ toLogLine S e₁ ++ after)) = .ok p₁ →
    parseLine S (Utf8.encode (before ++ toLogLine S e₂ ++ after)) = .ok p₂ →
      p₁.middleware = p₂.middleware ∧ p₁.router = p₂.router ∧ p₁.entryPoint = p₂.entryPoint

/-- The text before the payload settles the three fields. -/
def SourceSettled (before : Str) : Prop :=
  Settled middlewareKey true (stripAnsi before) ∧ Settled routerKey true (stripAnsi before) ∧
    Settled entryPointKey false (stripAnsi before)

instance (before : Str) : Decidable (SourceSettled before) := inferInstanceAs (Decidable (_ ∧ _))

theorem stripAnsi_append (s t : Str) :
    stripAnsi (s ++ t) = stripAnsi s ++ stripAnsiFrom (ansiAfter .text s) t := by
  rw [stripAnsi_eq, stripAnsi_eq, stripAnsiFrom_append]

theorem independent_of_settled {before : Str} (h : SourceSettled before) (after : Str) :
    Independent S before after := by
  obtain ⟨hm, hr, he⟩ := h
  intro e₁ e₂ p₁ p₂ hp₁ hp₂
  obtain ⟨hm₁, hr₁, he₁⟩ := parseLine_fields S hp₁
  obtain ⟨hm₂, hr₂, he₂⟩ := parseLine_fields S hp₂
  rw [hm₁, hr₁, he₁, hm₂, hr₂, he₂]
  simp only [List.append_assoc, stripAnsi_append before]
  refine ⟨?_, ?_, ?_⟩
  · rw [fieldOf_append hm (by decide), fieldOf_append hm (by decide)]
  · rw [fieldOf_append hr (by decide), fieldOf_append hr (by decide)]
  · rw [fieldOf_append he (by decide), fieldOf_append he (by decide)]

/-! ### Two probing hosts -/

/-- An entry about a request to `host`. -/
def probe (host : Str) : AuditEntry where
  host := host
  path := "/".toList
  query := none
  method := "GET".toList
  sourceIp := "192.0.2.1".toList
  action := "allow".toList
  blockedRule := none
  blockedSeverity := none
  blockedDetail := none
  wouldBlockRules := []
  bodyTruncated := false
  labels := ∅
  configFallback := false
  action_known := Or.inl rfl

/-- Characters that JSON text and the strip leave alone. -/
def IsPlain (c : Char) : Prop := ¬ isSpecial c ∧ c ≠ '\x1b'

instance (c : Char) : Decidable (IsPlain c) := inferInstanceAs (Decidable (_ ∧ _))

theorem quoted_plain {s : Str} (h : ∀ c ∈ s, IsPlain c) : quoted S.toEscaper s = '"' :: s ++ ['"'] := by
  have hbody : s.flatMap S.escape = s := by
    induction s with
    | nil => rfl
    | cons c s ih =>
        rw [List.flatMap_cons, S.plain c (h c (by simp)).1, ih (fun x hx => h x (by simp [hx])),
          List.singleton_append]
  unfold quoted
  rw [hbody]

theorem probe_line {host : Str} (h : ∀ c ∈ host, IsPlain c) :
    ∃ t, (probe host).toLogLine S = '\x7b' :: '"' :: 'h' :: "ost\":\"".toList ++ host ++ t := by
  have hmembers : ∃ m ms, (probe host).toJson = .obj (("host".toList, .str host) :: m :: ms) := ⟨_, _, rfl⟩
  obtain ⟨m, ms, hjson⟩ := hmembers
  have hkey : quoted S.toEscaper "host".toList = '"' :: 'h' :: "ost\"".toList :=
    quoted_plain S (by decide)
  refine ⟨'"' :: ',' :: compactMembers S.toEscaper (m :: ms) ++ ['\x7d'], ?_⟩
  rw [toLogLine, hjson, compact, compactMembers, hkey, compact, quoted_plain S h]
  · simp
  · simp

/-- What the strip leaves of the payload: its front, or the rest of the front if a colour
sequence that the text before leaves open ends in it. -/
theorem strip_probe (st : AnsiState) : ∃ gap : Str, ('=' ∉ gap ∧ ∀ named, ∀ c ∈ gap, stops named c = false) ∧
    ∀ host after, (∀ c ∈ host, IsPlain c) → ∃ t,
      stripAnsiFrom st ((probe host).toLogLine S ++ after) = gap ++ host ++ t := by
  have hopen : ∀ (gap host t : Str), '\x1b' ∉ gap → (∀ c ∈ host, IsPlain c) →
      stripAnsiFrom .text (gap ++ host ++ t) = gap ++ host ++ stripAnsiFrom .text t := by
    intro gap host t hgap hhost
    have hno : '\x1b' ∉ gap ++ host := by
      intro hmem
      rcases List.mem_append.mp hmem with hmem | hmem
      · exact hgap hmem
      · exact (hhost _ hmem).2 rfl
    rw [stripAnsiFrom_append, stripAnsiFrom_text_eq hno, ansiAfter_text_eq hno]
  have heaten : ∀ st, st ≠ .text → ∀ s : Str,
      stripAnsiFrom st ('\x7b' :: '"' :: 'h' :: s) = stripAnsiFrom .text s := by
    intro st hst s
    cases st with
    | text => exact absurd rfl hst
    | escape => rfl
    | body => rfl
  by_cases hst : st = .text
  · refine ⟨'\x7b' :: '"' :: 'h' :: "ost\":\"".toList, by decide, ?_⟩
    intro host after hhost
    obtain ⟨t, ht⟩ := probe_line S hhost
    refine ⟨stripAnsiFrom .text (t ++ after), ?_⟩
    rw [ht, hst, List.append_assoc _ t, hopen _ _ _ (by decide) hhost]
  · refine ⟨"ost\":\"".toList, by decide, ?_⟩
    intro host after hhost
    obtain ⟨t, ht⟩ := probe_line S hhost
    refine ⟨stripAnsiFrom .text (t ++ after), ?_⟩
    rw [ht, List.append_assoc _ t]
    simp only [List.cons_append]
    rw [heaten st hst, hopen _ _ _ (by decide) hhost]

/-- The host that carries a key and a letter. -/
def keyHost (k : Str) (x : Char) : Str := k ++ '=' :: x :: " b".toList

/-- Every entry is parsed between `before` and `after`. -/
def AllParse (before after : Str) : Prop :=
  ∀ e, ∃ p, parseLine S (Utf8.encode (before ++ toLogLine S e ++ after)) = .ok p

/-- An unsettled field tells two hosts apart. -/
theorem fieldOf_keyHost {k : Str} {named : Bool} {before : Str}
    (h : ¬ Settled (k ++ ['=']) named (stripAnsi before))
    (hk : '=' ∉ k ∧ ∀ c ∈ k, stops named c = false) (hplain : ∀ c ∈ k, IsPlain c) (after : Str) :
    fieldOf (k ++ ['=']) named (stripAnsi (before ++ toLogLine S (probe (keyHost k 'a')) ++ after)) ≠
      fieldOf (k ++ ['=']) named (stripAnsi (before ++ toLogLine S (probe (keyHost k 'b')) ++ after)) := by
  obtain ⟨gap, hgap, hstrip⟩ := strip_probe S (ansiAfter .text before)
  obtain ⟨w, hw⟩ := fieldOf_unsettled h hk ⟨hgap.1, hgap.2 named⟩
  have hanswer : ∀ x, stops named x = false → isQuote x = false → IsPlain x →
      fieldOf (k ++ ['=']) named (stripAnsi (before ++ toLogLine S (probe (keyHost k x)) ++ after)) =
        some (w ++ [x]) := by
    intro x hx hq hxplain
    have hhost : ∀ c ∈ keyHost k x, IsPlain c := by
      intro c hc
      unfold keyHost at hc
      simp only [List.mem_append, List.mem_cons] at hc
      rcases hc with hc | rfl | rfl | hc
      · exact hplain c hc
      · decide
      · exact hxplain
      · revert c
        decide
    obtain ⟨t, ht⟩ := hstrip (keyHost k x) after hhost
    rw [List.append_assoc, stripAnsi_append, ht, ← hw x hx hq ('b' :: t)]
    unfold keyHost
    simp
  rw [hanswer 'a' (by cases named <;> decide) (by decide) (by decide),
    hanswer 'b' (by cases named <;> decide) (by decide) (by decide)]
  simp

theorem settled_of_independent {before after : Str} (hparse : AllParse S before after)
    (h : Independent S before after) : SourceSettled before := by
  have hagree : ∀ k : Str, ∃ p₁ p₂,
      parseLine S (Utf8.encode (before ++ toLogLine S (probe (keyHost k 'a')) ++ after)) = .ok p₁ ∧
        parseLine S (Utf8.encode (before ++ toLogLine S (probe (keyHost k 'b')) ++ after)) = .ok p₂ ∧
        p₁.middleware = p₂.middleware ∧ p₁.router = p₂.router ∧ p₁.entryPoint = p₂.entryPoint := by
    intro k
    obtain ⟨p₁, hp₁⟩ := hparse (probe (keyHost k 'a'))
    obtain ⟨p₂, hp₂⟩ := hparse (probe (keyHost k 'b'))
    exact ⟨p₁, p₂, hp₁, hp₂, h _ _ _ _ hp₁ hp₂⟩
  refine ⟨?_, ?_, ?_⟩
  · by_contra hno
    obtain ⟨p₁, p₂, hp₁, hp₂, heq, -, -⟩ := hagree "middlewareName".toList
    rw [(parseLine_fields S hp₁).1, (parseLine_fields S hp₂).1] at heq
    exact fieldOf_keyHost S (k := "middlewareName".toList) hno (by decide) (by decide) after heq
  · by_contra hno
    obtain ⟨p₁, p₂, hp₁, hp₂, -, heq, -⟩ := hagree "routerName".toList
    rw [(parseLine_fields S hp₁).2.1, (parseLine_fields S hp₂).2.1] at heq
    exact fieldOf_keyHost S (k := "routerName".toList) hno (by decide) (by decide) after heq
  · by_contra hno
    obtain ⟨p₁, p₂, hp₁, hp₂, -, -, heq⟩ := hagree "entryPointName".toList
    rw [(parseLine_fields S hp₁).2.2, (parseLine_fields S hp₂).2.2] at heq
    exact fieldOf_keyHost S (k := "entryPointName".toList) hno (by decide) (by decide) after heq

/-! ### The result -/

/-- **When the attribution is independent of the payload.**  Text before the payload that
settles the three fields fixes the answers for any payload, and where every entry is
parsed only such text does. -/
theorem attribution_independent (before after : Str) :
    (SourceSettled before → Independent S before after) ∧
      (AllParse S before after → Independent S before after → SourceSettled before) :=
  ⟨fun h => independent_of_settled S h after, settled_of_independent S⟩

theorem allParse_decoration (pieces : List LogPiece) (after : Str) : AllParse S (decoration pieces) after := by
  intro e
  obtain ⟨p, hp, -⟩ := parseLine_toLogLine S pieces e after
  exact ⟨p, hp⟩

theorem attribution_independent_settled :
    Independent Json.standard "entryPointName=web middlewareName=strict@file routerName=shop@file ".toList [] ∧
      ¬ Independent Json.standard (decoration []) " middlewareName=strict@file".toList :=
  ⟨(attribution_independent Json.standard _ []).1 (by decide),
    fun h => absurd ((attribution_independent Json.standard _ _).2 (allParse_decoration _ [] _) h) (by decide)⟩

/-- A query takes the place of the middleware that Traefik names behind the payload. -/
theorem attribution_spoofed : ∃ p₁ p₂,
    parseLine Json.standard (Utf8.encode (decoration [] ++
        toLogLine Json.standard (probe "shop".toList) ++ " middlewareName=strict@file".toList)) = .ok p₁ ∧
      parseLine Json.standard (Utf8.encode (decoration [] ++
        toLogLine Json.standard { probe "shop".toList with query := some "middlewareName=lax@file".toList } ++
          " middlewareName=strict@file".toList)) = .ok p₂ ∧
      p₁.middleware = some "strict".toList ∧ p₂.middleware = some "lax".toList := by
  obtain ⟨p₁, hp₁, -⟩ := parseLine_toLogLine Json.standard [] (probe "shop".toList)
    " middlewareName=strict@file".toList
  obtain ⟨p₂, hp₂, -⟩ := parseLine_toLogLine Json.standard []
    { probe "shop".toList with query := some "middlewareName=lax@file".toList }
    " middlewareName=strict@file".toList
  refine ⟨p₁, p₂, hp₁, hp₂, ?_, ?_⟩
  · rw [(parseLine_fields _ hp₁).1]
    decide +kernel
  · rw [(parseLine_fields _ hp₂).1]
    decide +kernel

end PurpleWolf.Relay
