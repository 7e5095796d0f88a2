import PurpleWolf.Lib.JsonParser
import PurpleWolf.Relay.BraceSearch
import PurpleWolf.Relay.JsonScan

/-! # What the object search returns

The range that `find_json_object` returns is read against the text: it is sound (`Sound`) when it
lies between characters and holds an object's text, from the first opening brace to the closing one
that matches it.  The 32 bits of the depth are the one thing that can spoil this: a text overruns
them (`Overruns`) when a closing brace leaves a positive multiple of `2 ^ 32` braces open. -/

namespace PurpleWolf.Relay

open Quoting BraceRegisters

/-! ### The range of a text -/

/-- The search over `s` passes `a`, stops at the end of `v` and leaves `c` unread. -/
structure StopsAt (s a v c : Str) : Prop where
  split : s = a ++ v ++ c
  before : '\x7b' ∉ a
  first : v.head? = some '\x7b'
  stops : Stops v
  earliest : ∀ w, w <+: v → Stops w → w = v

theorem not_stops_nil : ¬ Stops [] := by
  rintro ⟨⟨v, hv, -⟩, -⟩
  exact absurd hv.symm (List.append_ne_nil_of_right_ne_nil v nofun)

theorem firstStop_nil_iff (u v : Str) :
    FirstStop [] u v ↔ v <+: u ∧ Stops v ∧ ∀ w, w <+: v → Stops w → w = v := by
  have hne : ∀ w, Stops w → w ≠ [] := by
    rintro w hw rfl
    exact not_stops_nil hw
  constructor
  · rintro ⟨hpart, -, hstops, hearliest⟩
    exact ⟨hpart, hstops, fun w hw hs => hearliest w hw (hne w hs) hs⟩
  · rintro ⟨hpart, hstops, hearliest⟩
    exact ⟨hpart, hne v hstops, hstops, fun w hw _ hs => hearliest w hw hs⟩

theorem findIdx_no_brace {s : Str} (h : '\x7b' ∉ s) : (Utf8.encode s).findIdx? (fun b => b == 0x7B) = none := by
  rw [List.findIdx?_eq_none_iff]
  intro b hb
  obtain ⟨c, hc, hbc⟩ := Utf8.mem_encode.mp hb
  have hne : b ≠ 0x7B := Utf8.ne_of_mem_encodeChar hbc '\x7b' (by decide) (fun e => h (e ▸ hc))
  simpa using hne

theorem split_brace_unique {a a' u u' : Str} (ha : '\x7b' ∉ a) (ha' : '\x7b' ∉ a')
    (h : a ++ '\x7b' :: u = a' ++ '\x7b' :: u') : a = a' ∧ u = u' := by
  have hsplit := Text.splitOnce_append ha u
  rw [h, Text.splitOnce_append ha' u', Option.some.injEq, Prod.mk.injEq] at hsplit
  exact ⟨hsplit.1.symm, hsplit.2.symm⟩

theorem findJsonObjectI32_brace {a : Str} (ha : '\x7b' ∉ a) (u : Str) (start stop : ℕ) :
    findJsonObjectI32 (Utf8.encode (a ++ '\x7b' :: u)) = some (start, stop) ↔
      start = (Utf8.encode a).length ∧
        ∃ v, FirstStop [] ('\x7b' :: u) v ∧ start + (Utf8.encode v).length = stop + 1 := by
  have hreading : (⟨0, false, false⟩ : BraceRegisters) = reading (outside.balance []) (outside.after []) := rfl
  unfold findJsonObjectI32
  rw [findIdx_brace ha u, Utf8.encode_append]
  simp only [List.drop_left, hreading, Option.map_eq_some_iff, findEndI32_eq_some, Prod.mk.injEq]
  constructor
  · rintro ⟨j, ⟨v, hv, hlen⟩, rfl, rfl⟩
    exact ⟨rfl, v, hv, hlen⟩
  · rintro ⟨rfl, v, hv, hlen⟩
    exact ⟨stop, ⟨v, hv, hlen⟩, rfl, rfl⟩

/-- **What is returned is the range of the part at which the search stops.** -/
theorem findJsonObjectI32_eq_some (s : Str) (start stop : ℕ) :
    findJsonObjectI32 (Utf8.encode s) = some (start, stop) ↔
      ∃ a v c, StopsAt s a v c ∧ start = (Utf8.encode a).length ∧ start + (Utf8.encode v).length = stop + 1 := by
  by_cases hs : '\x7b' ∈ s
  · obtain ⟨a, u, rfl, ha⟩ := List.eq_append_cons_of_mem hs
    rw [findJsonObjectI32_brace ha u]
    simp only [firstStop_nil_iff]
    constructor
    · rintro ⟨hstart, v, ⟨⟨c, hc⟩, hstops, hearliest⟩, hlen⟩
      have hfirst : v.head? = some '\x7b' := by
        cases v with
        | nil => exact absurd hstops not_stops_nil
        | cons d v => rw [List.cons_append] at hc; rw [(List.cons.inj hc).1, List.head?_cons]
      exact ⟨a, v, c, ⟨by rw [List.append_assoc, hc], ha, hfirst, hstops, hearliest⟩, hstart, hlen⟩
    · rintro ⟨a', v, c, hv, hstart, hlen⟩
      obtain ⟨v', rfl⟩ := List.head?_eq_some_iff.mp hv.first
      have hsplit := hv.split
      rw [List.append_assoc, List.cons_append] at hsplit
      obtain ⟨rfl, rfl⟩ := split_brace_unique ha hv.before hsplit
      exact ⟨hstart, _, ⟨⟨c, List.cons_append⟩, hv.stops, hv.earliest⟩, hlen⟩
  · have hnone : findJsonObjectI32 (Utf8.encode s) = none := by
      unfold findJsonObjectI32
      rw [findIdx_no_brace hs]
    rw [hnone]
    refine ⟨nofun, fun ⟨a, v, c, hv, _⟩ => ?_⟩
    obtain ⟨v', rfl⟩ := List.head?_eq_some_iff.mp hv.first
    exact absurd (by rw [hv.split]; simp) hs

theorem encode_cons_pos (c : Char) (s : Str) : 0 < (Utf8.encode (c :: s)).length := by
  have hpos := c.utf8Size_pos
  rw [Utf8.encode_cons, List.length_append, String.length_utf8EncodeChar]
  omega

theorem prefix_unique {u v s : Str} (hu : u <+: s) (hv : v <+: s)
    (h : (Utf8.encode u).length = (Utf8.encode v).length) : u = v := by
  have hnil : ∀ w : Str, (Utf8.encode w).length = 0 → w = [] := by
    intro w hw
    cases w with
    | nil => rfl
    | cons c w => exact absurd hw (encode_cons_pos c w).ne'
  obtain ⟨w, rfl⟩ | ⟨w, rfl⟩ := List.prefix_or_prefix_of_prefix hu hv
  · rw [Utf8.encode_append, List.length_append] at h
    rw [hnil w (by omega), List.append_nil]
  · rw [Utf8.encode_append, List.length_append] at h
    rw [hnil w (by omega), List.append_nil]

theorem range_unique {s a v c a' v' c' : Str} (hs : s = a ++ v ++ c) (hs' : s = a' ++ v' ++ c')
    (ha : (Utf8.encode a).length = (Utf8.encode a').length)
    (hv : (Utf8.encode v).length = (Utf8.encode v').length) : a = a' ∧ v = v' := by
  have hpart : a ++ v <+: s := ⟨c, hs.symm⟩
  have hpart' : a' ++ v' <+: s := ⟨c', hs'.symm⟩
  have haa : a = a' :=
    prefix_unique ((List.prefix_append a v).trans hpart) ((List.prefix_append a' v').trans hpart') ha
  subst haa
  have hall := prefix_unique hpart hpart' (by
    rw [Utf8.encode_append, Utf8.encode_append, List.length_append, List.length_append, hv])
  exact ⟨rfl, List.append_cancel_left hall⟩

theorem StopsAt.findJsonObjectI32 {s a v c : Str} (h : StopsAt s a v c) :
    findJsonObjectI32 (Utf8.encode s) =
      some ((Utf8.encode a).length, (Utf8.encode a).length + (Utf8.encode v).length - 1) := by
  rw [findJsonObjectI32_eq_some]
  obtain ⟨v', rfl⟩ := List.head?_eq_some_iff.mp h.first
  refine ⟨a, _, c, h, rfl, ?_⟩
  have hpos := encode_cons_pos '\x7b' v'
  omega

/-! ### Sound ranges -/

/-- Whatever range is returned holds an object's text and begins at the first brace. -/
def Sound (s : Str) : Prop :=
  ∀ start stop, findJsonObjectI32 (Utf8.encode s) = some (start, stop) →
    ∃ a v c, s = a ++ v ++ c ∧ '\x7b' ∉ a ∧ BraceText v ∧
      start = (Utf8.encode a).length ∧ start + (Utf8.encode v).length = stop + 1

/-- From the first brace of the text on, more braces are open than closed, until a closing brace
outside of strings leaves a multiple of `2 ^ 32` of them open. -/
def Overruns (s : Str) : Prop :=
  ∃ a v c, s = a ++ v ++ c ∧ '\x7b' ∉ a ∧ v.head? = some '\x7b' ∧
    (∀ u, u <+: v → u ≠ [] → (outside.unquoted u).count '\x7d' < (outside.unquoted u).count '\x7b') ∧ Stops v

theorem balance_pos_iff {u : Str} :
    0 < outside.balance u ↔ (outside.unquoted u).count '\x7d' < (outside.unquoted u).count '\x7b' := by
  unfold balance
  omega

/-- A text that stops the search has a shortest part that does. -/
theorem exists_earliest (v : Str) (h : Stops v) : ∃ w, w <+: v ∧ Stops w ∧ ∀ x, x <+: w → Stops x → x = w := by
  induction hn : v.length using Nat.strong_induction_on generalizing v with
  | _ n ih =>
      by_cases hx : ∃ x, x <+: v ∧ Stops x ∧ x ≠ v
      · obtain ⟨x, hxv, hstop, hne⟩ := hx
        have hlt : x.length < n := by
          have hle := hxv.length_le
          have hlen : x.length ≠ v.length := fun e => hne (hxv.eq_of_length e)
          omega
        obtain ⟨w, hw, hws⟩ := ih x.length hlt x hstop rfl
        exact ⟨w, hw.trans hxv, hws⟩
      · refine ⟨v, List.prefix_refl v, h, fun x hxv hstop => ?_⟩
        by_contra hne
        exact hx ⟨x, hxv, hstop, hne⟩

theorem Overruns.not_sound {s : Str} (h : Overruns s) : ¬ Sound s := by
  obtain ⟨a, v, c, hs, ha, hfirst, hopen, hstop⟩ := h
  obtain ⟨w, ⟨x, hx⟩, hws, hearliest⟩ := exists_earliest v hstop
  obtain ⟨v', rfl⟩ := List.head?_eq_some_iff.mp hfirst
  have hwne : w ≠ [] := by
    rintro rfl
    exact not_stops_nil hws
  have hwfirst : w.head? = some '\x7b' := by
    obtain ⟨d, w', rfl⟩ := List.exists_cons_of_ne_nil hwne
    rw [List.cons_append] at hx
    rw [(List.cons.inj hx).1, List.head?_cons]
  have hat : StopsAt s a w (x ++ c) := by
    refine ⟨?_, ha, hwfirst, hws, hearliest⟩
    rw [hs, ← hx]
    simp only [List.append_assoc]
  intro hsound
  obtain ⟨a', w', c', hs', -, hbrace, hstart, hlen⟩ := hsound _ _ hat.findJsonObjectI32
  have hpos : 0 < (Utf8.encode w).length := by
    obtain ⟨w'', rfl⟩ := List.head?_eq_some_iff.mp hwfirst
    exact encode_cons_pos _ w''
  obtain ⟨-, rfl⟩ := range_unique hat.split hs' hstart (by omega)
  have hmore := hopen w ⟨x, hx⟩ hwne
  have hclosed := hbrace.closed
  omega

theorem sound_of_not_overruns {s : Str} (h : ¬ Overruns s) : Sound s := by
  intro start stop hfind
  obtain ⟨a, v, c, hat, hstart, hlen⟩ := (findJsonObjectI32_eq_some s start stop).mp hfind
  refine ⟨a, v, c, hat.split, hat.before, ?_, hstart, hlen⟩
  by_cases hlow : ∃ w, w <+: v ∧ w ≠ [] ∧ outside.balance w ≤ 0
  · obtain ⟨w, hw, hne, hbal⟩ := hlow
    obtain ⟨v', hv⟩ := List.head?_eq_some_iff.mp hat.first
    obtain ⟨d, w', rfl⟩ := List.exists_cons_of_ne_nil hne
    obtain ⟨rfl, hw'⟩ := List.cons_prefix_cons.mp (hv ▸ hw)
    obtain ⟨x, hx, hcloses, hzero, hbefore⟩ := exists_falls (q := outside) (t := ['\x7b']) (u := w') (k := 0) hbal
      (by decide)
    have hxv : '\x7b' :: x = v := by
      refine hat.earliest _ (hv ▸ (List.prefix_cons_inj _).mpr (hx.trans hw')) ⟨hcloses, ?_⟩
      have hzero' : outside.balance ('\x7b' :: x) = 0 := hzero
      rw [hzero']
      exact dvd_zero _
    obtain ⟨y, hy, -⟩ := hcloses
    rw [← hxv]
    refine ⟨rfl, ?_, fun u hu hune huv => ?_, ?_⟩
    · have hy' : '\x7b' :: x = y ++ ['\x7d'] := hy
      rw [hy', List.getLast?_concat]
    · obtain ⟨d, u', rfl⟩ := List.exists_cons_of_ne_nil hune
      obtain ⟨rfl, hu'⟩ := List.cons_prefix_cons.mp hu
      exact balance_pos_iff.mp (hbefore u' hu' (fun e => huv (by rw [e])))
    · have hzero' : outside.balance ('\x7b' :: x) = 0 := hzero
      unfold balance at hzero'
      omega
  · refine absurd ⟨a, v, c, hat.split, hat.before, hat.first, fun u hu hne => ?_, hat.stops⟩ h
    rw [← balance_pos_iff]
    by_contra hle
    exact hlow ⟨u, hu, hne, by omega⟩

theorem sound_iff (s : Str) : Sound s ↔ ¬ Overruns s :=
  ⟨fun h ho => ho.not_sound h, sound_of_not_overruns⟩

/-- A prefix at which the search stops with braces open holds `2 ^ 32` of them. -/
theorem Stops.le_balance {v : Str} (h : Stops v) (hpos : 0 < outside.balance v) :
    ∃ y, v = y ++ ['\x7d'] ∧ (2 ^ 32 : ℤ) + 1 ≤ outside.balance y := by
  obtain ⟨⟨y, rfl, hout⟩, hdvd⟩ := h
  have hle := Int.le_of_dvd hpos hdvd
  rw [Closes.balance hout] at hle
  exact ⟨y, rfl, by omega⟩

theorem length_le_encode (s : Str) : s.length ≤ (Utf8.encode s).length := by
  induction s with
  | nil => exact Nat.zero_le _
  | cons c s ih =>
      have hpos := c.utf8Size_pos
      rw [Utf8.encode_cons, List.length_append, String.length_utf8EncodeChar, List.length_cons]
      omega

/-- Only texts of more than 4 GiB overrun the register. -/
theorem Overruns.le_length {s : Str} (h : Overruns s) : 2 ^ 32 + 2 ≤ (Utf8.encode s).length := by
  obtain ⟨a, v, c, rfl, -, hfirst, hopen, hstop⟩ := h
  have hne : v ≠ [] := by
    rintro rfl
    exact not_stops_nil hstop
  obtain ⟨y, rfl, hy⟩ := hstop.le_balance (balance_pos_iff.mpr (hopen v (List.prefix_refl v) hne))
  have hcount := balance_le_count outside y
  have hy' : y.count '\x7b' ≤ (Utf8.encode y).length := List.count_le_length.trans (length_le_encode y)
  have hbrace : (Utf8.encode ['\x7d']).length = 1 := by decide
  rw [Utf8.encode_append, Utf8.encode_append, Utf8.encode_append, List.length_append, List.length_append,
    List.length_append, hbrace]
  omega

/-- Opening braces, of which the last is closed. -/
def unclosed (n : ℕ) : Str := List.replicate n '\x7b' ++ ['\x7d']

theorem after_replicate (n : ℕ) : outside.after (List.replicate n '\x7b') = outside := by
  induction n with
  | zero => rfl
  | succ n ih => exact ih

theorem balance_replicate (n : ℕ) : outside.balance (List.replicate n '\x7b') = n := by
  induction n with
  | zero => rfl
  | succ n ih =>
      rw [List.replicate_succ, Spans.balance_open, ih]
      push_cast
      ring

theorem balance_unclosed (n : ℕ) : outside.balance (unclosed n) = n - 1 := by
  unfold unclosed
  rw [Closes.balance (after_replicate n), balance_replicate]

theorem not_braceText_unclosed {n : ℕ} (hn : n ≠ 1) : ¬ BraceText (unclosed n) := by
  intro h
  have hclosed := h.closed
  have hbal := balance_unclosed n
  unfold balance at hbal
  omega

theorem encode_unclosed (n : ℕ) : (Utf8.encode (unclosed n)).length = n + 1 := by
  have hreplicate : (Utf8.encode (List.replicate n '\x7b')).length = n := by
    induction n with
    | zero => rfl
    | succ n ih =>
        have hbrace : (String.utf8EncodeChar '\x7b').length = 1 := by decide
        rw [List.replicate_succ, Utf8.encode_cons, List.length_append, ih, hbrace, Nat.add_comm]
  have hbrace : (Utf8.encode ['\x7d']).length = 1 := by decide
  rw [unclosed, Utf8.encode_append, List.length_append, hreplicate, hbrace]

theorem stopsAt_unclosed {n : ℕ} (hn : n ≠ 0) (h : (2 ^ 32 : ℤ) ∣ n - 1) : StopsAt (unclosed n) [] (unclosed n) [] := by
  obtain ⟨k, rfl⟩ := Nat.exists_eq_succ_of_ne_zero hn
  refine ⟨by simp, nofun, rfl, ⟨⟨_, rfl, after_replicate _⟩, ?_⟩, fun w hw hstop => ?_⟩
  · rw [balance_unclosed]
    exact h
  · obtain rfl | hw := List.prefix_concat_iff.mp hw
    · rfl
    · obtain ⟨⟨v, rfl, -⟩, -⟩ := hstop
      have hmem := hw.subset (List.mem_append_right v (List.mem_singleton_self '\x7d'))
      exact absurd (List.eq_of_mem_replicate hmem) (by decide)

/-- The search takes `2 ^ 32 + 1` opening braces and one closing one for an object. -/
theorem not_sound_unclosed : findJsonObjectI32 (Utf8.encode (unclosed (2 ^ 32 + 1))) = some (0, 2 ^ 32 + 1) ∧
    ¬ Sound (unclosed (2 ^ 32 + 1)) := by
  have hat : StopsAt (unclosed (2 ^ 32 + 1)) [] (unclosed (2 ^ 32 + 1)) [] :=
    stopsAt_unclosed (Nat.succ_ne_zero _) (by norm_num)
  have hlen := encode_unclosed (2 ^ 32 + 1)
  have hfind := hat.findJsonObjectI32
  rw [hlen, Utf8.encode_nil, List.length_nil, Nat.zero_add, Nat.add_sub_cancel] at hfind
  refine ⟨hfind, fun hsound => ?_⟩
  obtain ⟨a, v, c, hs, -, hbrace, hstart, hstop⟩ := hsound _ _ hfind
  obtain ⟨-, rfl⟩ := range_unique hat.split hs hstart (by rw [hlen]; omega)
  exact not_braceText_unclosed (by decide) hbrace

/-! ### Printed objects -/

/-- **A printed object is found exactly when no more than `2 ^ 32` of its objects, itself included,
are nested in one another.** -/
theorem findJsonObjectI32_print_iff (E : Json.Escaper) (L : Layout) {p : Str} (hp : '\x7b' ∉ p) (q : Str)
    (members : List (Str × JsonText)) :
    findJsonObjectI32 (Utf8.encode (p ++ (JsonText.obj members).print E L 0 ++ q)) =
        some ((Utf8.encode p).length,
          (Utf8.encode p).length + (Utf8.encode ((JsonText.obj members).print E L 0)).length - 1) ↔
      (JsonText.obj members).nesting ≤ 2 ^ 32 := by
  have hspans := JsonText.spans_print E L 0 (JsonText.obj members)
  have hbrace := JsonText.braceText_print E L 0 members
  generalize (JsonText.obj members).print E L 0 = j at hspans hbrace ⊢
  generalize (JsonText.obj members).nesting = h at hspans ⊢
  constructor
  · intro hfind
    by_contra hdeep
    obtain ⟨u, ⟨z, rfl⟩, hreach⟩ := hspans.reached
    -- on the way down from its highest point the text leaves `2 ^ 32` braces open
    obtain ⟨v, hv, hcloses, hbal, -⟩ := exists_falls (q := outside) (t := u) (u := z) (k := 2 ^ 32)
      (by rw [hspans.level]; decide) (by rw [hreach]; omega)
    obtain ⟨a, w, c, hat, hstart, hlen⟩ := (findJsonObjectI32_eq_some _ _ _).mp hfind
    obtain ⟨j', hj'⟩ := List.head?_eq_some_iff.mp hbrace.first
    have hpos := encode_cons_pos '\x7b' j'
    rw [← hj'] at hpos
    obtain ⟨-, rfl⟩ := range_unique rfl hat.split hstart (by omega)
    have hwhole := hat.earliest _ ((List.prefix_append_right_inj u).mpr hv) ⟨hcloses, by rw [hbal]⟩
    rw [hwhole, hspans.level] at hbal
    exact absurd hbal (by decide)
  · intro hle
    refine StopsAt.findJsonObjectI32 ⟨rfl, hp, hbrace.first, ⟨hbrace.closes, ?_⟩, fun w hw hstop => ?_⟩
    · rw [hspans.level]
      exact dvd_zero _
    · by_contra hne
      have hwne : w ≠ [] := by
        rintro rfl
        exact not_stops_nil hstop
      obtain ⟨y, rfl, hy⟩ := hstop.le_balance (balance_pos_iff.mpr (hbrace.opened w hw hwne hne))
      have hhigh := (hspans.within y ((List.prefix_append y _).trans hw)).2
      omega

/-- **When the search returns objects.**  After a text without an opening brace it returns the range
of a printed object, whatever follows, exactly when at most `2 ^ 32` objects are nested in one
another there; and over any text it returns sound ranges only, exactly when the text does not
overrun the depth, as no text of up to 4 GiB does. -/
theorem findJsonObjectI32_spec (E : Json.Escaper) (L : Layout) {p : Str} (hp : '\x7b' ∉ p) (q : Str)
    (members : List (Str × JsonText)) (s : Str) :
    (findJsonObjectI32 (Utf8.encode (p ++ (JsonText.obj members).print E L 0 ++ q)) =
        some ((Utf8.encode p).length,
          (Utf8.encode p).length + (Utf8.encode ((JsonText.obj members).print E L 0)).length - 1) ↔
      (JsonText.obj members).nesting ≤ 2 ^ 32) ∧
      (Sound s ↔ ¬ Overruns s) ∧ ((Utf8.encode s).length < 2 ^ 32 + 2 → ¬ Overruns s) := by
  refine ⟨findJsonObjectI32_print_iff E L hp q members, sound_iff s, fun hlen h => ?_⟩
  have hle := h.le_length
  omega

/-- An object with a brace in a string, between two texts. -/
theorem findJsonObjectI32_spec_nested :
    findJsonObjectI32 (Utf8.encode "INF \x7b\"a\":\x7b\"b\":\"\x7d\"\x7d\x7d web\x7d".toList) = some (4, 18) ∧
    Sound "web\x7d".toList := by
  have hspec := findJsonObjectI32_spec Json.standardEscaper Layout.compact (p := "INF ".toList) (by decide)
    " web\x7d".toList [("a".toList, .obj [("b".toList, .str "\x7d".toList)])] "web\x7d".toList
  have hfind := hspec.1.mpr (by decide)
  exact ⟨hfind, hspec.2.1.mpr (hspec.2.2 (by decide))⟩

end PurpleWolf.Relay
