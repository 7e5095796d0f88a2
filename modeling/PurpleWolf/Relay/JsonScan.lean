import PurpleWolf.Relay.Parser
import PurpleWolf.Lib.Braces

/-! # The brace scan over printed JSON

The object search of `parser.rs` walks over bytes with three registers.  `Passes s s' bs`
says that it walks over `bs` from the registers `s` to `s'` without finding the closing
brace.  A text that always leaves a brace open is passed, and the depth is its balance
(`passes_open`); printed JSON values leave it where it was, whatever text their strings hold,
so that the scan finds exactly the object that a line carries (`findJsonObject_compact`). -/

namespace PurpleWolf.Relay

open Json Quoting

/-- The scan walks over `bs` from `s` to `s'`. -/
def Passes (s s' : BraceScan) (bs : Bytes) : Prop :=
  ∀ i rest, findEnd s i (bs ++ rest) = findEnd s' (i + bs.length) rest

namespace Passes

variable {s s' s'' : BraceScan} {bs cs : Bytes}

theorem nil (s : BraceScan) : Passes s s [] := fun _ _ => rfl

theorem append (h : Passes s s' bs) (h' : Passes s' s'' cs) : Passes s s'' (bs ++ cs) := by
  intro i rest
  rw [List.append_assoc, h, h', List.length_append, Nat.add_assoc]

theorem byte {b : UInt8} (h : s.closes b = false) : Passes s (s.step b) [b] := by
  intro i rest
  rw [List.singleton_append, findEnd, if_neg (by simp [h])]
  rfl

theorem quiet : ∀ {bs : Bytes}, (∀ b ∈ bs, s.step b = s ∧ s.closes b = false) → Passes s s bs
  | [], _ => nil s
  | b :: bs, h => by
      obtain ⟨hstep, hclose⟩ := h b (by simp)
      have hb : Passes s s [b] := by simpa [hstep] using byte hclose
      exact hb.append (quiet (fun c hc => h c (by simp [hc])))

end Passes

/-! ### Characters -/

/-- Outside a string only a quote and the braces count. -/
theorem passes_outside (d : ℕ) {c : Char} (h1 : c ≠ '"') (h2 : c ≠ '\x7b') (h3 : c ≠ '\x7d') :
    Passes ⟨d, false, false⟩ ⟨d, false, false⟩ (String.utf8EncodeChar c) := by
  refine Passes.quiet fun b hb => ?_
  have e1 : b ≠ 0x22 := Utf8.ne_of_mem_encodeChar hb '"' (by decide) h1
  have e2 : b ≠ 0x7B := Utf8.ne_of_mem_encodeChar hb '\x7b' (by decide) h2
  have e3 : b ≠ 0x7D := Utf8.ne_of_mem_encodeChar hb '\x7d' (by decide) h3
  simp [BraceScan.step, BraceScan.closes, e1, e2, e3]

/-- Inside a string only a quote and the backslash count. -/
theorem passes_inside (d : ℕ) {c : Char} (h1 : c ≠ '"') (h2 : c ≠ '\\') :
    Passes ⟨d, true, false⟩ ⟨d, true, false⟩ (String.utf8EncodeChar c) := by
  refine Passes.quiet fun b hb => ?_
  have e1 : b ≠ 0x22 := Utf8.ne_of_mem_encodeChar hb '"' (by decide) h1
  have e2 : b ≠ 0x5C := Utf8.ne_of_mem_encodeChar hb '\\' (by decide) h2
  simp [BraceScan.step, BraceScan.closes, e1, e2]

theorem passes_escaped (d : ℕ) (c : Char) :
    Passes ⟨d, true, true⟩ ⟨d, true, false⟩ (String.utf8EncodeChar c) := by
  by_cases hc : c.toNat < 0x80
  · rw [Utf8.encodeChar_ascii hc]
    exact Passes.byte (by simp [BraceScan.closes])
  · -- the first byte clears the flag, the others are continuation bytes
    cases he : String.utf8EncodeChar c with
    | nil => exact absurd he (by simp)
    | cons b bs =>
        have hhigh : ∀ x ∈ b :: bs, ¬ x.toNat < 0x80 := by
          intro x hx hlt
          obtain ⟨-, hn⟩ := Utf8.ascii_of_mem_encodeChar (he ▸ hx) hlt
          omega
        have hb : Passes ⟨d, true, true⟩ ⟨d, true, false⟩ [b] := Passes.byte (by simp [BraceScan.closes])
        refine hb.append (Passes.quiet fun x hx => ?_)
        have hx' := hhigh x (by simp [hx])
        have e1 : x ≠ 0x22 := by rintro rfl; exact hx' (by decide)
        have e2 : x ≠ 0x5C := by rintro rfl; exact hx' (by decide)
        simp [BraceScan.step, BraceScan.closes, e1, e2]

/-! ### Texts -/

namespace BraceScan

/-- The registers at a depth, where the strings stand at `q`. -/
def reading (d : ℕ) (q : Quoting) : BraceScan := ⟨d, decide (q ≠ outside), decide (q = escaped)⟩

end BraceScan

open BraceScan

/-- A character is passed as long as a brace stays open behind it. -/
theorem passes_char {d d' : ℕ} {q : Quoting} {c : Char} (hd : (d' : ℤ) = d + q.weight c) (hopen : 0 < d') :
    Passes (reading d q) (reading d' (q.next c)) (String.utf8EncodeChar c) := by
  cases q with
  | outside =>
      by_cases hq : c = '"'
      · subst hq
        obtain rfl : d' = d := by simpa [weight] using hd
        exact Passes.byte (by simp [reading, closes])
      · by_cases ho : c = '\x7b'
        · subst ho
          obtain rfl : d' = d + 1 := by
            rw [weight_outside_open] at hd
            omega
          exact Passes.byte (by simp [reading, closes])
        · by_cases hb : c = '\x7d'
          · subst hb
            rw [weight_outside_close] at hd
            obtain rfl : d = d' + 1 := by omega
            exact Passes.byte (by simp [reading, closes, hopen.ne'])
          · obtain rfl : d' = d := by simpa [weight, ho, hb] using hd
            simpa [reading, next, hq] using passes_outside d' hq ho hb
  | inside =>
      obtain rfl : d' = d := by simpa [weight] using hd
      by_cases hs : c = '\\'
      · subst hs
        exact Passes.byte (by simp [reading, closes])
      · by_cases hq : c = '"'
        · subst hq
          exact Passes.byte (by simp [reading, closes])
        · simpa [reading, next, hs, hq] using passes_inside d' hq hs
  | escaped =>
      obtain rfl : d' = d := by simpa [weight] using hd
      exact passes_escaped d' c

/-- **A text is passed as long as a brace stays open in it.** -/
theorem passes_open (t : Str) : ∀ {d d' : ℕ} {q : Quoting}, (d' : ℤ) = d + q.balance t →
    (∀ u, u <+: t → 0 < d + q.balance u) → Passes (reading d q) (reading d' (q.after t)) (Utf8.encode t) := by
  induction t with
  | nil =>
      intro d d' q hd _
      obtain rfl : d' = d := by simpa using hd
      exact Passes.nil _
  | cons c t ih =>
      intro d d' q hd hopen
      have hc := hopen [c] ⟨t, rfl⟩
      rw [balance_singleton] at hc
      obtain ⟨e, he⟩ := Int.eq_ofNat_of_zero_le hc.le
      have hchar : Passes (reading d q) (reading e (q.next c)) (String.utf8EncodeChar c) :=
        passes_char he.symm (by omega)
      rw [Utf8.encode_cons]
      refine hchar.append (ih ?_ fun u hu => ?_)
      · rw [hd, balance_cons]
        omega
      · have hu' := hopen (c :: u) ((List.prefix_cons_inj c).mpr hu)
        rw [balance_cons] at hu'
        omega

theorem Spans.passes {h : ℕ} {t : Str} (ht : Spans h t) (d : ℕ) :
    Passes ⟨d + 1, false, false⟩ ⟨d + 1, false, false⟩ (Utf8.encode t) := by
  have hpass : Passes (reading (d + 1) outside) (reading (d + 1) (outside.after t)) (Utf8.encode t) := by
    refine passes_open t (by rw [ht.level, add_zero]) fun u hu => ?_
    have hlow := (ht.within u hu).1
    omega
  rwa [ht.after] at hpass

/-! ### The search -/

theorem findIdx_brace {a : Str} (h : '\x7b' ∉ a) (u : Str) :
    (Utf8.encode (a ++ '\x7b' :: u)).findIdx? (fun b => b == 0x7B) = some (Utf8.encode a).length := by
  have hno : ∀ b ∈ Utf8.encode a, ¬ (b == 0x7B) = true := by
    intro b hb
    obtain ⟨c, hc, hbc⟩ := Utf8.mem_encode.mp hb
    have hne : b ≠ 0x7B := Utf8.ne_of_mem_encodeChar hbc '\x7b' (by decide) (fun e => h (e ▸ hc))
    simpa using hne
  have hbrace : String.utf8EncodeChar '\x7b' = [0x7B] := by decide
  rw [Utf8.encode_append, Utf8.encode_cons, hbrace, List.findIdx?_append,
    List.findIdx?_eq_none_iff.mpr (by simpa using hno)]
  simp [List.findIdx?_cons]

/-- **The search finds the object of the line**: after a text without a brace it returns
the bounds of the first printed object, whatever follows. -/
theorem findJsonObject_compact (E : Escaper) (before after : Str) (members : List (Str × Json)) (h : '\x7b' ∉ before) :
    findJsonObject (Utf8.encode (before ++ (Json.obj members).compact E ++ after)) =
      some ((Utf8.encode before).length,
        (Utf8.encode before).length + (Utf8.encode ((Json.obj members).compact E)).length - 1) := by
  have hspans := JsonText.spans_printMembers E Layout.compact 0 (membersToText members) (Silent.nil outside)
  rw [printMembers_toText] at hspans
  have hpass := Spans.passes hspans 0
  have hbrace : String.utf8EncodeChar '\x7b' = [0x7B] := by decide
  have hbrace' : String.utf8EncodeChar '\x7d' = [0x7D] := by decide
  unfold compact
  generalize compactMembers E members = body at hpass ⊢
  have hidx := findIdx_brace h (body ++ '\x7d' :: after)
  have htext : before ++ ('\x7b' :: body ++ ['\x7d']) ++ after =
      before ++ '\x7b' :: (body ++ '\x7d' :: after) := by simp
  have hbytes : Utf8.encode (before ++ '\x7b' :: (body ++ '\x7d' :: after)) =
      Utf8.encode before ++ 0x7B :: (Utf8.encode body ++ 0x7D :: Utf8.encode after) := by
    simp [hbrace, hbrace']
  have hlen : (Utf8.encode ('\x7b' :: body ++ ['\x7d'])).length = (Utf8.encode body).length + 2 := by
    simp [hbrace, hbrace']
  rw [htext, hlen]
  unfold findJsonObject
  rw [hidx, hbytes]
  simp only [List.drop_left]
  have hfirst : findEnd ⟨0, false, false⟩ (Utf8.encode before).length
      (0x7B :: (Utf8.encode body ++ 0x7D :: Utf8.encode after)) =
        findEnd ⟨1, false, false⟩ ((Utf8.encode before).length + 1) (Utf8.encode body ++ 0x7D :: Utf8.encode after) :=
        rfl
  rw [hfirst, hpass, findEnd, if_pos (by decide)]
  simp only [Option.map_some, Option.some.injEq, Prod.mk.injEq, true_and]
  omega

end PurpleWolf.Relay
