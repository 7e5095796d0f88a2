import PurpleWolf.Libinjection.TokenStream
import PurpleWolf.Libinjection.Xss

/-! # The XSS detector always answers

`libinjection_xss` never reads outside of the input, comes to an end, and never returns the
error that `ffi::is_xss` takes for a harmless input. -/

namespace PurpleWolf.Xss

open Html5 Memory

/-! ### Entities -/

theorem decodeDigits_consumed (digit : UInt8 → Option ℕ) (base : ℕ) : ∀ (src : Bytes) (val i : ℕ), 1 ≤ i →
    1 ≤ (decodeDigits digit base val i src).2 ∧ (decodeDigits digit base val i src).2 ≤ i + src.length
  | [], val, i, hi => ⟨hi, le_rfl⟩
  | ch :: src, val, i, hi => by
      unfold decodeDigits
      rw [List.length_cons]
      split_ifs
      · exact ⟨by simp only; omega, by simp only; omega⟩
      · split
        · exact ⟨hi, by simp only; omega⟩
        · split_ifs
          · exact ⟨le_rfl, by simp only; omega⟩
          · next d _ _ =>
              obtain ⟨hge, hle⟩ := decodeDigits_consumed digit base src (val * base + d) (i + 1) (by omega)
              exact ⟨hge, by omega⟩

/-- An entity is at least one byte long, and ends inside of the input. -/
theorem htmlDecodeCharAt_consumed (c : UInt8) : ∀ src : Bytes,
    1 ≤ (htmlDecodeCharAt c src).2 ∧ (htmlDecodeCharAt c src).2 ≤ src.length + 1
  | [] => ⟨le_rfl, le_rfl⟩
  | [_] => ⟨le_rfl, by unfold htmlDecodeCharAt; simp⟩
  | [c1, c2] => by
      unfold htmlDecodeCharAt
      simp only [List.length_cons, List.length_nil]
      split_ifs
      · exact ⟨le_rfl, by omega⟩
      · exact ⟨le_rfl, by omega⟩
      · exact ⟨le_rfl, by omega⟩
      · cases decDigit c2 with
        | none => exact ⟨le_rfl, show 1 ≤ 2 + 1 by omega⟩
        | some val => exact ⟨show 1 ≤ 3 by omega, le_rfl⟩
  | c1 :: c2 :: c3 :: src => by
      unfold htmlDecodeCharAt
      simp only [List.length_cons, reduceCtorEq, and_false, or_false]
      split_ifs
      · exact ⟨le_rfl, by omega⟩
      · exact ⟨le_rfl, by omega⟩
      · cases hexDigit c3 with
        | none => exact ⟨le_rfl, Nat.le_add_left 1 _⟩
        | some val =>
            obtain ⟨hge, hle⟩ := decodeDigits_consumed hexDigit 16 src val 4 (by omega)
            exact ⟨hge, hle.trans (by omega)⟩
      · cases decDigit c2 with
        | none => exact ⟨le_rfl, Nat.le_add_left 1 _⟩
        | some val =>
            obtain ⟨hge, hle⟩ := decodeDigits_consumed decDigit 10 (c3 :: src) val 3 (by omega)
            rw [List.length_cons] at hle
            exact ⟨hge, hle.trans (by omega)⟩

theorem exists_htmlencodeStartswithLoop : ∀ (fuel : ℕ) (first : Bool) (a b : Bytes), b.length < fuel →
    ∃ r, htmlencodeStartswithLoop fuel first a b = some r
  | 0, _, _, _, hfuel => absurd hfuel (Nat.not_lt_zero _)
  | _ + 1, _, a, [], _ => ⟨a.isEmpty, rfl⟩
  | _ + 1, _, [], _ :: _, _ => ⟨true, rfl⟩
  | fuel + 1, first, ca :: a, c :: src, hfuel => by
      obtain ⟨hge, -⟩ := htmlDecodeCharAt_consumed c src
      have hshort : ((c :: src).drop (htmlDecodeCharAt c src).2).length < fuel := by
        rw [List.length_drop, List.length_cons] at *
        omega
      unfold htmlencodeStartswithLoop
      simp only
      split_ifs
      · exact exists_htmlencodeStartswithLoop fuel _ _ _ hshort
      · exact exists_htmlencodeStartswithLoop fuel _ _ _ hshort
      · exact ⟨false, rfl⟩
      · exact exists_htmlencodeStartswithLoop fuel _ _ _ hshort
      · exact ⟨false, rfl⟩
      · exact exists_htmlencodeStartswithLoop fuel _ _ _ hshort

theorem exists_anyM {α : Type} {test : α → Option Bool} (htest : ∀ a, ∃ b, test a = some b) :
    ∀ as : List α, ∃ b, anyM test as = some b
  | [] => ⟨false, rfl⟩
  | a :: as => by
      obtain ⟨b, hb⟩ := htest a
      unfold anyM
      rw [hb]
      simp only [Option.bind_eq_bind, Option.bind_some]
      split_ifs
      · exact ⟨true, rfl⟩
      · exact exists_anyM htest as

theorem exists_isBlackUrl (s : Bytes) : ∃ b, isBlackUrl s = some b :=
  exists_anyM (fun scheme => exists_htmlencodeStartswithLoop _ true scheme _ (Nat.lt_succ_self _)) _

/-! ### The detector -/

theorem exists_inspectToken (attr : Attribute) (type : TokenType) (token : Bytes) :
    ∃ r, inspectToken attr type token = some r := by
  unfold inspectToken
  split
  case h_4 =>
    split
    case h_3 =>
      obtain ⟨b, hb⟩ := exists_isBlackUrl token
      exact ⟨(b, .none), by rw [hb]; rfl⟩
    all_goals exact ⟨_, rfl⟩
  all_goals exact ⟨_, rfl⟩

/-- An answer that is not the error. -/
def Answers (r : Option InjectionResult) : Prop := r = some .true ∨ r = some .false

variable (signedChar : Bool)

theorem answers_isXssLoop : ∀ (fuel : ℕ) (attr : Attribute) {h : H5}, h.Ready → h.budget < fuel →
    Answers (isXssLoop signedChar fuel attr h)
  | 0, _, _, _, hfuel => absurd hfuel (Nat.not_lt_zero _)
  | fuel + 1, attr, h, hready, hfuel => by
      unfold isXssLoop
      obtain ⟨h', hfalse | ⟨htrue, token⟩⟩ := H5.delivers_next signedChar hready
      · rw [hfalse]
        exact Or.inr rfl
      · have hfewer := token.fewer
        have hslice := slice_of_le (s := h'.s) (token.same ▸ token.inside)
        obtain ⟨⟨reported, attr'⟩, hr⟩ :=
          exists_inspectToken attr h'.tokenType ((h'.s.drop h'.tokenStart).take h'.tokenLen)
        rw [htrue]
        simp only [Option.bind_eq_bind, Option.bind_some, hslice, hr, ne_eq, not_true, ite_false]
        split_ifs
        · exact Or.inl rfl
        · exact answers_isXssLoop fuel attr' token.ready (by omega)

theorem answers_isXssIn (s : Bytes) (flags : Flags) : Answers (isXssIn signedChar s flags) := by
  have hbudget := H5.budget_init_le s flags
  exact answers_isXssLoop signedChar _ _ (H5.ready_init s flags) (by omega)

theorem firstResult_eq (s : Bytes) : ∀ ways : List Flags,
    firstResult signedChar s ways =
      some (if ∃ flags ∈ ways, isXssIn signedChar s flags = some .true then .true else .false)
  | [] => by
      unfold firstResult
      rw [if_neg (by rintro ⟨flags, hf, -⟩; cases hf)]
  | flags :: ways => by
      unfold firstResult
      rcases answers_isXssIn signedChar s flags with htrue | hfalse
      · rw [htrue, if_pos ⟨flags, List.mem_cons_self, htrue⟩]
        rfl
      · rw [hfalse]
        simp only [Option.bind_eq_bind, Option.bind_some, ne_eq, not_true, ite_false]
        rw [firstResult_eq s ways]
        congr 2
        apply propext
        constructor
        · rintro ⟨f, hf, h⟩
          exact ⟨f, List.mem_cons_of_mem _ hf, h⟩
        · rintro ⟨f, hf, h⟩
          rcases List.mem_cons.mp hf with rfl | hf
          · rw [hfalse] at h
            cases h
          · exact ⟨f, hf, h⟩

theorem mem_FLAGS (flags : Flags) : flags ∈ FLAGS := by cases flags <;> decide

/-- The detector reports what one of the five ways to look at the input reports. -/
theorem isXss_iff (s : Bytes) :
    isXss signedChar s = true ↔ ∃ flags : Flags, isXssIn signedChar s flags = some .true := by
  have hiff : (∃ flags ∈ FLAGS, isXssIn signedChar s flags = some .true) ↔
      ∃ flags : Flags, isXssIn signedChar s flags = some .true :=
    ⟨fun ⟨f, _, h⟩ => ⟨f, h⟩, fun ⟨f, h⟩ => ⟨f, mem_FLAGS f, h⟩⟩
  unfold isXss libinjectionXss
  rw [firstResult_eq, decide_eq_true_iff, ← hiff]
  by_cases hany : ∃ flags ∈ FLAGS, isXssIn signedChar s flags = some .true
  · simp [hany]
  · simp [hany]

/-- **The detector answers.**  On every input `libinjection_xss` returns `TRUE` or `FALSE`: it
never reads outside of the input, never runs on, and never returns the error that `is_xss`
takes for a harmless input.  `TRUE` is the answer of one of the five passes, `FALSE` that of
all of them. -/
theorem libinjectionXss_answers (s : Bytes) :
    (libinjectionXss signedChar s = some .true ∧ isXss signedChar s = true ∧
        ∃ flags : Flags, isXssIn signedChar s flags = some .true) ∨
      (libinjectionXss signedChar s = some .false ∧ isXss signedChar s = false ∧
        ∀ flags : Flags, isXssIn signedChar s flags = some .false) := by
  have hresult := firstResult_eq signedChar s FLAGS
  by_cases hany : ∃ flags : Flags, isXssIn signedChar s flags = some .true
  · obtain ⟨flags, hflags⟩ := hany
    rw [if_pos ⟨flags, mem_FLAGS flags, hflags⟩] at hresult
    exact Or.inl ⟨hresult, (isXss_iff signedChar s).mpr ⟨flags, hflags⟩, flags, hflags⟩
  · rw [if_neg (fun ⟨flags, _, h⟩ => hany ⟨flags, h⟩)] at hresult
    refine Or.inr ⟨hresult, ?_, fun flags => ?_⟩
    · rw [← Bool.not_eq_true, isXss_iff]
      exact hany
    · rcases answers_isXssIn signedChar s flags with htrue | hfalse
      · exact absurd ⟨flags, htrue⟩ hany
      · exact hfalse

end PurpleWolf.Xss
