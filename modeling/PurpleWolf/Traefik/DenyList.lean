import PurpleWolf.Lib.IpDisplay
import PurpleWolf.Traefik.Engine

/-! # Addresses of peers and the deny list

An address may be written bare or in brackets, and with a port.  `parse_ip` tries four
readings one after the other; whatever form an address has, the first reading that succeeds
gives that address (`AddressForm.parseIp`).  So the deny list denies the addresses it names, and
two peers never share a rate-limit key.  What the audit log shows is such a form, so an operator
can deny a peer by copying it from there (`denies_audited`). -/

namespace PurpleWolf.Traefik

open Text Signatures Reputation

/-! ### The forms of an address -/

/-- The ways to write the address `a`, `t` being any text that the standard parser reads as `a`
and `port` any text that it reads as a `u16`. -/
inductive AddressForm (a : IpAddr) : Str → Prop where
  | bare {t : Str} (ht : IpAddr.parse t = some a) : AddressForm a t
  | withPort {t port : Str} {o : Vector UInt8 4} (ha : a = .v4 o) (ht : IpAddr.parse t = some a)
      (hport : (parseUnsigned 0x10000 port).isSome) : AddressForm a (t ++ ':' :: port)
  | bracketed {t : Str} (ht : IpAddr.parse t = some a) : AddressForm a ('[' :: (t ++ [']']))
  | bracketedPort {t port : Str} (ht : IpAddr.parse t = some a) (hport : (parseUnsigned 0x10000 port).isSome) :
      AddressForm a ('[' :: (t ++ [']']) ++ ':' :: port)

/-! ### Their characters -/

theorem not_isWhitespace_of_addressChar {c : Char} (h : IpAddr.AddressChar c) : isWhitespace c = false := by
  have hall : ∀ c : Char, c.toNat < 0x80 → (toDigit 16 c).isSome → isWhitespace c = false := forall_ascii (by decide)
  obtain h | rfl | rfl := h
  · exact hall c (toNat_lt_of_toDigit h) h
  · decide
  · decide

theorem not_mem_of_parse {t : Str} {a : IpAddr} (ht : IpAddr.parse t = some a) : '[' ∉ t ∧ ']' ∉ t := by
  have hchars := IpAddr.addressChar_of_parse ht
  constructor
  · intro hmem
    obtain h | h | h := hchars _ hmem <;> revert h <;> decide
  · intro hmem
    obtain h | h | h := hchars _ hmem <;> revert h <;> decide

theorem mem_port {port : Str} (h : (parseUnsigned 0x10000 port).isSome) : ∀ c ∈ port,
    isWhitespace c = false ∧ c ≠ ':' ∧ c ≠ ']' := by
  intro c hc
  have hall : ∀ c : Char, c.toNat < 0x80 → (toDigit 10 c).isSome → isWhitespace c = false ∧ c ≠ ':' ∧ c ≠ ']' :=
    forall_ascii (by decide)
  obtain rfl | hdigit := (mem_of_parseUnsigned h).2 c hc
  · decide
  · obtain ⟨d, hd⟩ := Option.isSome_iff_exists.mp hdigit
    have hhex := IpAddr.addressChar_of_toDigit (by decide) hd
    have hlt : c.toNat < 0x80 := by
      obtain hhex | rfl | rfl := hhex
      · exact toNat_lt_of_toDigit hhex
      · decide
      · decide
    exact hall c hlt hdigit

theorem parse_of_bracket {s : Str} (h : '[' ∈ s) : IpAddr.parse s = none := by
  cases hs : IpAddr.parse s with
  | none => rfl
  | some a => exact absurd h (not_mem_of_parse hs).1

theorem ne_nil_of_parse {t : Str} {a : IpAddr} (ht : IpAddr.parse t = some a) : t ≠ [] := by
  rintro rfl
  revert ht
  have hnil : IpAddr.parse [] = none := by decide
  rw [hnil]
  exact nofun

theorem bracket_mem {t host port : Str} (h : '[' :: (t ++ [']']) = host ++ ':' :: port) (hne : port ≠ []) :
    ']' ∈ port := by
  have hlast := congrArg List.getLast? h
  rw [← List.cons_append, List.getLast?_append_of_ne_nil _ (List.cons_ne_nil _ _),
    List.getLast?_append_of_ne_nil _ (List.cons_ne_nil _ _), List.getLast?_cons_of_ne_nil hne] at hlast
  exact List.mem_of_getLast? hlast.symm

theorem unbracket_bracketed {t : Str} (hopen : '[' ∉ t) (hclose : ']' ∉ t) (hne : t ≠ []) :
    (('[' :: (t ++ [']'])).dropWhile (· == '[')).rdropWhile (· == ']') = t := by
  cases t with
  | nil => exact absurd rfl hne
  | cons c t =>
      have hc : c ≠ '[' := by
        rintro rfl
        exact hopen List.mem_cons_self
      rw [List.dropWhile_cons_of_pos (by decide), List.cons_append, List.dropWhile_cons_of_neg (by simpa using hc),
        ← List.cons_append, List.rdropWhile_concat_pos _ _ _ (by decide), List.rdropWhile_eq_self_iff]
      intro hne hlast
      apply hclose
      rw [← beq_iff_eq.mp hlast]
      exact List.getLast_mem hne

namespace AddressForm

variable {a : IpAddr} {s : Str}

/-- **Whatever form an address has, it is read as that address.** -/
theorem parseIp (h : AddressForm a (trim s)) : parseIp s = some a := by
  unfold Traefik.parseIp
  generalize trim s = addr at h
  simp only
  have hne : addr.isEmpty = false := by
    cases h with
    | bare ht =>
        rw [List.isEmpty_eq_false_iff]
        exact ne_nil_of_parse ht
    | withPort => simp
    | bracketed => rfl
    | bracketedPort => rfl
  rw [hne, if_neg Bool.false_ne_true]
  cases h with
  | bare ht => rw [ht]
  | @withPort t port o ha ht hport =>
      subst ha
      have hcolon : ':' ∉ port := fun hmem => (mem_port hport _ hmem).2.1 rfl
      rw [IpAddr.parse_append_colon ht, rsplitOnce_append hcolon]
      simp only [hport, if_true, ht]
      rfl
  | @bracketed t ht =>
      obtain ⟨hopen, hclose⟩ := not_mem_of_parse ht
      have hdirect : IpAddr.parse ('[' :: (t ++ [']'])) = none := parse_of_bracket List.mem_cons_self
      rw [hdirect, unbracket_bracketed hopen hclose (ne_nil_of_parse ht), ht]
      cases hsplit : rsplitOnce ':' ('[' :: (t ++ [']'])) with
      | none => rfl
      | some split =>
          obtain ⟨host, port⟩ := split
          have hport : ¬ (parseUnsigned 0x10000 port).isSome := by
            intro hport
            have hends := bracket_mem (rsplitOnce_eq_some hsplit) (mem_of_parseUnsigned hport).1
            exact (mem_port hport _ hends).2.2 rfl
          simp only [hport, if_false, Bool.false_eq_true]
          rfl
  | @bracketedPort t port ht hport =>
      obtain ⟨hopen, hclose⟩ := not_mem_of_parse ht
      have hcolon : ':' ∉ port := fun hmem => (mem_port hport _ hmem).2.1 rfl
      have hdirect : IpAddr.parse ('[' :: (t ++ [']']) ++ ':' :: port) = none :=
        parse_of_bracket (List.mem_append_left _ List.mem_cons_self)
      have hhost : IpAddr.parse ('[' :: (t ++ [']'])) = none := parse_of_bracket List.mem_cons_self
      rw [hdirect, rsplitOnce_append hcolon]
      simp only [hport, if_true, hhost, unbracket_bracketed hopen hclose (ne_nil_of_parse ht), ht]
      rfl

theorem trim_eq (h : AddressForm a s) : trim s = s := by
  have haddr : ∀ {t : Str}, IpAddr.parse t = some a → ∀ c ∈ t, isWhitespace c = false :=
    fun ht c hc => not_isWhitespace_of_addressChar (IpAddr.addressChar_of_parse ht c hc)
  have hsign : isWhitespace ':' = false ∧ isWhitespace '[' = false ∧ isWhitespace ']' = false := by decide
  apply trim_of_forall
  intro c hc
  cases h with
  | bare ht => exact haddr ht c hc
  | withPort ha ht hport =>
      obtain hc | hc := List.mem_append.mp hc
      · exact haddr ht c hc
      · obtain rfl | hc := List.mem_cons.mp hc
        · exact hsign.1
        · exact (mem_port hport c hc).1
  | bracketed ht =>
      simp only [List.mem_cons, List.mem_append, List.not_mem_nil, or_false] at hc
      obtain rfl | hc | rfl := hc
      · exact hsign.2.1
      · exact haddr ht c hc
      · exact hsign.2.2
  | bracketedPort ht hport =>
      simp only [List.cons_append, List.append_assoc, List.mem_cons, List.mem_append, List.nil_append] at hc
      obtain rfl | hc | rfl | rfl | hc := hc
      · exact hsign.2.1
      · exact haddr ht c hc
      · exact hsign.2.2
      · exact hsign.1
      · exact (mem_port hport c hc).1

theorem parsePeer (h : AddressForm a s) : parsePeer s = a := by
  rw [← h.trim_eq] at h
  unfold Traefik.parsePeer
  rw [h.parseIp]
  rfl

end AddressForm

/-! ### Addresses as they are written -/

theorem addressForm_display (a : IpAddr) : AddressForm a a.display := .bare (IpAddr.parse_display a)

/-- The address that the audit log shows is read as the address of the request. -/
theorem addressForm_audited (req : Request) (decision : Decision) (labels : Labels) :
    AddressForm req.sourceIp (AuditEntry.fromWithLabels req decision labels).sourceIp :=
  addressForm_display req.sourceIp

/-! ### The deny list -/

/-- How many verdicts deny the address. -/
def denials (verdicts : List Verdict) : ℕ := verdicts.countP (fun v => v.rule == "ip_denied".toList)

theorem denials_inspect {T : Target} (denyList : DenyList) (req : Request) (env : Reputation.Env T) :
    denials (Reputation.inspect denyList req env).1 = if denyList.contains req.sourceIp then 1 else 0 := by
  have hlimited : denials [rateLimited req.sourceIp] = 0 := by
    unfold denials
    rw [List.countP_singleton]
    rfl
  have hdenied : denials [ipDenied req.sourceIp] = 1 := by
    unfold denials
    rw [List.countP_singleton]
    rfl
  unfold Reputation.inspect
  simp only
  unfold denials at hlimited hdenied ⊢
  rw [List.countP_append]
  split_ifs <;> simp only [hlimited, hdenied, List.countP_nil]

variable {T : Target} (L : Libinjection) (A : AhoCorasick patterns)

/-- What the detector denies is what the entries of the list are read as. -/
theorem denials_detectorOf (cfg : Config) (req : Request) (env : Reputation.Env T) :
    denials ((detectorOf T L A cfg .reputation).inspect req env).1 =
      if (cfg.reputation.denyList.filterMap parseIp).contains req.sourceIp then 1 else 0 := by
  rw [← DenyList.contains_new]
  exact denials_inspect _ req env

/-- **The deny list, from its configuration to the verdict.**  An address that an entry names
is denied, once; one that no entry is read as is not; and the address of a peer is read from
each of its forms, so that different peers have different keys. -/
theorem denyList_denies (cfg : Config) (req : Request) (env : Reputation.Env T) :
    ((∃ entry ∈ cfg.reputation.denyList, AddressForm req.sourceIp (trim entry)) →
        denials ((detectorOf T L A cfg .reputation).inspect req env).1 = 1) ∧
      ((∀ entry ∈ cfg.reputation.denyList, parseIp entry ≠ some req.sourceIp) →
        denials ((detectorOf T L A cfg .reputation).inspect req env).1 = 0) ∧
      (∀ a s, AddressForm a s → parsePeer s = a) ∧
      ∀ a b s t, AddressForm a s → AddressForm b t → a ≠ b → parsePeer s ≠ parsePeer t := by
  have hnamed : (cfg.reputation.denyList.filterMap parseIp).contains req.sourceIp = true ↔
      ∃ entry ∈ cfg.reputation.denyList, parseIp entry = some req.sourceIp := by
    rw [List.contains_iff_mem, List.mem_filterMap]
  rw [denials_detectorOf]
  refine ⟨?_, ?_, fun a s h => h.parsePeer, ?_⟩
  · rintro ⟨entry, hmem, hform⟩
    exact if_pos (hnamed.mpr ⟨entry, hmem, hform.parseIp⟩)
  · intro hnone
    apply if_neg
    intro hcontains
    obtain ⟨entry, hmem, hparse⟩ := hnamed.mp hcontains
    exact hnone entry hmem hparse
  · intro a b s t hs ht hne
    rw [hs.parsePeer, ht.parsePeer]
    exact hne

example : parseIp " [2001:db8::1]:8080 ".toList = some (.v6 #v[0x2001, 0xDB8, 0, 0, 0, 0, 0, 1]) := by decide

/-- **Denying what the audit log shows.**  A list to which the address of an audited request is
added denies the requests from that address, and treats all others as it did before. -/
theorem denies_audited (cfg : Config) (req req' : Request) (decision : Decision) (labels : Labels)
    (env : Reputation.Env T) :
    let audited := (AuditEntry.fromWithLabels req decision labels).sourceIp
    let denying := { cfg with reputation :=
      { cfg.reputation with denyList := cfg.reputation.denyList ++ [audited] } }
    denials ((detectorOf T L A denying .reputation).inspect req' env).1 =
      if req'.sourceIp = req.sourceIp then 1
      else denials ((detectorOf T L A cfg .reputation).inspect req' env).1 := by
  intro audited denying
  have haudited := addressForm_audited req decision labels
  have hparse : parseIp audited = some req.sourceIp := by
    rw [← haudited.trim_eq] at haudited
    exact haudited.parseIp
  have hlist : denying.reputation.denyList.filterMap parseIp =
      cfg.reputation.denyList.filterMap parseIp ++ [req.sourceIp] := by
    show (cfg.reputation.denyList ++ [audited]).filterMap parseIp = _
    rw [List.filterMap_append, List.filterMap_cons_some hparse, List.filterMap_nil]
  have hadded : (denying.reputation.denyList.filterMap parseIp).contains req'.sourceIp = true ↔
      (cfg.reputation.denyList.filterMap parseIp).contains req'.sourceIp = true ∨ req'.sourceIp = req.sourceIp := by
    rw [hlist, List.contains_iff_mem, List.contains_iff_mem, List.mem_append, List.mem_singleton]
  rw [denials_detectorOf, denials_detectorOf]
  by_cases hsame : req'.sourceIp = req.sourceIp
  · rw [if_pos hsame, if_pos (hadded.mpr (Or.inr hsame))]
  · rw [if_neg hsame]
    by_cases hbefore : (cfg.reputation.denyList.filterMap parseIp).contains req'.sourceIp = true
    · rw [if_pos hbefore, if_pos (hadded.mpr (Or.inl hbefore))]
    · rw [if_neg hbefore, if_neg (mt hadded.mp (not_or.mpr ⟨hbefore, hsame⟩))]

end PurpleWolf.Traefik
