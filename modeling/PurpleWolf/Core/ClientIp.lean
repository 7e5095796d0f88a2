import PurpleWolf.Core.Request

/-! # Client address resolution (`request.rs`, `client_ip`)

`clientIp` derives the source address of a request from its proxy headers.

`X-Forwarded-For` is a chain `client, proxy1, proxy2, …` to which every proxy appends the
address it observed.  With `trustHops` set to the number of trusted proxies, the entry to
the left of the trusted ones is what the outermost trusted proxy observed; whatever
stands further left was sent by the client.  `clientIp_prepend_iff` says exactly which
client-supplied text leaves the resolved address alone. -/

namespace PurpleWolf

open Text IpAddr

/-- The first address among the entries left after peeling `trustHops` rightmost ones. -/
def forwardedAddr (trustHops : ℕ) (v : Str) : Option IpAddr :=
  let parts := v.splitOn ','
  if trustHops < parts.length then
    (parts.take (parts.length - trustHops)).findSome? (fun part => parse (trim part))
  else none

/-- What the `X-Forwarded-For` loop returns from a header, if anything. -/
def fromForwarded (trustHops : ℕ) (h : Str × Str) : Option IpAddr :=
  if eqIgnoreAsciiCase h.1 "x-forwarded-for".toList then forwardedAddr trustHops h.2 else none

/-- What the `X-Real-IP` loop returns from a header, if anything. -/
def fromRealIp (h : Str × Str) : Option IpAddr :=
  if eqIgnoreAsciiCase h.1 "x-real-ip".toList then parse (trim h.2) else none

def clientIp (headers : Headers) (peer : IpAddr) (trustHops : ℕ) : IpAddr :=
  if 0 < trustHops then
    ((headers.findSome? (fromForwarded trustHops)).or (headers.findSome? fromRealIp)).getD peer
  else peer

/-! ### Chains -/

/-- One entry of an `X-Forwarded-For` chain: a text without a comma. -/
structure Entry where
  text : Str
  noComma : ',' ∉ text

/-- A header value: texts joined the way proxies append to the chain. -/
def joinChain (texts : List Str) : Str := [',', ' '].intercalate texts

/-- The address an entry stands for. -/
def entryAddr (text : Str) : Option IpAddr := parse (trim text)

/-- The address of the leftmost entry that has one; a text sent by a client may itself
contain commas. -/
def leftmostAddr (texts : List Str) : Option IpAddr :=
  (texts.flatMap (·.splitOn ',')).findSome? entryAddr

/-! ### Splitting a chain -/

theorem entryAddr_blank (s : Str) : entryAddr (' ' :: s) = entryAddr s := by
  unfold entryAddr
  rw [trim_cons_of_isWhitespace (by decide)]

theorem splitOn_joinChain : ∀ texts : List Str, texts ≠ [] →
    ((joinChain texts).splitOn ',').map entryAddr = (texts.flatMap (·.splitOn ',')).map entryAddr
  | [], h => absurd rfl h
  | [s], _ => by simp [joinChain]
  | s :: t :: texts, _ => by
      have ih := splitOn_joinChain (t :: texts) (by simp)
      have hj : joinChain (s :: t :: texts) = s ++ ',' :: ' ' :: joinChain (t :: texts) := by
        simp [joinChain, List.intercalate_cons_of_ne_nil]
      rw [hj, List.splitOn_append_cons_self, List.map_append, List.flatMap_cons, List.map_append, ← ih,
        List.splitOn_cons_eq_if_modifyHead, if_neg (by decide)]
      congr 1
      cases hs : (joinChain (t :: texts)).splitOn ',' with
      | nil => rfl
      | cons p ps => simp [entryAddr_blank]

theorem flatMap_splitOn_entries (ts : List Entry) :
    (ts.map Entry.text).flatMap (·.splitOn ',') = ts.map Entry.text := by
  induction ts with
  | nil => rfl
  | cons t ts ih =>
      rw [List.map_cons, List.flatMap_cons, List.splitOn_eq_singleton t.noComma, ih]
      rfl

/-- Peeling as many entries as there are trusted ones leaves the client's own texts and
the entry the outermost trusted proxy appended. -/
theorem forwardedAddr_joinChain (ps : List Str) (c : Entry) (ts : List Entry) :
    forwardedAddr ts.length (joinChain (ps ++ c.text :: ts.map Entry.text)) =
      (leftmostAddr ps).or (entryAddr c.text) := by
  have hsplit := splitOn_joinChain (ps ++ c.text :: ts.map Entry.text) (by simp)
  rw [List.flatMap_append, List.flatMap_cons, List.splitOn_eq_singleton c.noComma,
    flatMap_splitOn_entries] at hsplit
  unfold forwardedAddr
  generalize (joinChain (ps ++ c.text :: ts.map Entry.text)).splitOn ',' = parts at hsplit
  have hlen : parts.length = (ps.flatMap (·.splitOn ',')).length + 1 + ts.length := by
    have := congrArg List.length hsplit
    simp only [List.length_map, List.length_append, List.length_cons, List.length_nil] at this
    omega
  have hfind : ∀ xs : List Str, xs.findSome? entryAddr = (xs.map entryAddr).findSome? id := by
    intro xs
    rw [List.findSome?_map]
    rfl
  show (if ts.length < parts.length then
    (parts.take (parts.length - ts.length)).findSome? entryAddr else none) = _
  rw [if_pos (by omega), hfind, List.map_take, hsplit, ← List.map_take, ← hfind]
  have htake : parts.length - ts.length = (ps.flatMap (·.splitOn ',') ++ [c.text]).length := by
    rw [List.length_append, List.length_singleton]
    omega
  rw [← List.append_assoc, htake, List.take_left, List.findSome?_append]
  congr 1
  cases h : entryAddr c.text <;> simp [h]

/-! ### Resolution -/

/-- The header list of a request whose first `X-Forwarded-For` value is `v`. -/
structure ForwardedHeaders where
  before : Headers
  name : Str
  after : Headers
  isForwarded : eqIgnoreAsciiCase name "x-forwarded-for".toList = true
  isFirst : ∀ h ∈ before, eqIgnoreAsciiCase h.1 "x-forwarded-for".toList = false

def ForwardedHeaders.headers (f : ForwardedHeaders) (v : Str) : Headers := f.before ++ (f.name, v) :: f.after

theorem clientIp_of_forwardedAddr (f : ForwardedHeaders) {v : Str} {a : IpAddr} {trustHops : ℕ}
    (hn : 0 < trustHops) (ha : forwardedAddr trustHops v = some a) (peer : IpAddr) :
    clientIp (f.headers v) peer trustHops = a := by
  have hbefore : f.before.findSome? (fromForwarded trustHops) = none := by
    rw [List.findSome?_eq_none_iff]
    intro h hm
    unfold fromForwarded
    rw [f.isFirst h hm, if_neg (by decide)]
  have hown : fromForwarded trustHops (f.name, v) = some a := by
    unfold fromForwarded
    rw [if_pos f.isForwarded, ha]
  have hforwarded : (f.headers v).findSome? (fromForwarded trustHops) = some a := by
    unfold ForwardedHeaders.headers
    rw [List.findSome?_append, hbefore, List.findSome?_cons, hown]
    rfl
  unfold clientIp
  rw [if_pos hn, hforwarded]
  rfl

/-- **Which client-supplied text is harmless.**  Behind `ts.length` trusted proxies the
address resolved for `c` survives the texts `ps` sent by the client exactly when the
leftmost address among them, if any, is `c`'s own. -/
theorem clientIp_prepend_iff (f : ForwardedHeaders) (ps : List Str) (c : Entry) (ts : List Entry)
    (hts : ts ≠ []) (peer a : IpAddr) (ha : entryAddr c.text = some a) :
    (clientIp (f.headers (joinChain (ps ++ c.text :: ts.map Entry.text))) peer ts.length =
        clientIp (f.headers (joinChain (c.text :: ts.map Entry.text))) peer ts.length ∧
      clientIp (f.headers (joinChain (c.text :: ts.map Entry.text))) peer ts.length = a) ↔
    (leftmostAddr ps = none ∨ leftmostAddr ps = some a) := by
  have hpos : 0 < ts.length := List.length_pos_iff.mpr hts
  have hown : clientIp (f.headers (joinChain (c.text :: ts.map Entry.text))) peer ts.length = a := by
    apply clientIp_of_forwardedAddr f hpos
    rw [← List.nil_append (c.text :: _), forwardedAddr_joinChain, ha]
    rfl
  have hall : clientIp (f.headers (joinChain (ps ++ c.text :: ts.map Entry.text))) peer ts.length =
      (leftmostAddr ps).getD a := by
    apply clientIp_of_forwardedAddr f hpos
    rw [forwardedAddr_joinChain, ha]
    cases leftmostAddr ps <;> rfl
  rw [hown, hall]
  cases leftmostAddr ps with
  | none => simp
  | some b => simp

/-- The chain of one client behind one trusted proxy. -/
def plainHeaders : ForwardedHeaders where
  before := []
  name := "X-Forwarded-For".toList
  after := []
  isForwarded := by decide
  isFirst := by simp

/-- The header value a client sends takes the place of the address the proxy observed. -/
theorem clientIp_prepend_spoofed :
    entryAddr "203.0.113.7".toList = some (v4 #v[203, 0, 113, 7]) ∧
      clientIp (plainHeaders.headers
        (joinChain ["203.0.113.7".toList, "10.0.0.1".toList])) (v4 #v[127, 0, 0, 1]) 1 =
          v4 #v[203, 0, 113, 7] ∧
      clientIp (plainHeaders.headers
        (joinChain ["6.6.6.6".toList, "203.0.113.7".toList, "10.0.0.1".toList])) (v4 #v[127, 0, 0, 1]) 1 =
          v4 #v[6, 6, 6, 6] := by
  decide

/-- Text that is no address is skipped. -/
theorem clientIp_prepend_garbage :
    clientIp (plainHeaders.headers
        (joinChain ["unknown, x".toList, "203.0.113.7".toList, "10.0.0.1".toList])) (v4 #v[127, 0, 0, 1]) 1 =
      clientIp (plainHeaders.headers
        (joinChain ["203.0.113.7".toList, "10.0.0.1".toList])) (v4 #v[127, 0, 0, 1]) 1 :=
  ((clientIp_prepend_iff plainHeaders ["unknown, x".toList] ⟨"203.0.113.7".toList, by decide⟩
    [⟨"10.0.0.1".toList, by decide⟩] (by decide) (v4 #v[127, 0, 0, 1]) (v4 #v[203, 0, 113, 7])
    (by decide)).mpr (Or.inl (by decide))).1

end PurpleWolf
