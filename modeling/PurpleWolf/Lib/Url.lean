import PurpleWolf.Lib.Text

/-! # URLs with a special scheme

The parser of the URL standard for `http` and `https` URLs without a base.

* **Cleaning.**  Control characters and spaces at the ends are dropped, tabs and newlines
  everywhere.
* **Cutting.**  The text is cut into scheme, authority, path, query and fragment (`cut`).  A
  backslash counts as a slash, and any number of slashes may stand before the authority.
* **The path.**  Its segments are percent-encoded, and dot segments are resolved; `%2e`
  counts as a dot (`resolve`).

The authority is parsed by a parameter, and so are the sets of characters to be encoded,
which have changed between versions of the standard. -/

namespace PurpleWolf

open Text

namespace Url

inductive Scheme where
  | http
  | https
  deriving DecidableEq

/-! ### Percent encoding -/

/-- A byte as a percent sign and two hexadecimal digits. -/
def escape (b : UInt8) : List Char :=
  ['%', (digitChar (b.toNat / 16)).toUpper, (digitChar (b.toNat % 16)).toUpper]

/-- The bytes of a character in the set are escaped. -/
def percentEncodeChar (set : Char → Bool) (c : Char) : List Char :=
  if set c then (String.utf8EncodeChar c).flatMap escape else [c]

def percentEncode (set : Char → Bool) (s : List Char) : List Char := s.flatMap (percentEncodeChar set)

/-- The characters that escapes consist of. -/
def EscapeChar (c : Char) : Prop := c = '%' ∨ (toDigit 16 c).isSome

/-! ### Cleaning -/

/-- A C0 control or a space. -/
def isControlOrSpace (c : Char) : Bool := c.toNat ≤ 0x20

def isTabOrNewline (c : Char) : Bool := c == '\t' || c == '\n' || c == '\r'

def withoutTabs (s : List Char) : List Char := s.filter (fun c => !isTabOrNewline c)

def clean (s : List Char) : List Char := withoutTabs ((s.dropWhile isControlOrSpace).rdropWhile isControlOrSpace)

/-! ### Cutting -/

def isSlash (c : Char) : Bool := c == '/' || c == '\\'

def endsPath (c : Char) : Bool := c == '?' || c == '#'

def endsAuthority (c : Char) : Bool := isSlash c || endsPath c

/-- The text before the first character that `stop` holds of, and from there on. -/
def cutAt (stop : Char → Bool) (s : List Char) : List Char × List Char :=
  (s.takeWhile (fun c => !stop c), s.dropWhile (fun c => !stop c))

/-- The raw parts of a URL. -/
structure Parts where
  scheme : Scheme
  authority : List Char
  path : List Char
  query : Option (List Char)
  fragment : Option (List Char)
  deriving DecidableEq

def readScheme (s : List Char) : Option (Scheme × List Char) :=
  (splitOnce ':' s).bind fun (name, rest) =>
    if eqIgnoreAsciiCase name "http".toList then some (.http, rest)
    else if eqIgnoreAsciiCase name "https".toList then some (.https, rest)
    else none

/-- What follows the path, with its question mark or hash sign. -/
def readTail : List Char → Option (List Char) × Option (List Char)
  | [] => (none, none)
  | c :: s =>
      if c = '?' then
        let (query, rest) := cutAt (· == '#') s
        (some query, rest.tail?)
      else (none, some s)

def cut (s : List Char) : Option Parts :=
  (readScheme s).map fun (scheme, rest) =>
    let (authority, rest) := cutAt endsAuthority (rest.dropWhile isSlash)
    let (path, rest) := cutAt endsPath rest
    let (query, fragment) := readTail rest
    { scheme, authority, path, query, fragment }

/-! ### The path -/

/-- The segments of the raw path; the first slash is not between any. -/
def segments (path : List Char) : List (List Char) := path.tail.splitOnP isSlash

def dots : List (List Char) := [".".toList, "%2e".toList, "%2E".toList]

def SingleDot (seg : List Char) : Prop := seg ∈ dots

def DoubleDot (seg : List Char) : Prop := seg ∈ dots.flatMap fun a => dots.map fun b => a ++ b

instance (seg : List Char) : Decidable (SingleDot seg) := inferInstanceAs (Decidable (seg ∈ _))

instance (seg : List Char) : Decidable (DoubleDot seg) := inferInstanceAs (Decidable (seg ∈ _))

/-- A segment that a slash follows. -/
def push (path : List (List Char)) (seg : List Char) : List (List Char) :=
  if DoubleDot seg then path.dropLast else if SingleDot seg then path else path ++ [seg]

/-- Dot segments are resolved against the path before them.  As the last one, a dot segment
leaves an empty segment. -/
def resolve : List (List Char) → List (List Char) → List (List Char)
  | path, [] => path
  | path, [seg] => push path seg ++ (if DoubleDot seg ∨ SingleDot seg then [[]] else [])
  | path, seg :: seg' :: segs => resolve (push path seg) (seg' :: segs)

end Url

/-! ### The parser -/

/-- A URL as it is requested. -/
structure Url (A : Type) where
  scheme : Url.Scheme
  authority : A
  path : List (List Char)
  query : Option (List Char)
  fragment : Option (List Char)
  deriving DecidableEq

namespace Url

structure Parser (A : Type) where
  authority : Scheme → List Char → Option A
  pathSet : Char → Bool
  querySet : Char → Bool
  fragmentSet : Char → Bool
  /-- Escapes are left alone. -/
  pathSet_escapeChar : ∀ c, EscapeChar c → pathSet c = false

variable {A : Type}

def Parser.path (P : Parser A) (path : List Char) : List (List Char) :=
  resolve [] ((segments path).map (percentEncode P.pathSet))

def Parser.parse (P : Parser A) (input : List Char) : Option (Url A) :=
  (cut (clean input)).bind fun parts =>
    (P.authority parts.scheme parts.authority).map fun authority =>
      { scheme := parts.scheme
        authority := authority
        path := P.path parts.path
        query := parts.query.map (percentEncode P.querySet)
        fragment := parts.fragment.map (percentEncode P.fragmentSet) }

/-! ### Encoding twice -/

theorem digitChar_upper (d : ℕ) (h : d < 16) : toDigit 16 (digitChar d).toUpper = some d := by
  revert d
  decide

theorem escapeChar_of_mem_escape {b : UInt8} {c : Char} (h : c ∈ escape b) : EscapeChar c := by
  have hb := b.toNat_lt
  have hhigh := digitChar_upper (b.toNat / 16) (by omega)
  have hlow := digitChar_upper (b.toNat % 16) (by omega)
  simp only [escape, List.mem_cons, List.not_mem_nil, or_false] at h
  obtain rfl | rfl | rfl := h
  · exact Or.inl rfl
  · exact Or.inr (by rw [hhigh]; rfl)
  · exact Or.inr (by rw [hlow]; rfl)

theorem percentEncode_of_forall {set : Char → Bool} {s : List Char} (h : ∀ c ∈ s, set c = false) :
    percentEncode set s = s := by
  induction s with
  | nil => rfl
  | cons c s ih =>
      rw [List.forall_mem_cons] at h
      unfold percentEncode at ih ⊢
      rw [List.flatMap_cons, ih h.2, percentEncodeChar, if_neg (by rw [h.1]; decide), List.singleton_append]

/-- An encoding that leaves escapes alone adds its characters to those encoded before. -/
theorem percentEncode_percentEncode {set set' : Char → Bool} (h : ∀ c, EscapeChar c → set' c = false) (s : List Char) :
    percentEncode set' (percentEncode set s) = percentEncode (fun c => set c || set' c) s := by
  have hchar : ∀ c, percentEncode set' (percentEncodeChar set c) = percentEncodeChar (fun c => set c || set' c) c := by
    intro c
    cases hset : set c with
    | false => simp [percentEncode, percentEncodeChar, hset]
    | true =>
        simp only [percentEncodeChar, hset, if_true, Bool.true_or]
        apply percentEncode_of_forall
        intro d hd
        obtain ⟨b, -, hb⟩ := List.mem_flatMap.mp hd
        exact h d (escapeChar_of_mem_escape hb)
  calc percentEncode set' (percentEncode set s)
      = s.flatMap (fun c => percentEncode set' (percentEncodeChar set c)) := List.flatMap_assoc
    _ = percentEncode (fun c => set c || set' c) s := by
        simp only [hchar]
        rfl

theorem mem_percentEncode {set : Char → Bool} {s : List Char} {c : Char} (h : c ∈ percentEncode set s) :
    EscapeChar c ∨ c ∈ s ∧ set c = false := by
  obtain ⟨d, hd, hc⟩ := List.mem_flatMap.mp h
  unfold percentEncodeChar at hc
  split_ifs at hc with hset
  · obtain ⟨b, -, hb⟩ := List.mem_flatMap.mp hc
    exact Or.inl (escapeChar_of_mem_escape hb)
  · rw [List.mem_singleton] at hc
    subst hc
    exact Or.inr ⟨hd, by simpa using hset⟩

/-- The sets of the standard.  Of authorities, only ASCII domain names are parsed right. -/
def Parser.standard : Parser (List Char) where
  authority _ authority := if authority = [] then none else some (toAsciiLowercase authority)
  pathSet c := c.toNat < 0x20 || 0x7E < c.toNat || c ∈ " \"#<>?\x60\x7b\x7d".toList
  querySet c := c.toNat < 0x20 || 0x7E < c.toNat || c ∈ " \"#<>'".toList
  fragmentSet c := c.toNat < 0x20 || 0x7E < c.toNat || c ∈ " \"<>\x60".toList
  pathSet_escapeChar c h := by
    obtain rfl | h := h
    · rfl
    · have hall : ∀ c : Char, c.toNat < 0x80 → (toDigit 16 c).isSome →
          (decide (c.toNat < 0x20) || decide (0x7E < c.toNat) ||
            decide (c ∈ " \"#<>?\x60\x7b\x7d".toList)) = false := forall_ascii (by decide)
      exact hall c (toNat_lt_of_toDigit h) h

/-! ### A text in a URL

A URL is put together from what stands before a part of its path, that part, and what stands
after it. -/

def EndsInSlash (s : List Char) : Prop := s.getLast?.any isSlash = true

/-- Nothing, or a character to stop at. -/
def StartsAt (stop : Char → Bool) (s : List Char) : Prop := s.head?.all stop = true

theorem endsInSlash_iff {s : List Char} : EndsInSlash s ↔ ∃ p c, isSlash c = true ∧ s = p ++ [c] := by
  unfold EndsInSlash
  constructor
  · intro h
    cases hc : s.getLast? with
    | none =>
        rw [hc] at h
        cases h
    | some c =>
        rw [hc] at h
        obtain ⟨p, rfl⟩ := List.getLast?_eq_some_iff.mp hc
        exact ⟨p, c, h, rfl⟩
  · rintro ⟨p, c, hslash, rfl⟩
    simpa using hslash

theorem EndsInSlash.append_left {b : List Char} (h : EndsInSlash b) (a : List Char) : EndsInSlash (a ++ b) := by
  obtain ⟨p, c, hslash, rfl⟩ := endsInSlash_iff.mp h
  exact endsInSlash_iff.mpr ⟨a ++ p, c, hslash, by rw [List.append_assoc]⟩

def cleanStart (s : List Char) : List Char := withoutTabs (s.dropWhile isControlOrSpace)

def cleanEnd (s : List Char) : List Char := withoutTabs (s.rdropWhile isControlOrSpace)

theorem isControlOrSpace_of_isTabOrNewline {c : Char} (h : isTabOrNewline c = true) : isControlOrSpace c = true := by
  simp only [isTabOrNewline, Bool.or_eq_true, beq_iff_eq] at h
  obtain (rfl | rfl) | rfl := h <;> rfl

theorem isControlOrSpace_of_isSlash {c : Char} (h : isSlash c = true) : isControlOrSpace c = false := by
  simp only [isSlash, Bool.or_eq_true, beq_iff_eq] at h
  obtain rfl | rfl := h <;> rfl

theorem withoutTabs_append (a b : List Char) : withoutTabs (a ++ b) = withoutTabs a ++ withoutTabs b :=
  List.filter_append ..

theorem withoutTabs_of_forall {s : List Char} (h : ∀ c ∈ s, isControlOrSpace c = false) : withoutTabs s = s := by
  unfold withoutTabs
  rw [List.filter_eq_self]
  intro c hc
  rw [Bool.not_eq_true', Bool.eq_false_iff]
  intro htab
  have hno := h c hc
  rw [isControlOrSpace_of_isTabOrNewline htab] at hno
  cases hno

/-- Where a slash stands at the end, nothing but tabs and newlines can be dropped there. -/
theorem withoutTabs_rdropWhile {s : List Char} (h : EndsInSlash (withoutTabs s)) :
    withoutTabs (s.rdropWhile isControlOrSpace) = withoutTabs s := by
  induction s using List.reverseRecOn with
  | nil => rfl
  | append_singleton s c ih =>
      by_cases hc : isControlOrSpace c = true
      · rw [List.rdropWhile_concat_pos _ _ _ hc]
        rw [withoutTabs_append] at h ⊢
        by_cases htab : isTabOrNewline c = true
        · have hnone : withoutTabs [c] = [] := by simp [withoutTabs, htab]
          rw [hnone, List.append_nil] at h ⊢
          exact ih h
        · have hkeep : withoutTabs [c] = [c] := by simp [withoutTabs, htab]
          rw [hkeep] at h
          have hslash : isSlash c = true := by simpa [EndsInSlash] using h
          rw [isControlOrSpace_of_isSlash hslash] at hc
          cases hc
      · rw [List.rdropWhile_concat_neg _ _ _ hc]

theorem withoutTabs_rdropWhile_append {pre x : List Char} (hpre : EndsInSlash (withoutTabs pre))
    (hx : ∀ c ∈ x, isControlOrSpace c = false) (post : List Char) :
    withoutTabs ((pre ++ (x ++ post)).rdropWhile isControlOrSpace) = withoutTabs pre ++ (x ++ cleanEnd post) := by
  unfold cleanEnd
  induction post using List.reverseRecOn with
  | nil =>
      rw [List.append_nil]
      obtain rfl | ⟨x, c, rfl⟩ := x.eq_nil_or_concat'
      · rw [List.append_nil, withoutTabs_rdropWhile hpre]
        exact (List.append_nil _).symm
      · have hc : ¬ isControlOrSpace c = true := by simp [hx c (by simp)]
        rw [← List.append_assoc, List.rdropWhile_concat_neg _ _ _ hc, List.append_assoc, withoutTabs_append,
          withoutTabs_of_forall hx]
        exact congrArg _ (List.append_nil _).symm
  | append_singleton post c ih =>
      have hassoc : pre ++ (x ++ (post ++ [c])) = (pre ++ (x ++ post)) ++ [c] := by simp
      rw [hassoc]
      by_cases hc : isControlOrSpace c = true
      · rw [List.rdropWhile_concat_pos _ _ _ hc, List.rdropWhile_concat_pos _ _ _ hc]
        exact ih
      · rw [List.rdropWhile_concat_neg _ _ _ hc, List.rdropWhile_concat_neg _ _ _ hc, ← hassoc]
        rw [withoutTabs_append, withoutTabs_append, withoutTabs_of_forall hx]

/-- **Cleaning** goes no further than what surrounds a text without controls and spaces. -/
theorem clean_append {pre x : List Char} (hpre : EndsInSlash (cleanStart pre))
    (hx : ∀ c ∈ x, isControlOrSpace c = false) (post : List Char) :
    clean (pre ++ (x ++ post)) = cleanStart pre ++ (x ++ cleanEnd post) := by
  have hne : ¬ (pre.dropWhile isControlOrSpace).isEmpty = true := by
    intro hnil
    rw [List.isEmpty_iff] at hnil
    unfold cleanStart at hpre
    rw [hnil] at hpre
    cases hpre
  unfold clean
  rw [List.dropWhile_append, if_neg hne]
  exact withoutTabs_rdropWhile_append hpre hx post

/-! ### Cutting a text that goes on -/

section CutAt

variable {stop : Char → Bool}

theorem cutAt_append_of_ne_nil {s a b : List Char} (h : cutAt stop s = (a, b)) (hb : b ≠ []) (t : List Char) :
    cutAt stop (s ++ t) = (a, b ++ t) := by
  obtain ⟨rfl, rfl⟩ := Prod.mk.inj h
  unfold cutAt
  have hlt : ¬ (s.takeWhile (fun c => !stop c)).length = s.length := by
    intro hlen
    apply hb
    have hsum := congrArg List.length (List.takeWhile_append_dropWhile (p := fun c => !stop c) (l := s))
    rw [List.length_append, hlen] at hsum
    exact List.length_eq_zero_iff.mp (by omega)
  rw [List.takeWhile_append, if_neg hlt, List.dropWhile_append, if_neg (by simpa using hb)]

theorem cutAt_append_of_forall {a : List Char} (h : ∀ c ∈ a, stop c = false) (t : List Char) :
    cutAt stop (a ++ t) = (a ++ (cutAt stop t).1, (cutAt stop t).2) := by
  have h' : ∀ c ∈ a, (!stop c) = true := fun c hc => by rw [h c hc]; rfl
  unfold cutAt
  rw [List.takeWhile_append_of_pos h', List.dropWhile_append_of_pos h']

theorem cutAt_spec (stop : Char → Bool) (s : List Char) :
    s = (cutAt stop s).1 ++ (cutAt stop s).2 ∧ ∀ c ∈ (cutAt stop s).1, stop c = false := by
  refine ⟨List.takeWhile_append_dropWhile.symm, ?_⟩
  intro c hc
  simpa using List.mem_takeWhile_imp hc

theorem startsAt_cutAt {t : List Char} (h : StartsAt endsAuthority t) : StartsAt isSlash (cutAt endsPath t).1 := by
  cases t with
  | nil => rfl
  | cons c t =>
      have hc : endsAuthority c = true := by simpa [StartsAt] using h
      unfold cutAt
      by_cases hends : endsPath c = true
      · rw [List.takeWhile_cons_of_neg (by simp [hends])]
        rfl
      · rw [List.takeWhile_cons_of_pos (by simp [hends])]
        simpa [StartsAt, endsAuthority, hends] using hc

end CutAt

theorem readScheme_append {s rest : List Char} {scheme : Scheme} (h : readScheme s = some (scheme, rest))
    (t : List Char) : readScheme (s ++ t) = some (scheme, rest ++ t) := by
  obtain ⟨⟨name, rest'⟩, hsplit, h⟩ := Option.bind_eq_some_iff.mp h
  unfold readScheme
  rw [splitOnce_append_right hsplit]
  simp only [Option.bind_some] at h ⊢
  split_ifs at h ⊢
  · cases h
    rfl
  · cases h
    rfl

theorem exists_of_readScheme {s rest : List Char} {scheme : Scheme} (h : readScheme s = some (scheme, rest)) :
    ∃ front, s = front ++ rest := by
  obtain ⟨⟨name, rest'⟩, hsplit, h⟩ := Option.bind_eq_some_iff.mp h
  have hrest : rest' = rest := by
    simp only at h
    split_ifs at h
    · exact congrArg Prod.snd (Option.some.inj h)
    · exact congrArg Prod.snd (Option.some.inj h)
  subst hrest
  exact ⟨name ++ [':'], by rw [splitOnce_eq_some hsplit]; simp⟩

theorem eq_nil_of_readTail {s : List Char} (h : readTail s = (none, none)) : s = [] := by
  cases s with
  | nil => rfl
  | cons c s =>
      rw [readTail] at h
      split_ifs at h
      · cases h
      · cases h

/-- A text whose path ends with a slash is gone on with in the path. -/
theorem cut_append {s : List Char} {parts : Parts} (h : cut s = some parts) (hpath : EndsInSlash parts.path)
    (hquery : parts.query = none) (hfragment : parts.fragment = none) (t : List Char) :
    EndsInSlash s ∧ cut (s ++ t) = some { parts with
      path := parts.path ++ (cutAt endsPath t).1
      query := (readTail (cutAt endsPath t).2).1
      fragment := (readTail (cutAt endsPath t).2).2 } := by
  obtain ⟨⟨scheme, rest⟩, hscheme, rfl⟩ := Option.map_eq_some_iff.mp h
  simp only at hpath hquery hfragment ⊢
  obtain ⟨front, hfront⟩ := exists_of_readScheme hscheme
  obtain ⟨hrest, -⟩ := cutAt_spec endsAuthority (rest.dropWhile isSlash)
  obtain ⟨hafter, hplain⟩ := cutAt_spec endsPath (cutAt endsAuthority (rest.dropWhile isSlash)).2
  have hend := eq_nil_of_readTail (Prod.ext hquery hfragment)
  rw [hend, List.append_nil] at hafter
  rw [← hafter] at hpath hplain ⊢
  have hne : (cutAt endsAuthority (rest.dropWhile isSlash)).2 ≠ [] := by
    intro hnil
    rw [hnil] at hpath
    cases hpath
  have hdrop : ¬ (rest.dropWhile isSlash).isEmpty = true := by
    rw [List.isEmpty_iff, hrest]
    simp [hne]
  refine ⟨?_, ?_⟩
  · rw [hfront, ← List.takeWhile_append_dropWhile (p := isSlash) (l := rest), hrest]
    exact ((hpath.append_left _).append_left _).append_left _
  have hcut := cutAt_append_of_ne_nil (Prod.mk.eta (p := cutAt endsAuthority (rest.dropWhile isSlash))).symm hne t
  unfold cut
  rw [readScheme_append hscheme]
  simp only [Option.map_some]
  rw [List.dropWhile_append, if_neg hdrop, hcut]
  simp only
  rw [cutAt_append_of_forall hplain]

/-! ### Segments -/

theorem segments_append {p : List Char} (h : EndsInSlash p) (t : List Char) :
    segments (p ++ t) = (segments p).dropLast ++ t.splitOnP isSlash := by
  obtain ⟨q, c, hslash, rfl⟩ := endsInSlash_iff.mp h
  unfold segments
  cases q with
  | nil => rfl
  | cons d q =>
      have hsplit : (q ++ [c]).splitOnP isSlash = q.splitOnP isSlash ++ [[]] := List.splitOnP_append_cons q [] hslash
      simp only [List.cons_append, List.tail_cons, List.append_assoc, List.nil_append]
      rw [List.splitOnP_append_cons q t hslash, hsplit, List.dropLast_concat]

/-- The segments that follow, if there are any. -/
def following : List Char → List (List Char)
  | [] => []
  | _ :: t => t.splitOnP isSlash

theorem splitOnP_append_following {x t : List Char} (hx : ∀ c ∈ x, isSlash c = false) (ht : StartsAt isSlash t) :
    (x ++ t).splitOnP isSlash = x :: following t := by
  cases t with
  | nil => rw [List.append_nil, List.splitOnP_eq_singleton hx]; rfl
  | cons c t =>
      have hc : isSlash c = true := by simpa [StartsAt] using ht
      exact List.splitOnP_append_cons_of_forall_mem hx c hc t

/-! ### Dot segments -/

/-- The dot segments never climb above where they start, `depth` segments up. -/
def Stays : ℕ → List (List Char) → Prop
  | _, [] => True
  | depth, seg :: segs =>
      if DoubleDot seg then 0 < depth ∧ Stays (depth - 1) segs
      else if SingleDot seg then Stays depth segs
      else Stays (depth + 1) segs

theorem push_append {base own : List (List Char)} {seg : List Char} (h : DoubleDot seg → own ≠ []) :
    push (base ++ own) seg = base ++ push own seg := by
  unfold push
  split_ifs with hdouble hsingle
  · exact List.dropLast_append_of_ne_nil (h hdouble)
  · rfl
  · rw [List.append_assoc]

theorem Stays.push {own segs : List (List Char)} {seg : List Char} (h : Stays own.length (seg :: segs)) :
    (DoubleDot seg → own ≠ []) ∧ Stays (push own seg).length segs := by
  unfold Stays at h
  unfold Url.push
  split_ifs at h ⊢ with hdouble hsingle
  · rw [List.length_dropLast]
    exact ⟨fun _ => List.ne_nil_of_length_pos h.1, h.2⟩
  · exact ⟨fun hd => absurd hd hdouble, h⟩
  · rw [List.length_append]
    exact ⟨fun hd => absurd hd hdouble, h⟩

/-- **Where dot segments stay** in what they start from, the path before does not matter. -/
theorem resolve_append {base own : List (List Char)} {segs : List (List Char)} (h : Stays own.length segs) :
    resolve (base ++ own) segs = base ++ resolve own segs := by
  induction segs generalizing own with
  | nil => rfl
  | cons seg segs ih =>
      obtain ⟨hdouble, hstays⟩ := h.push
      cases segs with
      | nil => rw [resolve, resolve, push_append hdouble, List.append_assoc]
      | cons seg' segs => rw [resolve, resolve, push_append hdouble, ih hstays]

theorem resolve_append_segments {path before segs : List (List Char)} (hne : segs ≠ []) :
    resolve path (before ++ segs) = resolve (before.foldl push path) segs := by
  induction before generalizing path with
  | nil => rfl
  | cons seg before ih =>
      rw [List.foldl_cons, ← ih]
      cases hrest : before ++ segs with
      | nil => exact absurd (List.append_eq_nil_iff.mp hrest).2 hne
      | cons seg' rest => rw [List.cons_append, hrest, resolve]

theorem resolve_dot {path : List (List Char)} {seg : List Char} (h : DoubleDot seg ∨ SingleDot seg)
    {after : List (List Char)} (hafter : Stays 0 after) :
    ∃ path', path'.length ≤ path.length ∧
      resolve path (seg :: after) = path' ++ (if after = [] then [[]] else resolve [] after) := by
  have hpush : (push path seg).length ≤ path.length := by
    unfold push
    split_ifs with hdouble hsingle
    · rw [List.length_dropLast]
      omega
    · exact le_rfl
    · exact absurd h (not_or.mpr ⟨hdouble, hsingle⟩)
  refine ⟨push path seg, hpush, ?_⟩
  cases after with
  | nil => simp only [resolve, h, if_true]
  | cons seg' after =>
      have hbase : resolve (push path seg ++ []) (seg' :: after) = push path seg ++ resolve [] (seg' :: after) :=
        resolve_append hafter
      rw [resolve, if_neg (List.cons_ne_nil _ _), ← hbase, List.append_nil]

section Slot

variable {before after : List (List Char)} {seg : List Char}

theorem resolve_segment (h : ¬ (DoubleDot seg ∨ SingleDot seg)) (hafter : Stays 0 after) :
    resolve [] (before ++ seg :: after) = before.foldl push [] ++ seg :: resolve [] after := by
  have hpush : push (before.foldl push []) seg = before.foldl push [] ++ [seg] := by
    unfold push
    rw [if_neg (fun hd => h (Or.inl hd)), if_neg (fun hs => h (Or.inr hs))]
  rw [resolve_append_segments (List.cons_ne_nil _ _)]
  cases after with
  | nil => simp only [resolve, h, hpush, if_false, List.append_nil]
  | cons seg' after =>
      have hbase : resolve (before.foldl push [] ++ [seg] ++ []) (seg' :: after) =
          before.foldl push [] ++ [seg] ++ resolve [] (seg' :: after) := resolve_append hafter
      rw [List.append_nil] at hbase
      rw [resolve, hpush, hbase, List.append_assoc, List.singleton_append]

/-- A dot segment is never found again, not even by another name. -/
theorem resolve_dot_ne (h : DoubleDot seg ∨ SingleDot seg) (hafter : Stays 0 after) {seg' : List Char}
    (hne : seg' ≠ []) :
    resolve [] (before ++ seg :: after) ≠ before.foldl push [] ++ seg' :: resolve [] after := by
  obtain ⟨path', hlen, hpath⟩ : ∃ path', path'.length ≤ (before.foldl push []).length ∧
      resolve (before.foldl push []) (seg :: after) = path' ++ (if after = [] then [[]] else resolve [] after) :=
    resolve_dot h hafter
  rw [resolve_append_segments (List.cons_ne_nil _ _), hpath]
  intro heq
  by_cases hnil : after = []
  · subst hnil
    rw [if_pos rfl, resolve] at heq
    exact hne (List.append_singleton_inj.mp heq).2.symm
  · rw [if_neg hnil] at heq
    have hsame := congrArg List.length heq
    simp only [List.length_append, List.length_cons] at hsame
    omega

end Slot

/-! ### A slot for a segment -/

/-- A character that stands for itself in a segment. -/
def isOpaque (c : Char) : Bool := !endsAuthority c && !isControlOrSpace c

theorem isOpaque_of_escapeChar {c : Char} (h : EscapeChar c) : isOpaque c = true := by
  obtain rfl | h := h
  · rfl
  · have hall : ∀ c : Char, c.toNat < 0x80 → (toDigit 16 c).isSome → isOpaque c = true := forall_ascii (by decide)
    exact hall c (toNat_lt_of_toDigit h) h

/-- The two texts leave a whole segment of the path open between them: before it stands a URL
up to a slash in its path. -/
structure Slot (pre post : List Char) where
  parts : Parts
  cut_eq : cut (cleanStart pre) = some parts
  path : EndsInSlash parts.path
  query : parts.query = none
  fragment : parts.fragment = none
  post : StartsAt endsAuthority (cleanEnd post)

namespace Slot

variable {pre post : List Char} (slot : Slot pre post)

/-- The raw segments before the slot. -/
def before : List (List Char) := (segments slot.parts.path).dropLast

/-- The raw segments after it. -/
def after (_ : Slot pre post) : List (List Char) := following (cutAt endsPath (cleanEnd post)).1

/-- The raw query and fragment. -/
def tail (_ : Slot pre post) : Option (List Char) × Option (List Char) :=
  readTail (cutAt endsPath (cleanEnd post)).2

/-- **What is put into the slot** is a segment, and the other parts are as they were. -/
theorem cut_slot {x : List Char} (hx : ∀ c ∈ x, isOpaque c = true) :
    ∃ path, cut (clean (pre ++ (x ++ post))) =
        some { slot.parts with path, query := slot.tail.1, fragment := slot.tail.2 } ∧
      segments path = slot.before ++ x :: slot.after := by
  have hcontrol : ∀ c ∈ x, isControlOrSpace c = false := by
    intro c hc
    have := hx c hc
    simp only [isOpaque, Bool.and_eq_true, Bool.not_eq_true'] at this
    exact this.2
  have hends : ∀ c ∈ x, isSlash c = false ∧ endsPath c = false := by
    intro c hc
    have := hx c hc
    simp only [isOpaque, endsAuthority, Bool.and_eq_true, Bool.not_eq_true', Bool.or_eq_false_iff] at this
    exact this.1
  obtain ⟨hstart, hcut⟩ := cut_append slot.cut_eq slot.path slot.query slot.fragment (x ++ cleanEnd post)
  rw [cutAt_append_of_forall (fun c hc => (hends c hc).2)] at hcut
  refine ⟨slot.parts.path ++ (x ++ (cutAt endsPath (cleanEnd post)).1), ?_, ?_⟩
  · rw [clean_append hstart hcontrol, hcut]
    rfl
  · rw [segments_append slot.path, splitOnP_append_following (fun c hc => (hends c hc).1) (startsAt_cutAt slot.post)]
    rfl

variable (P : Parser A)

/-- A URL with the parts around the slot and some path. -/
def url (authority : A) (path : List (List Char)) : Url A where
  scheme := slot.parts.scheme
  authority := authority
  path := path
  query := slot.tail.1.map (percentEncode P.querySet)
  fragment := slot.tail.2.map (percentEncode P.fragmentSet)

/-- **Parsing with a segment in the slot.**  Only the path depends on it. -/
theorem parse_slot {x : List Char} (hx : ∀ c ∈ x, isOpaque c = true) :
    P.parse (pre ++ (x ++ post)) =
      (P.authority slot.parts.scheme slot.parts.authority).map fun authority =>
        slot.url P authority (resolve [] (slot.before.map (percentEncode P.pathSet) ++
          percentEncode P.pathSet x :: slot.after.map (percentEncode P.pathSet))) := by
  obtain ⟨path, hcut, hsegments⟩ := slot.cut_slot hx
  have hpath : P.path path = resolve [] (slot.before.map (percentEncode P.pathSet) ++
      percentEncode P.pathSet x :: slot.after.map (percentEncode P.pathSet)) := by
    unfold Parser.path
    rw [hsegments, List.map_append, List.map_cons]
  unfold Parser.parse
  rw [hcut, Option.bind_some]
  simp only [hpath]
  rfl

end Slot

end Url

end PurpleWolf
