import PurpleWolf.Traefik.HeaderTruncation

/-! # Reading several values from a host (`host.rs`)

`readBufMulti` reads from a host that is a function of the size of the buffer.  Here the host has a
state, so that it may answer as it likes each time, and the slices are taken as the guest takes
them, by index: a slice out of bounds is a panic, and gives `none`.

`readBufMultiFrom_spec` says that this reads what `readBufMulti` does and that it never panics, whatever
the host does.  How often the host is called is seen from the host's side: `recorded` is a host that
notes its calls.  `readBufMultiFrom_delivered` is about hosts that deliver a list. -/

namespace PurpleWolf.Traefik

/-! ### The guest -/

/-- `&buf[start..stop]`. -/
def slice (buf : Bytes) (start stop : ℕ) : Option Bytes :=
  if start ≤ stop ∧ stop ≤ buf.length then some ((buf.take stop).drop start) else none

/-- The loop of `split_nul`, at byte `i`; `rest` are the bytes from there. -/
def splitNulLoop (buf : Bytes) (count : ℕ) : ℕ → ℕ → List Bytes → Bytes → Option (List Bytes)
  | _, _, out, [] => some out
  | i, start, out, b :: rest =>
      if b = 0 then
        (slice buf start i).bind fun value =>
          let out := out ++ [value]
          if out.length = count then some out else splitNulLoop buf count (i + 1) (i + 1) out rest
      else splitNulLoop buf count (i + 1) start out rest

/-- `split_nul(buf, count)`, with its indices. -/
def splitNulAt (buf : Bytes) (count : ℕ) : Option (List Bytes) :=
  let count := min count MAX_MULTI_VALUES
  if count = 0 then some [] else splitNulLoop buf count 0 0 [] buf

/-- A call of a host with a state. -/
abbrev HostCall (σ : Type) := σ → (limit : ℕ) → (Vector UInt8 limit × BitVec 64) × σ

/-- What a read comes to: the values, and the host afterwards. -/
structure MultiRead (σ : Type) where
  values : List Bytes
  host : σ

/-- `read_buf_multi(call)`. -/
def readBufMultiFrom {σ : Type} (call : HostCall σ) (s : σ) : Option (MultiRead σ) :=
  let ((scratch, packed), s) := call s SCRATCH
  let (count, byteLen) := splitPacked packed
  if byteLen ≤ SCRATCH then
    (slice scratch.toList 0 byteLen).bind fun buf =>
      (splitNulAt buf count).map fun values => ⟨values, s⟩
  else if MAX_ALLOC < byteLen then some ⟨[], s⟩
  else
    let cap := byteLen
    let ((big, packed), s) := call s cap
    let (count, byteLen) := splitPacked packed
    if cap < byteLen then some ⟨[], s⟩
    else
      (slice big.toList 0 byteLen).bind fun buf =>
        (splitNulAt buf count).map fun values => ⟨values, s⟩

/-- The same host, which also notes the sizes of the buffers that it is handed. -/
def recorded {σ : Type} (call : HostCall σ) : HostCall (σ × List ℕ) := fun s limit =>
  ((call s.1 limit).1, ((call s.1 limit).2, s.2 ++ [limit]))

/-! ### Splitting by index -/

theorem slice_segment (done segment rest : Bytes) :
    slice (done ++ (segment ++ rest)) done.length (done.length + segment.length) = some segment := by
  unfold slice
  rw [if_pos]
  · rw [List.take_length_add_append, List.take_left', List.drop_left']
    · rfl
    · rfl
  · rw [List.length_append, List.length_append]
    omega

theorem slice_zero {buf : Bytes} {n : ℕ} (h : n ≤ buf.length) : slice buf 0 n = some (buf.take n) := by
  unfold slice
  rw [if_pos ⟨Nat.zero_le n, h⟩, List.drop_zero]

/-- The loop stands after `done` and the `segment` that it has begun; the indices are right. -/
theorem splitNulLoop_eq {count : ℕ} (rest : Bytes) : ∀ (done segment : Bytes) (out : List Bytes), out.length < count →
    splitNulLoop (done ++ (segment ++ rest)) count (done.length + segment.length) done.length out rest =
      some (out ++ splitNulFrom (count - out.length) segment rest) := by
  induction rest with
  | nil =>
      intro done segment out hout
      obtain ⟨left, hleft⟩ := Nat.exists_eq_add_of_lt hout
      rw [splitNulLoop, show count - out.length = left + 1 by omega, splitNulFrom, List.append_nil]
  | cons b rest ih =>
      intro done segment out hout
      obtain ⟨left, hleft⟩ := Nat.exists_eq_add_of_lt hout
      have hcount : count - out.length = left + 1 := by omega
      rw [splitNulLoop, hcount, splitNulFrom]
      split_ifs with hb
      · rw [slice_segment, Option.bind_some]
        have hlength : (out ++ [segment]).length = out.length + 1 := List.length_append
        simp only
        split_ifs with hfull
        · have hleft : left = 0 := by omega
          rw [hleft, splitNulFrom]
        · have hnext := ih (done ++ (segment ++ [b])) [] (out ++ [segment]) (by omega)
          have hbuf : done ++ (segment ++ [b]) ++ ([] ++ rest) = done ++ (segment ++ b :: rest) := by
            simp
          have hindex : (done ++ (segment ++ [b])).length = done.length + segment.length + 1 := by
            simp [Nat.add_assoc]
          rw [hbuf, hindex, List.length_nil, Nat.add_zero, hlength, show count - (out.length + 1) = left by omega,
            List.append_assoc] at hnext
          exact hnext
      · have hnext := ih done (segment ++ [b]) out hout
        have hbuf : done ++ (segment ++ [b] ++ rest) = done ++ (segment ++ b :: rest) := by
          simp
        rw [hbuf, List.length_append, List.length_singleton, hcount] at hnext
        exact hnext

theorem splitNulAt_eq (buf : Bytes) (count : ℕ) : splitNulAt buf count = some (splitNul buf count) := by
  unfold splitNulAt splitNul
  simp only
  split_ifs with hcount
  · rw [hcount, splitNulFrom]
  · exact splitNulLoop_eq buf [] [] [] (Nat.pos_of_ne_zero hcount)

theorem length_splitNulFrom_le : ∀ (left : ℕ) (segment buf : Bytes), (splitNulFrom left segment buf).length ≤ left
  | 0, _, _ => by
      rw [splitNulFrom]
      exact le_rfl
  | _ + 1, _, [] => Nat.zero_le _
  | left + 1, segment, b :: buf => by
      rw [splitNulFrom]
      split_ifs
      · exact Nat.succ_le_succ (length_splitNulFrom_le left [] buf)
      · exact length_splitNulFrom_le (left + 1) (segment ++ [b]) buf

theorem length_splitNul_le (buf : Bytes) (count : ℕ) : (splitNul buf count).length ≤ MAX_MULTI_VALUES :=
  (length_splitNulFrom_le _ _ _).trans (Nat.min_le_right _ _)

/-! ### Any host -/

section

variable {σ : Type} (call : HostCall σ) (s : σ)

/-- The answers that a read can get: the host is first asked with the scratch buffer, and then
perhaps with a larger one. -/
def answers : BufCall 64 := fun limit =>
  if limit = SCRATCH then (call s limit).1 else (call (call s SCRATCH).2 limit).1

/-- The host after some calls. -/
def hostAfter (limits : List ℕ) : σ := limits.foldl (fun s limit => (call s limit).2) s

/-- What a host has noted are the calls that it has had. -/
theorem hostAfter_recorded (limits : List ℕ) : ∀ (s : σ) (noted : List ℕ),
    hostAfter (recorded call) (s, noted) limits = (hostAfter call s limits, noted ++ limits) := by
  induction limits with
  | nil =>
      intro s noted
      rw [List.append_nil]
      rfl
  | cons limit limits ih =>
      intro s noted
      have hrest := ih (call s limit).2 (noted ++ [limit])
      rw [List.append_assoc, List.singleton_append] at hrest
      exact hrest

theorem answers_recorded (noted : List ℕ) : answers (recorded call) (s, noted) = answers call s := rfl

theorem readBufMulti_eq (call : BufCall 64) : readBufMulti call =
    let first := splitPacked (call SCRATCH).2
    if first.2 ≤ SCRATCH then splitNul ((call SCRATCH).1.toList.take first.2) first.1
    else if MAX_ALLOC < first.2 then []
    else
      let second := splitPacked (call first.2).2
      if first.2 < second.2 then [] else splitNul ((call first.2).1.toList.take second.2) second.1 := rfl

theorem readBufMultiFrom_eq : readBufMultiFrom call s =
    let first := splitPacked (call s SCRATCH).1.2
    if first.2 ≤ SCRATCH then
      (slice (call s SCRATCH).1.1.toList 0 first.2).bind fun buf =>
        (splitNulAt buf first.1).map fun values => ⟨values, (call s SCRATCH).2⟩
    else if MAX_ALLOC < first.2 then some ⟨[], (call s SCRATCH).2⟩
    else
      let answer := call (call s SCRATCH).2 first.2
      let second := splitPacked answer.1.2
      if first.2 < second.2 then some ⟨[], answer.2⟩
      else
        (slice answer.1.1.toList 0 second.2).bind fun buf =>
          (splitNulAt buf second.1).map fun values => ⟨values, answer.2⟩ := rfl

/-- The sizes of the buffers that the host is handed. -/
def limits : List ℕ :=
  let needed := (splitPacked (call s SCRATCH).1.2).2
  if needed ≤ SCRATCH ∨ MAX_ALLOC < needed then [SCRATCH] else [SCRATCH, needed]

theorem length_limits_le : (limits call s).length ≤ 2 := by
  unfold limits
  simp only
  split_ifs
  · exact Nat.le_succ 1
  · exact le_rfl

theorem le_of_mem_limits : ∀ limit ∈ limits call s, limit ≤ MAX_ALLOC := by
  have hscratch : SCRATCH ≤ MAX_ALLOC := by decide
  intro limit hlimit
  unfold limits at hlimit
  simp only at hlimit
  split_ifs at hlimit with hone
  · rw [List.mem_singleton.mp hlimit]
    exact hscratch
  · obtain rfl | hlimit := List.mem_cons.mp hlimit
    · exact hscratch
    · rw [List.mem_singleton.mp hlimit]
      omega

/-- **Whatever the host does**, the read ends without a panic: it has called the host with the
buffers of `limits` and with no others, and has read what `readBufMulti` reads. -/
theorem readBufMultiFrom_spec :
    readBufMultiFrom call s = some ⟨readBufMulti (answers call s), hostAfter call s (limits call s)⟩ := by
  obtain ⟨ask, hask⟩ : ∃ ask, answers call s = ask := ⟨_, rfl⟩
  have hfirst : ask SCRATCH = (call s SCRATCH).1 := by
    rw [← hask]
    exact if_pos rfl
  have hsecond : ∀ limit, SCRATCH < limit → ask limit = (call (call s SCRATCH).2 limit).1 := by
    intro limit hlt
    rw [← hask]
    exact if_neg hlt.ne'
  have hlimits : limits call s = let needed := (splitPacked (call s SCRATCH).1.2).2
      if needed ≤ SCRATCH ∨ MAX_ALLOC < needed then [SCRATCH] else [SCRATCH, needed] := rfl
  rw [hask, readBufMulti_eq, readBufMultiFrom_eq, hfirst]
  generalize splitPacked (call s SCRATCH).1.2 = first at hlimits ⊢
  by_cases hfits : first.2 ≤ SCRATCH
  · rw [if_pos (Or.inl hfits)] at hlimits
    rw [if_pos hfits, if_pos hfits, hlimits, slice_zero (by rw [Vector.length_toList]; exact hfits), Option.bind_some,
      splitNulAt_eq]
    rfl
  by_cases hlarge : MAX_ALLOC < first.2
  · rw [if_pos (Or.inr hlarge)] at hlimits
    rw [if_neg hfits, if_neg hfits, if_pos hlarge, if_pos hlarge, hlimits]
    rfl
  rw [if_neg (not_or.mpr ⟨hfits, hlarge⟩)] at hlimits
  have hafter : hostAfter call s (limits call s) = (call (call s SCRATCH).2 first.2).2 := by
    rw [hlimits]
    rfl
  rw [if_neg hfits, if_neg hfits, if_neg hlarge, if_neg hlarge, hsecond first.2 (Nat.lt_of_not_le hfits), hafter]
  generalize call (call s SCRATCH).2 first.2 = second
  by_cases hover : first.2 < (splitPacked second.1.2).2
  · rw [if_pos hover, if_pos hover]
  · rw [if_neg hover, if_neg hover, slice_zero (by rw [Vector.length_toList]; omega), Option.bind_some, splitNulAt_eq]
    rfl

theorem length_readBufMulti_le (call : BufCall 64) : (readBufMulti call).length ≤ MAX_MULTI_VALUES := by
  rw [readBufMulti_eq]
  simp only
  split_ifs
  · exact length_splitNul_le _ _
  · exact Nat.zero_le _
  · exact Nat.zero_le _
  · exact length_splitNul_le _ _

/-- **At most two calls**, as the host itself has noted them. -/
theorem readBufMultiFrom_recorded :
    ∃ r noted, readBufMultiFrom call s = some r ∧
      readBufMultiFrom (recorded call) (s, []) = some ⟨r.values, (r.host, noted)⟩ ∧
        noted.length ≤ 2 ∧ (∀ limit ∈ noted, limit ≤ MAX_ALLOC) ∧ r.values.length ≤ MAX_MULTI_VALUES := by
  have hlimits : limits (recorded call) (s, []) = limits call s := rfl
  have hrecorded := readBufMultiFrom_spec (recorded call) (s, [])
  rw [answers_recorded, hlimits, hostAfter_recorded, List.nil_append] at hrecorded
  exact ⟨_, limits call s, readBufMultiFrom_spec call s, hrecorded, length_limits_le call s, le_of_mem_limits call s,
    length_readBufMulti_le (answers call s)⟩

/-! ### Hosts that deliver a list -/

/-- Asked in any state, the host delivers the list. -/
def AlwaysDelivers (vs : List Bytes) : Prop := ∀ s, Delivers (fun limit => (call s limit).1) vs

theorem delivers_answers {vs : List Bytes} (h : AlwaysDelivers call vs) : Delivers (answers call s) vs := by
  intro limit
  unfold answers
  split_ifs
  · exact h s limit
  · exact h (call s SCRATCH).2 limit

end

/-- **Reading several values.**  A host that delivers a list of texts without NULs is read
right, as far as the number of values that are taken goes; and whatever a host does, at most two
calls reach it, no slice is out of bounds and no more values are returned. -/
theorem readBufMultiFrom_delivered :
    (∀ (σ : Type) (call : HostCall σ) (s : σ) (vs : List Bytes), (∀ v ∈ vs, (0 : UInt8) ∉ v) →
      (aggregate vs).length ≤ MAX_ALLOC → AlwaysDelivers call vs →
        ∃ r, readBufMultiFrom call s = some r ∧ r.values = vs.take MAX_MULTI_VALUES ∧
          (vs.length ≤ MAX_MULTI_VALUES → r.values = vs)) ∧
      ∀ (σ : Type) (call : HostCall σ) (s : σ),
        ∃ r noted, readBufMultiFrom call s = some r ∧
          readBufMultiFrom (recorded call) (s, []) = some ⟨r.values, (r.host, noted)⟩ ∧
            noted.length ≤ 2 ∧ (∀ limit ∈ noted, limit ≤ MAX_ALLOC) ∧ r.values.length ≤ MAX_MULTI_VALUES := by
  constructor
  · intro σ call s vs hnul hle hdelivers
    have hvalues := readBufMulti_of_delivers (delivers_answers call s hdelivers) hnul hle
    refine ⟨_, readBufMultiFrom_spec call s, hvalues, ?_⟩
    intro hlength
    rw [hvalues, List.take_of_length_le hlength]
  · intro σ call s
    exact readBufMultiFrom_recorded call s

/-- A host without a state that delivers a cookie and an empty value. -/
def cookieHost : HostCall Unit := fun _ limit => (delivered [[0x61], []] limit, ())

theorem readBufMultiFrom_delivered_cookie :
    (∃ r, readBufMultiFrom cookieHost () = some r ∧ r.values = [[0x61], []].take MAX_MULTI_VALUES ∧
      (([[0x61], []] : List Bytes).length ≤ MAX_MULTI_VALUES → r.values = [[0x61], []])) ∧
      ∃ r noted, readBufMultiFrom cookieHost () = some r ∧
        readBufMultiFrom (recorded cookieHost) ((), []) = some ⟨r.values, (r.host, noted)⟩ ∧
          noted.length ≤ 2 ∧ (∀ limit ∈ noted, limit ≤ MAX_ALLOC) ∧ r.values.length ≤ MAX_MULTI_VALUES := by
  constructor
  · exact readBufMultiFrom_delivered.1 Unit cookieHost () [[0x61], []] (by decide) (by decide)
      (fun _ => delivers_delivered _)
  · exact readBufMultiFrom_delivered.2 Unit cookieHost ()

end PurpleWolf.Traefik
