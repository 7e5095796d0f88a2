import PurpleWolf.Basic
import PurpleWolf.Lib.Utf8

/-! # The http-wasm host bindings (`host.rs`)

The guest reads from the host through a few raw calls.  Nothing is assumed about the
host: a call that fills a buffer may leave anything in it and return any number, and the
body stream may answer anything.

* **Buffers.**  `BufCall` is one such call, for every size of the buffer it is given.
  `readBuf` and `readBufMulti` make at most two of them.
* **The body.**  `drainBody` reads the body stream.  The model is given the answers of the
  stream one by one; it returns nothing as long as it waits for a further answer.

The warnings that `read_buf` and `read_buf_multi` log are left out. -/

namespace PurpleWolf.Traefik

/-- Largest aggregate value that is allocated in the guest. -/
def MAX_ALLOC : ℕ := 0xFFFFFF

/-- Size of the buffer of a first call. -/
def SCRATCH : ℕ := 2048

/-- Most values that are taken from one call. -/
def MAX_MULTI_VALUES : ℕ := 1024

/-! ### Numbers from the host -/

/-- `n.max(0) as usize`. -/
def asSize (n : BitVec 32) : ℕ := n.toInt.toNat

/-- `(n >> 32) as i32`. -/
def highHalf (n : BitVec 64) : BitVec 32 := (n.sshiftRight 32).setWidth 32

/-- `n as i32`. -/
def lowHalf (n : BitVec 64) : BitVec 32 := n.setWidth 32

/-- Count and length of a multi-value read. -/
def splitPacked (n : BitVec 64) : ℕ × ℕ := (asSize (highHalf n), asSize (lowHalf n))

/-- The end-of-stream flag and the size of a body read. -/
def splitEof (n : BitVec 64) : Bool × ℕ := ((highHalf n).toInt != 0, asSize (lowHalf n))

/-! ### Buffers -/

/-- A call of the host that is handed a buffer: for every size, what the buffer holds
afterwards and the number that is returned. -/
abbrev BufCall (w : ℕ) := (limit : ℕ) → Vector UInt8 limit × BitVec w

def readBuf (call : BufCall 32) : Bytes :=
  let (scratch, needed) := call SCRATCH
  let needed := asSize needed
  if needed ≤ SCRATCH then scratch.toList.take needed
  else if MAX_ALLOC < needed then []
  else
    let (big, actual) := call needed
    let actual := asSize actual
    if needed < actual then [] else big.toList.take actual

/-- The segments in front of the NULs of a buffer, at most `left` of them; `segment` is
what has been read of the current one. -/
def splitNulFrom : ℕ → Bytes → Bytes → List Bytes
  | 0, _, _ => []
  | _ + 1, _, [] => []
  | left + 1, segment, b :: buf =>
      if b = 0 then segment :: splitNulFrom left [] buf else splitNulFrom (left + 1) (segment ++ [b]) buf

def splitNul (buf : Bytes) (count : ℕ) : List Bytes := splitNulFrom (min count MAX_MULTI_VALUES) [] buf

def readBufMulti (call : BufCall 64) : List Bytes :=
  let (scratch, packed) := call SCRATCH
  let (count, byteLen) := splitPacked packed
  if byteLen ≤ SCRATCH then splitNul (scratch.toList.take byteLen) count
  else if MAX_ALLOC < byteLen then []
  else
    let (big, packed) := call byteLen
    let (count, actual) := splitPacked packed
    if byteLen < actual then [] else splitNul (big.toList.take actual) count

/-- Repeated values, joined with `", "`. -/
def joinHeaderValues : List Bytes → Option Str
  | [] => none
  | v :: vs => some (Utf8.decodeLossy (vs.foldl (fun joined value => joined ++ [0x2C, 0x20] ++ value) v))

/-! ### The request body -/

structure BodyRead where
  bytes : Bytes
  exceeded : Bool
  deriving DecidableEq

inductive BodyReadError where
  | bufferingUnsupported
  | streamStalled
  | hostContractViolation
  deriving DecidableEq

namespace BodyReadError

def display : BodyReadError → Str
  | bufferingUnsupported => "http-wasm host does not support request-body buffering".toList
  | streamStalled => "http-wasm request-body stream made no progress".toList
  | hostContractViolation =>
      "http-wasm host returned a body chunk larger than the supplied buffer".toList

/-- Whether the original request can still be forwarded. -/
def forwardingIsSafe (e : BodyReadError) : Bool := e == bufferingUnsupported

end BodyReadError

/-- One answer of the body stream: the buffer afterwards, the end-of-stream flag and the
reported size. -/
structure BodyAnswer where
  scratch : Vector UInt8 SCRATCH
  eof : Bool
  size : ℕ

/-- The bytes that an answer delivers. -/
def BodyAnswer.chunk (a : BodyAnswer) : Bytes := a.scratch.toList.take a.size

/-- A finished body read: its result, the chunks handed to `preserve`, and the answers
that were not asked for. -/
structure Drained where
  result : Except BodyReadError BodyRead
  preserved : List Bytes
  unread : List BodyAnswer

def MAX_EMPTY_READS : ℕ := 3

/-- The loop of `drain_body`. -/
def drainLoop (limit : ℕ) (preserveAfterCap : Bool) :
    List BodyAnswer → Bytes → ℕ → Bool → List Bytes → Option Drained
  | [], _, _, _, _ => none
  | a :: answers, out, emptyReads, exceeded, preserved =>
      if SCRATCH < a.size then some ⟨.error .hostContractViolation, preserved, answers⟩
      else if a.size = 0 then
        if a.eof then some ⟨.ok ⟨out, exceeded⟩, preserved, answers⟩
        else if MAX_EMPTY_READS ≤ emptyReads + 1 then some ⟨.error .streamStalled, preserved, answers⟩
        else drainLoop limit preserveAfterCap answers out (emptyReads + 1) exceeded preserved
      else
        let preserved := preserved ++ [a.chunk]
        let take := min (limit - out.length) a.size
        let out := out ++ a.chunk.take take
        let exceeded := exceeded || decide (take < a.size)
        if take < a.size ∧ preserveAfterCap = false then some ⟨.ok ⟨out, exceeded⟩, preserved, answers⟩
        else if a.eof then some ⟨.ok ⟨out, exceeded⟩, preserved, answers⟩
        else drainLoop limit preserveAfterCap answers out 0 exceeded preserved

/-- `drain_body(max, preserve_after_cap, ..)` on a stream with the given answers. -/
def drainBody (max : ℕ) (preserveAfterCap : Bool) (answers : List BodyAnswer) : Option Drained :=
  drainLoop (min max MAX_ALLOC) preserveAfterCap answers [] 0 false []

/-! ### The host -/

/-- What the host answers while one request is handled. -/
structure Host where
  method : BufCall 32
  uri : BufCall 32
  sourceAddr : BufCall 32
  headerNames : BufCall 64
  headerValues : Bytes → BufCall 64
  /-- the result of `enable_features(FEATURE_BUFFER_REQUEST)` -/
  features : BitVec 32
  /-- the buffer after each `read_body`, and the number returned -/
  body : List (Vector UInt8 SCRATCH × BitVec 64)

def FEATURE_BUFFER_REQUEST : BitVec 32 := 1

namespace Host

variable (host : Host)

def getMethod : Str := Utf8.decodeLossy (readBuf host.method)

def getUri : Str := Utf8.decodeLossy (readBuf host.uri)

def getSourceAddr : Str := Utf8.decodeLossy (readBuf host.sourceAddr)

def getRequestHeaderNames : List Str := (readBufMulti host.headerNames).map Utf8.decodeLossy

def getRequestHeader (name : Str) : Option Str :=
  joinHeaderValues (readBufMulti (host.headerValues (Utf8.encode name)))

def enableRequestBuffering : Bool := host.features &&& FEATURE_BUFFER_REQUEST != 0

/-- The answers of the body stream, with the returned numbers split. -/
def bodyAnswers : List BodyAnswer :=
  host.body.map (fun (scratch, packed) => ⟨scratch, (splitEof packed).1, (splitEof packed).2⟩)

def readRequestBody (max : ℕ) (preserveAfterCap : Bool) : Option Drained :=
  if host.enableRequestBuffering then drainBody max preserveAfterCap host.bodyAnswers
  else some ⟨.error .bufferingUnsupported, [], host.bodyAnswers⟩

end Host

/-! ### The body stream -/

/-- Every chunk that was read has been preserved, after those given; the loop stopped at
the end of the stream or, if nothing is to be preserved after the cap, at the cap. -/
def Drained.Through (d : Drained) (preserveAfterCap exceeded : Bool) (answers : List BodyAnswer)
    (preserved : List Bytes) : Prop :=
  ∃ read last, answers = read ++ last :: d.unread ∧ (∀ a ∈ read, a.eof = false) ∧
    (last.eof = true ∨ preserveAfterCap = false ∧ exceeded = true) ∧
    d.preserved.flatten = preserved.flatten ++ (read ++ [last]).flatMap BodyAnswer.chunk

theorem Drained.Through.cons {d : Drained} {preserveAfterCap exceeded : Bool} {a : BodyAnswer}
    {answers : List BodyAnswer} {preserved preserved' : List Bytes}
    (h : d.Through preserveAfterCap exceeded answers preserved')
    (hpreserved : preserved'.flatten = preserved.flatten ++ a.chunk) (ha : a.eof = false) :
    d.Through preserveAfterCap exceeded (a :: answers) preserved := by
  obtain ⟨read, last, rfl, hread, hlast, hflat⟩ := h
  refine ⟨a :: read, last, rfl, ?_, hlast, ?_⟩
  · intro b hb
    rcases List.mem_cons.mp hb with rfl | hb
    · exact ha
    · exact hread b hb
  · rw [hflat, hpreserved, List.append_assoc]
    rfl

/-- What the loop has done when it returns: an error comes after the host has been read
from, and a body comes with everything preserved. -/
theorem drainLoop_spec {limit : ℕ} {preserveAfterCap : Bool} {d : Drained} :
    ∀ (answers : List BodyAnswer) (out : Bytes) (emptyReads : ℕ) (exceeded : Bool) (preserved : List Bytes),
      drainLoop limit preserveAfterCap answers out emptyReads exceeded preserved = some d →
        (∃ e, d.result = .error e ∧ e.forwardingIsSafe = false) ∨
          ∃ body, d.result = .ok body ∧ d.Through preserveAfterCap body.exceeded answers preserved
  | [], _, _, _, _, h => by
      unfold drainLoop at h
      cases h
  | a :: answers, out, emptyReads, exceeded, preserved, h => by
      unfold drainLoop at h
      split_ifs at h with hlarge hempty heof hstalled heof
      · cases h
        exact Or.inl ⟨_, rfl, rfl⟩
      · cases h
        exact Or.inr ⟨_, rfl, [], a, rfl, by simp, Or.inl heof, by simp [BodyAnswer.chunk, hempty]⟩
      · cases h
        exact Or.inl ⟨_, rfl, rfl⟩
      · apply (drainLoop_spec answers _ _ _ _ h).imp_right
        rintro ⟨body, hok, hthrough⟩
        exact ⟨body, hok, hthrough.cons (by simp [BodyAnswer.chunk, hempty]) (by simpa using heof)⟩
      · simp only [ite_self] at h
        cases h
        exact Or.inr ⟨_, rfl, [], a, rfl, by simp, Or.inl heof, by simp⟩
      · simp only at h
        split_ifs at h with hcap
        · cases h
          exact Or.inr ⟨_, rfl, [], a, rfl, by simp, Or.inr ⟨hcap.2, by simp [hcap.1]⟩, by simp⟩
        · apply (drainLoop_spec answers _ _ _ _ h).imp_right
          rintro ⟨body, hok, hthrough⟩
          exact ⟨body, hok, hthrough.cons (by simp) (by simpa using heof)⟩

/-- The bytes that a stream delivers up to its end. -/
def deliveredBody : List BodyAnswer → Bytes
  | [] => []
  | a :: answers => a.chunk ++ if a.eof then [] else deliveredBody answers

theorem length_chunk (a : BodyAnswer) (h : a.size ≤ SCRATCH) : a.chunk.length = a.size := by
  unfold BodyAnswer.chunk
  rw [List.length_take, Vector.length_toList]
  exact min_eq_left h

theorem append_take_chunk {limit : ℕ} {out : Bytes} (chunk : Bytes) (hout : out.length ≤ limit) :
    out ++ chunk.take (min (limit - out.length) chunk.length) = (out ++ chunk).take limit := by
  rw [List.take_append, List.take_of_length_le hout]
  congr 1
  rw [List.take_eq_take_iff]
  omega

theorem take_take_append (limit : ℕ) (out rest : Bytes) :
    (out.take limit ++ rest).take limit = (out ++ rest).take limit := by
  rw [List.take_append, List.take_append, List.take_take, min_self, List.length_take]
  congr 1
  rw [List.take_eq_take_iff]
  omega

/-- What a body read returns: the delivered bytes up to the limit, and whether there are
more of them. -/
theorem drainLoop_ok {limit : ℕ} {preserveAfterCap : Bool} {d : Drained} {body : BodyRead} :
    ∀ (answers : List BodyAnswer) (out : Bytes) (emptyReads : ℕ) (exceeded : Bool) (preserved : List Bytes),
      drainLoop limit preserveAfterCap answers out emptyReads exceeded preserved = some d →
        d.result = .ok body → out.length ≤ limit → (exceeded = true → out.length = limit) →
          body.bytes = (out ++ deliveredBody answers).take limit ∧
            (body.exceeded = true ↔ exceeded = true ∨ limit < (out ++ deliveredBody answers).length)
  | [], _, _, _, _, h, _, _, _ => by
      unfold drainLoop at h
      cases h
  | a :: answers, out, emptyReads, exceeded, preserved, h, hok, hout, hfull => by
      unfold drainLoop at h
      unfold deliveredBody
      split_ifs at h with hlarge hempty heof hstalled heof
      · cases h
        cases hok
      · cases h
        cases hok
        have hchunk : a.chunk = [] := by simp [BodyAnswer.chunk, hempty]
        rw [hchunk, if_pos heof, List.append_nil, List.append_nil, List.take_of_length_le hout]
        refine ⟨rfl, ?_⟩
        have : ¬ limit < out.length := not_lt.mpr hout
        simp [this]
      · cases h
        cases hok
      · have hchunk : a.chunk = [] := by simp [BodyAnswer.chunk, hempty]
        rw [hchunk, if_neg heof, List.nil_append]
        exact drainLoop_ok answers _ _ _ _ h hok hout hfull
      all_goals
        have hlen := length_chunk a (not_lt.mp hlarge)
        have hkept := append_take_chunk a.chunk hout
        rw [hlen] at hkept
        simp only [hkept] at h
        have hshort : min (limit - out.length) a.size < a.size ↔ limit < (out ++ a.chunk).length := by
          rw [List.length_append, hlen]
          omega
        have hcut : (exceeded || decide (min (limit - out.length) a.size < a.size)) = true ↔
            exceeded = true ∨ limit < (out ++ a.chunk).length := by
          rw [Bool.or_eq_true, decide_eq_true_eq, hshort]
      · simp only [ite_self] at h
        cases h
        cases hok
        rw [if_pos heof, List.append_nil]
        exact ⟨rfl, hcut⟩
      · split_ifs at h with hstop
        · cases h
          cases hok
          have hover := hshort.mp hstop.1
          rw [if_neg heof, ← List.append_assoc, List.take_append_of_le_length hover.le]
          refine ⟨rfl, ?_⟩
          rw [hcut]
          apply or_congr_right
          simp only [List.length_append] at hover ⊢
          omega
        · have hnext := drainLoop_ok answers _ _ _ _ h hok (List.length_take_le _ _) ?_
          · rw [if_neg heof, ← List.append_assoc]
            rw [take_take_append, hcut] at hnext
            refine ⟨hnext.1, ?_⟩
            rw [hnext.2, or_assoc]
            apply or_congr_right
            simp only [List.length_append, List.length_take]
            omega
          · rw [hcut, List.length_take, List.length_append]
            intro hexc
            have := hexc.imp_left hfull
            omega

/-- **A body that was read**: what the host delivers, cut at the cap. -/
theorem readRequestBody_bytes {host : Host} {max : ℕ} {preserveAfterCap : Bool} {d : Drained} {body : BodyRead}
    (h : host.readRequestBody max preserveAfterCap = some d) (hok : d.result = .ok body) :
    body.bytes = (deliveredBody host.bodyAnswers).take (min max MAX_ALLOC) ∧
      (body.exceeded = true ↔ min max MAX_ALLOC < (deliveredBody host.bodyAnswers).length) := by
  unfold Host.readRequestBody at h
  split_ifs at h
  · have hread := drainLoop_ok host.bodyAnswers [] 0 false [] h hok (Nat.zero_le _) (by simp)
    simpa using hread
  · cases h
    cases hok

end PurpleWolf.Traefik
