import PurpleWolf.Traefik.Host

/-! # The chunks of a body

A host may deliver a body in any pieces, stall for a moment between them, and signal the
end with the last piece or after it (`Chunked`).  `drainBody_delivers` says that the guest
reads the same from all of them: the body up to the cap, whether there is more of it, and
the whole body for the host to restore. -/

namespace PurpleWolf.Traefik

/-- **A stream that delivers a body**, after `stalls` reads in a row that brought nothing.
It never stalls three times in a row. -/
inductive Chunked : ℕ → Bytes → List BodyAnswer → Prop where
  /-- The end comes with the last chunk. -/
  | last {stalls : ℕ} {a : BodyAnswer} (hsize : 0 < a.size) (hle : a.size ≤ SCRATCH) (heof : a.eof = true) :
      Chunked stalls a.chunk [a]
  /-- The end comes with an empty read. -/
  | ended {stalls : ℕ} {a : BodyAnswer} (hsize : a.size = 0) (heof : a.eof = true) : Chunked stalls [] [a]
  | stall {stalls : ℕ} {a : BodyAnswer} {body : Bytes} {answers : List BodyAnswer} (hsize : a.size = 0)
      (heof : a.eof = false) (hstalls : stalls < 2) (rest : Chunked (stalls + 1) body answers) :
      Chunked stalls body (a :: answers)
  | chunk {stalls : ℕ} {a : BodyAnswer} {body : Bytes} {answers : List BodyAnswer} (hsize : 0 < a.size)
      (hle : a.size ≤ SCRATCH) (heof : a.eof = false) (rest : Chunked 0 body answers) :
      Chunked stalls (a.chunk ++ body) (a :: answers)

theorem chunk_of_size_eq_zero {a : BodyAnswer} (h : a.size = 0) : a.chunk = [] := by
  unfold BodyAnswer.chunk
  rw [h, List.take_zero]

namespace Chunked

variable {stalls : ℕ} {body : Bytes} {answers : List BodyAnswer}

theorem deliveredBody_append (h : Chunked stalls body answers) (after : List BodyAnswer) :
    deliveredBody (answers ++ after) = body := by
  induction h with
  | last hsize hle heof =>
      rw [List.singleton_append, deliveredBody, if_pos heof, List.append_nil]
  | ended hsize heof =>
      rw [List.singleton_append, deliveredBody, if_pos heof, List.append_nil, chunk_of_size_eq_zero hsize]
  | stall hsize heof hstalls rest ih =>
      rw [List.cons_append, deliveredBody, heof, if_neg Bool.false_ne_true, ih, chunk_of_size_eq_zero hsize]
      rfl
  | chunk hsize hle heof rest ih =>
      rw [List.cons_append, deliveredBody, heof, if_neg Bool.false_ne_true, ih]

/-- **The loop comes to an end**, and without an error. -/
theorem drainLoop_isOk (h : Chunked stalls body answers) (limit : ℕ) (preserveAfterCap : Bool)
    (after : List BodyAnswer) : ∀ out exceeded preserved, ∃ d bytes,
      drainLoop limit preserveAfterCap (answers ++ after) out stalls exceeded preserved = some d ∧
        d.result = .ok bytes := by
  induction h with
  | last hsize hle heof =>
      intro out exceeded preserved
      rw [List.singleton_append, drainLoop, if_neg (not_lt.mpr hle), if_neg hsize.ne']
      simp only
      split_ifs
      · exact ⟨_, _, rfl, rfl⟩
      · exact ⟨_, _, rfl, rfl⟩
  | ended hsize heof =>
      intro out exceeded preserved
      rw [List.singleton_append, drainLoop, hsize, if_neg (Nat.not_lt_zero _), if_pos rfl, if_pos heof]
      exact ⟨_, _, rfl, rfl⟩
  | @stall stalls a body answers hsize heof hstalls rest ih =>
      intro out exceeded preserved
      have hfew : ¬ MAX_EMPTY_READS ≤ stalls + 1 := by
        unfold MAX_EMPTY_READS
        exact not_le.mpr (by omega)
      rw [List.cons_append, drainLoop, hsize, if_neg (Nat.not_lt_zero _), if_pos rfl, heof,
        if_neg Bool.false_ne_true, if_neg hfew]
      exact ih out exceeded preserved
  | chunk hsize hle heof rest ih =>
      intro out exceeded preserved
      rw [List.cons_append, drainLoop, if_neg (not_lt.mpr hle), if_neg hsize.ne', heof]
      simp only
      rw [if_neg Bool.false_ne_true]
      split_ifs
      · exact ⟨_, _, rfl, rfl⟩
      · exact ih _ _ _

end Chunked

theorem deliveredBody_of_ended {read : List BodyAnswer} {last : BodyAnswer} (hread : ∀ a ∈ read, a.eof = false)
    (hlast : last.eof = true) (after : List BodyAnswer) :
    deliveredBody (read ++ last :: after) = (read ++ [last]).flatMap BodyAnswer.chunk := by
  induction read with
  | nil =>
      rw [List.nil_append, deliveredBody, if_pos hlast, List.nil_append, List.flatMap_singleton, List.append_nil]
  | cons a read ih =>
      rw [List.cons_append, deliveredBody, hread a List.mem_cons_self, if_neg Bool.false_ne_true,
        ih (fun b hb => hread b (List.mem_cons_of_mem _ hb)), List.cons_append, List.flatMap_cons]

/-- What `drain_body` is to return for a body, whatever its chunks. -/
def bodyRead (max : ℕ) (body : Bytes) : BodyRead :=
  ⟨body.take (min max MAX_ALLOC), decide (min max MAX_ALLOC < body.length)⟩

/-- **Any chunking of a body reads the same.**  If everything is to be preserved, the chunks
preserved make up the body; otherwise they do unless the body exceeds the cap. -/
theorem drainBody_delivers {body : Bytes} {answers : List BodyAnswer} (h : Chunked 0 body answers)
    (max : ℕ) (preserveAfterCap : Bool) (after : List BodyAnswer) :
    ∃ d, drainBody max preserveAfterCap (answers ++ after) = some d ∧ d.result = .ok (bodyRead max body) ∧
      (preserveAfterCap = true ∨ (bodyRead max body).exceeded = false → d.preserved.flatten = body) := by
  obtain ⟨d, bytes, hdrain, hok⟩ := h.drainLoop_isOk (min max MAX_ALLOC) preserveAfterCap after [] false []
  have hbody := h.deliveredBody_append after
  obtain ⟨hbytes, hexceeded⟩ := drainLoop_ok _ _ _ _ _ hdrain hok (Nat.zero_le _) (by simp)
  rw [List.nil_append, hbody] at hbytes hexceeded
  have hread : bytes = bodyRead max body := by
    obtain ⟨bytes, exceeded⟩ := bytes
    unfold bodyRead
    simp only [BodyRead.mk.injEq]
    refine ⟨hbytes, ?_⟩
    rw [Bool.eq_iff_iff, decide_eq_true_eq, hexceeded]
    simp
  refine ⟨d, hdrain, hread ▸ hok, ?_⟩
  intro hwhole
  obtain ⟨e, he, -⟩ | ⟨bytes', hok', read, last, hanswers, hnot, hstop, hpreserved⟩ := drainLoop_spec _ _ _ _ _ hdrain
  · rw [hok] at he
    cases he
  · rw [hok] at hok'
    cases hok'
    have heof : last.eof = true := by
      obtain heof | ⟨hcut, hover⟩ := hstop
      · exact heof
      · rw [hread] at hover
        obtain hall | hfits := hwhole
        · rw [hall] at hcut
          cases hcut
        · rw [hfits] at hover
          cases hover
    rw [hpreserved, List.flatten_nil, List.nil_append, ← deliveredBody_of_ended hnot heof d.unread, ← hanswers]
    exact hbody

/-- Three bytes in two chunks, with a stall before each and the end after the second, under
a cap of two. -/
theorem drainBody_delivers_three : ∃ answers d, answers.length = 5 ∧ drainBody 2 true (answers ++ []) = some d ∧
    d.result = .ok ⟨[0x61, 0x61], true⟩ ∧ d.preserved.flatten = [0x61, 0x61, 0x61] := by
  let answer (eof : Bool) (size : ℕ) : BodyAnswer := ⟨Vector.replicate _ 0x61, eof, size⟩
  have h : Chunked 0 ((answer false 1).chunk ++ ((answer false 2).chunk ++ []))
      [answer false 0, answer false 1, answer false 0, answer false 2, answer true 0] :=
    .stall rfl rfl (by decide) (.chunk (by decide) (by decide) rfl
      (.stall rfl rfl (by decide) (.chunk (by decide) (by decide) rfl (.ended rfl rfl))))
  have hchunk : ∀ eof size, size ≤ SCRATCH → (answer eof size).chunk = List.replicate size 0x61 := by
    intro eof size hsize
    unfold BodyAnswer.chunk
    rw [Vector.toList_replicate, List.take_replicate, min_eq_left hsize]
  rw [hchunk false 1 (by decide), hchunk false 2 (by decide)] at h
  obtain ⟨d, hdrain, hok, hpreserved⟩ := drainBody_delivers h 2 true []
  exact ⟨_, d, rfl, hdrain, hok, hpreserved (Or.inl rfl)⟩

end PurpleWolf.Traefik
