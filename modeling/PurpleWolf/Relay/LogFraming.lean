import PurpleWolf.Relay.LogTail

/-! # Line framing of the tailer

While the file is only appended to and no read ends in the middle of a line, the emitted
lines are a prefix of the lines of the file (`emitted_prefix_of_lines`).  The condition is
needed: `read_line` hands out what remains at the end of the file, and the tailer sends it
as it is (`emitted_in_pieces`). -/

namespace PurpleWolf.Relay.LogTail

/-! ### The invariant over one step -/

namespace Framed

variable {base : List Bytes} {w w' : World}

/-- The invariant speaks of the open file, the tailer and the accepted lines only. -/
theorem congr (h : Framed base w) (hcontent : w'.content = w.content) (htail : w'.tail = w.tail)
    (hsent : w'.sent = w.sent) : Framed base w' := by
  obtain ⟨hpos, hle, hframed⟩ := h
  refine ⟨?_, ?_, ?_⟩
  · rw [htail, hpos]
  · rw [htail, hcontent]
    exact hle
  · rw [htail, hcontent, hsent]
    exact hframed

theorem persist (h : Framed base w) (b : Bool) : Framed base (w.persist b) := by
  refine h.congr ?_ (w.persist_tail b) (w.persist_sent b)
  unfold World.content
  rw [w.persist_files, w.persist_tail]

theorem append (h : Framed base w) {t : Bytes} (hcontent : w'.content = w.content ++ t)
    (htail : w'.tail = w.tail) (hsent : w'.sent = w.sent) : Framed base w' := by
  obtain ⟨hpos, hle, hframed⟩ := h
  refine ⟨?_, ?_, ?_⟩
  · rw [htail, hpos]
  · rw [htail, hcontent, List.length_append]
    omega
  · rw [htail, hcontent, hsent, List.take_append_of_le_length hle]
    exact hframed

/-- Leaving a point where no line is in hand for another such point. -/
theorem setPhase (h : Framed base w) {p : Phase} (hactive : w.tail.phase.isStopped = false)
    (hpending : w.tail.phase.pending = []) (hp : p.pending = []) : Framed base (w.setPhase p) := by
  obtain ⟨hpos, hle, ls, hls, hflat, -, hsent⟩ := h
  have heq : w.sent = base ++ ls := by simpa [hpending] using hsent hactive
  refine ⟨hpos, hle, ls, hls, hflat, ?_, ?_⟩
  · exact heq ▸ List.prefix_rfl
  · intro _
    rw [World.setPhase_phase, World.setPhase_sent, hp, List.append_nil, heq]

theorem stop (h : Framed base w) (ok : Bool) : Framed base (w.setPhase (.stopped ok)) := by
  obtain ⟨hpos, hle, ls, hls, hflat, hprefix, -⟩ := h
  exact ⟨hpos, hle, ls, hls, hflat, hprefix, fun hactive => absurd hactive (by simp [Phase.isStopped])⟩

theorem readLine (h : Framed base w) (hphase : w.tail.phase = .reading)
    (hline : w.unread = [] ∨ newline ∈ w.unread) : Framed base w.readLine := by
  unfold World.readLine
  simp only
  split_ifs with hnil hutf8
  · exact h.setPhase (by rw [hphase]; rfl) (by rw [hphase]; rfl) rfl
  · exact h.stop false
  · obtain ⟨hpos, hle, ls, hls, hflat, -, hsent⟩ := h
    have hmem : newline ∈ w.unread := hline.resolve_left (fun he => hnil (nextLine_eq_nil.mpr he))
    have heq : w.sent = base ++ ls := by simpa [hphase, Phase.pending] using hsent (by rw [hphase]; rfl)
    have hlen : (nextLine w.unread).length ≤ w.content.length - w.tail.reader := by
      have := (nextLine_isPrefix w.unread).length_le
      unfold World.unread at this ⊢
      rwa [List.length_drop] at this
    have htake : w.content.take (w.tail.reader + (nextLine w.unread).length) =
        w.content.take w.tail.reader ++ nextLine w.unread := by
      rw [List.take_add]
      exact congrArg _ (take_nextLine w.unread)
    refine ⟨?_, ?_, ls ++ [nextLine w.unread], ?_, ?_, ?_, ?_⟩
    · rw [hpos]
    · show w.tail.reader + _ ≤ w.content.length
      omega
    · intro l hl
      rcases List.mem_append.mp hl with hl | hl
      · exact hls l hl
      · rw [List.mem_singleton.mp hl]
        exact isLine_nextLine hmem
    · show _ = w.content.take (w.tail.reader + (nextLine w.unread).length)
      rw [htake, List.flatten_append, hflat, List.flatten_singleton]
    · rw [heq, ← List.append_assoc]
      exact List.prefix_append _ _
    · intro _
      rw [heq, List.append_assoc]
      rfl

theorem accept (h : Framed base w) {line : Bytes} (hphase : w.tail.phase = .sending line) (b : Bool) :
    Framed base (w.accept line b) := by
  obtain ⟨hpos, hle, ls, hls, hflat, -, hsent⟩ := h
  have heq : w.sent ++ [line] = base ++ ls := by
    have := hsent (by rw [hphase]; rfl)
    rwa [hphase] at this
  have hframed : ∀ n, Framed base
      { w with sent := w.sent ++ [line],
               tail := { w.tail with phase := .reading, emittedSinceBookmark := n } } := by
    intro n
    refine ⟨hpos, hle, ls, hls, hflat, ?_, ?_⟩
    · exact heq ▸ List.prefix_rfl
    · intro _
      rw [heq]
      exact List.append_nil _
  unfold World.accept
  simp only
  split_ifs
  · exact (hframed 0).persist b
  · exact hframed _

/-- **One step of the tailer**, unless it reads an unfinished line or changes the file. -/
theorem tailStep (h : Framed base w) {a : TailAction} (hstep : w.tailStep a = some w')
    (hline : a = .readLine → w.unread = [] ∨ newline ∈ w.unread)
    (hstay : ∀ b, a = .check b → detectRotation w.files.stat w.tail.inode w.tail.position = none) :
    Framed base w' := by
  cases World.tailStep_spec hstep with
  | shutdown | closed => exact (h.stop true).persist _
  | readLine hphase => exact h.readLine hphase (hline rfl)
  | readError => exact h.stop false
  | wake hphase => exact h.setPhase (by rw [hphase]; rfl) (by rw [hphase]; rfl) rfl
  | check hphase =>
      unfold World.check
      rw [hstay _ rfl]
      exact h.setPhase (by rw [hphase]; rfl) (by rw [hphase]; rfl) rfl
  | accept hphase => exact h.accept hphase _

/-- What has been emitted is a prefix of the earlier lines and those of the open file. -/
theorem sent_isPrefix (h : Framed base w) : w.sent <+: base ++ lines w.content := by
  obtain ⟨-, -, ls, hls, hflat, hprefix, -⟩ := h
  have hlines : lines w.content = ls ++ lines w.unread := by
    rw [← lines_flatten_append hls, hflat]
    exact congrArg lines (List.take_append_drop _ _).symm
  rw [hlines, ← List.append_assoc]
  exact hprefix.trans (List.prefix_append _ _)

theorem start {files : Files} {fromBeginning : Bool} {bookmark : Option Bookmark}
    (h : World.start files fromBeginning bookmark = some w) (hzero : w.tail.reader = 0) : Framed [] w := by
  obtain ⟨-, -, -, hpos, hphase, hsent⟩ := World.start_spec h
  refine ⟨hpos, by omega, [], by simp, by rw [hzero]; rfl, by simp [hsent], ?_⟩
  intro _
  rw [hsent, hphase]
  rfl

end Framed

/-! ### Runs over one file -/

/-- The writer only appends. -/
def AppendOnly : Action → Prop
  | .writer (.append _) => True
  | .writer _ => False
  | .tail _ => True

instance : DecidablePred AppendOnly
  | .writer (.append _) => isTrue trivial
  | .writer .rename => isFalse id
  | .writer .create => isFalse id
  | .tail _ => isTrue trivial

/-- A read finds the end of the file or a finished line. -/
def FindsLine (w : World) (a : Action) : Prop := a = .tail .readLine → w.unread = [] ∨ newline ∈ w.unread

instance (w : World) (a : Action) : Decidable (FindsLine w a) := inferInstanceAs (Decidable (_ → _))

/-- The tailer has the file open to which the writer appends. -/
def OnCurrent (w : World) : Prop := w.tail.inode = w.files.rotated.length

theorem OnCurrent.content {w : World} (h : OnCurrent w) : w.content = w.files.current := by
  unfold World.content Files.content Files.contents
  rw [h, List.getElem?_concat_length, Option.getD_some]

theorem onCurrent_start {files : Files} {fromBeginning : Bool} {bookmark : Option Bookmark} {w : World}
    (h : World.start files fromBeginning bookmark = some w) : OnCurrent w := by
  obtain ⟨-, hfiles, hinode, -⟩ := World.start_spec h
  unfold OnCurrent
  rw [hinode, hfiles]

/-- A check while the tailer is on the current file finds nothing to reopen. -/
theorem detectRotation_onCurrent {w : World} {base : List Bytes} (h : OnCurrent w) (hf : Framed base w) :
    detectRotation w.files.stat w.tail.inode w.tail.position = none := by
  have hle := hf.le
  rw [h.content, ← hf.position_eq] at hle
  unfold Files.stat detectRotation
  split_ifs
  · simp only [ne_eq]
    rw [if_neg (by simp [h.symm]), if_neg (by omega)]
  · rfl

/-- **One step of an append-only run.** -/
theorem framed_step {w w' : World} {a : Action} (h : Framed [] w ∧ OnCurrent w)
    (hok : AppendOnly a ∧ FindsLine w a) (hstep : w.step a = some w') : Framed [] w' ∧ OnCurrent w' := by
  obtain ⟨hf, hcur⟩ := h
  cases a with
  | writer a =>
      cases a with
      | append bytes =>
          simp only [World.step, Files.step, Option.map_some, Option.some.injEq] at hstep
          subst hstep
          have hcur' : OnCurrent { w with files := { w.files with current := w.files.current ++ bytes } } := hcur
          refine ⟨hf.append (t := bytes) ?_ rfl rfl, hcur'⟩
          rw [hcur.content]
          exact hcur'.content
      | rename => exact absurd hok.1 id
      | create => exact absurd hok.1 id
  | tail a =>
      have hstay := detectRotation_onCurrent hcur hf
      refine ⟨hf.tailStep hstep ?_ (fun _ _ => hstay), ?_⟩
      · rintro rfl
        exact hok.2 rfl
      · unfold OnCurrent at hcur ⊢
        rw [World.tailStep_files hstep, World.tailStep_inode hstep (fun _ _ => hstay), hcur]

/-- **The emitted lines are lines of the file.**  Whatever the appends and their
interleaving with the reads, if every read finds the end of the file or a finished line,
then in every state of the run the emitted lines are a prefix of the lines of the file. -/
theorem emitted_prefix_of_lines {files : Files} {fromBeginning : Bool} {bookmark : Option Bookmark}
    {w₀ w : World} {actions : List Action} (hstart : World.start files fromBeginning bookmark = some w₀)
    (hzero : w₀.tail.reader = 0)
    (hrun : Run World.step (fun w a => AppendOnly a ∧ FindsLine w a) w₀ actions w) :
    w.sent <+: lines w.files.current := by
  have hinit : Framed [] w₀ ∧ OnCurrent w₀ := ⟨Framed.start hstart hzero, onCurrent_start hstart⟩
  obtain ⟨hf, hcur⟩ := hrun.invariant (fun _ _ _ h hok hstep => framed_step h hok hstep) hinit
  have := hf.sent_isPrefix
  rwa [hcur.content, List.nil_append] at this

/-- A run that waits at the end of the file for its second line. -/
theorem emitted_prefix_of_lines_resumed :
    [[0x61, 0x0A], [0x62, 0x0A]] <+: lines [0x61, 0x0A, 0x62, 0x0A] :=
  emitted_prefix_of_lines
    (show World.start ⟨[], [0x61, 0x0A], true⟩ true none =
      some ⟨⟨[], [0x61, 0x0A], true⟩, ⟨0, 0, 0, 0, .reading⟩, none, []⟩ from rfl) rfl
    (show Run World.step (fun w a => AppendOnly a ∧ FindsLine w a) _
      [.tail .readLine, .tail (.accept true), .tail .readLine, .writer (.append [0x62, 0x0A]), .tail .wake,
        .tail (.check true), .tail .readLine, .tail (.accept true)]
      ⟨⟨[], [0x61, 0x0A, 0x62, 0x0A], true⟩, ⟨0, 4, 4, 2, .reading⟩, none, [[0x61, 0x0A], [0x62, 0x0A]]⟩ by
        decide)

/-- A read between the two appends of one line sends it in pieces. -/
theorem emitted_in_pieces : ∃ w₀ actions w,
    World.start ⟨[], [], true⟩ true none = some w₀ ∧ w₀.tail.reader = 0 ∧
      Run World.step (fun _ a => AppendOnly a) w₀ actions w ∧ w.files.current = [0x61, 0x62, 0x0A] ∧
      w.sent = [[0x61], [0x62, 0x0A]] ∧ ¬ w.sent <+: lines w.files.current := by
  refine ⟨⟨⟨[], [], true⟩, ⟨0, 0, 0, 0, .reading⟩, none, []⟩,
    [.writer (.append [0x61]), .tail .readLine, .tail (.accept true), .writer (.append [0x62, 0x0A]),
      .tail .readLine, .tail (.accept true)],
    ⟨⟨[], [0x61, 0x62, 0x0A], true⟩, ⟨0, 3, 3, 2, .reading⟩, none, [[0x61], [0x62, 0x0A]]⟩, ?_⟩
  decide

end PurpleWolf.Relay.LogTail
