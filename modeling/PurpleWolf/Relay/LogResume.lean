import PurpleWolf.Relay.LogRotation

/-! # Resuming from the bookmark

A run of the tailer that ends with a shutdown persists the offset up to which its lines
have been accepted, and the next run starts there: together they emit a piece of the file's
lines without a gap or a repetition (`resumed_contiguous`).  A run that ends because the
channel is closed also persists its offset, but that offset covers the line it could not
hand over (`closed_leaves_gap`).

A run that starts in the middle of the file is compared with one that has already emitted
the lines before that place: `World.prepend` adds them. -/

namespace PurpleWolf.Relay.LogTail

/-! ### Lines emitted before the start -/

/-- The world as if these lines had been accepted first. -/
def World.prepend (pre : List Bytes) (w : World) : World := { w with sent := pre ++ w.sent }

namespace World

variable (pre : List Bytes) (w : World)

theorem persist_prepend (b : Bool) : (w.persist b).prepend pre = (w.prepend pre).persist b := by
  unfold persist
  split_ifs <;> rfl

theorem readLine_prepend : w.readLine.prepend pre = (w.prepend pre).readLine := by
  unfold readLine
  simp only
  split_ifs with h1 h2 h3 h4
  all_goals first | rfl | contradiction

theorem check_prepend (b : Bool) : (w.check b).prepend pre = (w.prepend pre).check b := by
  unfold check
  rw [show (w.prepend pre).files = w.files from rfl, show (w.prepend pre).tail = w.tail from rfl]
  cases detectRotation w.files.stat w.tail.inode w.tail.position with
  | none => rfl
  | some inode => exact persist_prepend pre _ b

theorem accept_prepend (line : Bytes) (b : Bool) : (w.accept line b).prepend pre = (w.prepend pre).accept line b := by
  unfold accept
  simp only
  rw [show (w.prepend pre).tail = w.tail from rfl]
  split_ifs
  · rw [persist_prepend]
    unfold prepend
    rw [List.append_assoc]
  · unfold prepend
    rw [List.append_assoc]

/-- What has been emitted before does not influence a step. -/
theorem step_prepend (a : Action) : (w.prepend pre).step a = (w.step a).map (prepend pre) := by
  cases a with
  | writer a =>
      unfold step
      rw [Option.map_map]
      rfl
  | tail a =>
      show (w.prepend pre).tailStep a = (w.tailStep a).map (prepend pre)
      unfold tailStep
      rw [show (w.prepend pre).tail = w.tail from rfl]
      split
      all_goals
        simp only [Option.map_some, Option.map_none, persist_prepend, readLine_prepend, check_prepend,
          accept_prepend]
      all_goals rfl

end World

/-! ### Tracking the file -/

/-- The tailer follows a file of whole lines to which the writer only appends; `pre` are
the lines before the place where it started. -/
structure Tracking (pre : List Bytes) (w : World) : Prop where
  framed : Framed [] (w.prepend pre)
  onCurrent : OnCurrent w
  linked : w.files.linked = true
  whole : Whole w.files.current

namespace Tracking

variable {pre : List Bytes} {w w' : World}

theorem content (h : Tracking pre w) : w.content = w.files.current := h.onCurrent.content

theorem unread_line (h : Tracking pre w) : w.unread = [] ∨ newline ∈ w.unread := by
  obtain ⟨-, -, ls, hls, hflat, -⟩ := h.framed
  have hsplit : ls.flatten ++ w.unread = w.files.current := by
    rw [hflat, ← h.content]
    exact List.take_append_drop _ _
  have hunread : Whole w.unread := Whole.of_flatten_append hls (hsplit ▸ h.whole)
  by_cases hnil : w.unread = []
  · exact Or.inl hnil
  · exact Or.inr (hunread.newline_mem hnil)

theorem emitted (h : Tracking pre w) : pre ++ w.sent <+: lines w.files.current := by
  have hprefix := h.framed.sent_isPrefix
  rw [List.nil_append] at hprefix
  rw [← h.content]
  exact hprefix

/-- While the tailer has no line in hand, it has emitted all that it has read. -/
theorem flatten_sent (h : Tracking pre w) (hactive : w.tail.phase.isStopped = false)
    (hpending : w.tail.phase.pending = []) :
    (pre ++ w.sent).flatten = w.content.take w.tail.position ∧ ∀ l ∈ pre ++ w.sent, IsLine l := by
  obtain ⟨hpos, -, ls, hls, hflat, -, hsent⟩ := h.framed
  have heq : pre ++ w.sent = ls := by
    have := hsent hactive
    rw [show (w.prepend pre).tail = w.tail from rfl, hpending, List.append_nil] at this
    exact this
  have hpos' : w.tail.position = w.tail.reader := hpos
  constructor
  · rw [heq, hpos']
    exact hflat
  · rw [heq]
    exact hls

theorem step (h : Tracking pre w) {a : Action} (hok : AppendOnly a ∧ AppendsLines a) (hstep : w.step a = some w') :
    Tracking pre w' := by
  have hprepended : (w.prepend pre).step a = some (w'.prepend pre) := by
    rw [World.step_prepend, hstep, Option.map_some]
  have hfinds : FindsLine (w.prepend pre) a := fun _ => h.unread_line
  obtain ⟨hframed, hcur⟩ := framed_step ⟨h.framed, h.onCurrent⟩ ⟨hok.1, hfinds⟩ hprepended
  cases a with
  | writer a =>
      cases a with
      | append bytes =>
          cases hstep
          exact ⟨hframed, hcur, h.linked, h.whole.append hok.2⟩
      | rename => exact absurd hok.1 id
      | create => exact absurd hok.1 id
  | tail a =>
      have hfiles := World.tailStep_files hstep
      refine ⟨hframed, hcur, ?_, ?_⟩
      · rw [hfiles]
        exact h.linked
      · rw [hfiles]
        exact h.whole

theorem start {files : Files} {fromBeginning : Bool} {bookmark : Option Bookmark}
    (h : World.start files fromBeginning bookmark = some w) (hwhole : Whole files.current)
    (hpre : ∀ l ∈ pre, IsLine l) (hflat : pre.flatten = files.current.take w.tail.reader)
    (hle : w.tail.reader ≤ files.current.length) : Tracking pre w := by
  obtain ⟨hlinked, hfiles, -, hpos, hphase, hsent⟩ := World.start_spec h
  have hcur := onCurrent_start h
  have hcontent : w.content = files.current := by rw [hcur.content, hfiles]
  constructor
  · refine ⟨hpos, ?_, pre, hpre, ?_, ?_, ?_⟩
    · show w.tail.reader ≤ w.content.length
      rw [hcontent]
      exact hle
    · show pre.flatten = w.content.take w.tail.reader
      rw [hcontent, hflat]
    · show pre ++ w.sent <+: [] ++ pre
      rw [hsent, List.append_nil, List.nil_append]
    · intro _
      show pre ++ w.sent ++ w.tail.phase.pending = [] ++ pre
      rw [hsent, hphase, List.append_nil, List.nil_append]
      exact List.append_nil _
  · exact hcur
  · rw [hfiles]
    exact hlinked
  · rw [hfiles]
    exact hwhole

end Tracking

/-! ### Stopping -/

/-- A tailer that has returned without an error has left a bookmark behind what it has
emitted. -/
structure Resumable (pre : List Bytes) (w : World) : Prop where
  tracking : Tracking pre w
  marked : w.tail.phase = .stopped true → w.bookmark = some ⟨w.tail.inode, w.tail.position⟩ ∧
    (pre ++ w.sent).flatten = w.content.take w.tail.position ∧ ∀ l ∈ pre ++ w.sent, IsLine l

/-- A step of a run that no closed channel ends, and whose last bookmark reaches the disk. -/
def Graceful (_ : World) (a : Action) : Prop :=
  (AppendOnly a ∧ AppendsLines a) ∧ a ≠ .tail (.shutdown false) ∧ ∀ b, a ≠ .tail (.closed b)

instance (w : World) (a : Action) : Decidable (Graceful w a) :=
  have : Decidable (∀ b, a ≠ .tail (.closed b)) :=
    decidable_of_iff (a ≠ .tail (.closed true) ∧ a ≠ .tail (.closed false))
    ⟨fun h b => by cases b; exacts [h.2, h.1], fun h => ⟨h true, h false⟩⟩
  inferInstanceAs (Decidable (_ ∧ _))

theorem World.tailStep_stopped {w w' : World} {a : TailAction} (h : w.tailStep a = some w')
    (hstopped : w'.tail.phase = .stopped true) :
    (∃ b, a = .shutdown b ∧ w.tail.phase.isStopped = false ∧ w.tail.phase.pending = [] ∧
        w' = (w.setPhase (.stopped true)).persist b) ∨ ∃ b, a = .closed b := by
  cases World.tailStep_spec h with
  | shutdown hphase =>
      left
      obtain hphase | hphase := hphase <;> rw [hphase] <;> exact ⟨_, rfl, rfl, rfl, rfl⟩
  | readLine =>
      exfalso
      unfold World.readLine at hstopped
      simp only at hstopped
      split_ifs at hstopped <;> cases hstopped
  | readError | wake => cases hstopped
  | check =>
      exfalso
      unfold World.check at hstopped
      split at hstopped
      · rw [World.persist_tail] at hstopped
        cases hstopped
      · cases hstopped
  | accept =>
      exfalso
      unfold World.accept at hstopped
      simp only at hstopped
      split_ifs at hstopped
      rw [World.persist_tail] at hstopped
      cases hstopped
  | closed => exact Or.inr ⟨_, rfl⟩

theorem Resumable.step {pre : List Bytes} {w w' : World} {a : Action} (h : Resumable pre w) (hok : Graceful w a)
    (hstep : w.step a = some w') : Resumable pre w' := by
  obtain ⟨hlines, hpersisted, hopen⟩ := hok
  refine ⟨h.tracking.step hlines hstep, ?_⟩
  intro hstopped
  cases a with
  | writer a =>
      cases a with
      | append bytes =>
          cases hstep
          obtain ⟨hmark, hflat, hall⟩ := h.marked hstopped
          refine ⟨hmark, ?_, hall⟩
          have hcur' : OnCurrent { w with files := { w.files with current := w.files.current ++ bytes } } :=
            h.tracking.onCurrent
          have hpos : w.tail.position = w.tail.reader := h.tracking.framed.position_eq
          have hle : w.tail.reader ≤ w.content.length := h.tracking.framed.le
          rw [h.tracking.content] at hle hflat
          rw [hflat, hcur'.content]
          exact (List.take_append_of_le_length (hpos.trans_le hle)).symm
      | rename => exact absurd hlines.1 id
      | create => exact absurd hlines.1 id
  | tail a =>
      rcases World.tailStep_stopped hstep hstopped with ⟨b, rfl, hactive, hpending, rfl⟩ | ⟨b, rfl⟩
      · obtain ⟨hflat, hall⟩ := h.tracking.flatten_sent hactive hpending
        cases b with
        | false => exact absurd rfl hpersisted
        | true => exact ⟨rfl, hflat, hall⟩
      · exact absurd rfl (hopen b)

/-! ### Two runs -/

/-- The bookmark, if it is one of the file at the path, stands behind a line. -/
def AtLineEnd (files : Files) (bookmark : Option Bookmark) : Prop :=
  ∀ bm ∈ bookmark, bm.inode = files.rotated.length → Whole (files.current.take bm.position)

theorem start_behind_lines {files : Files} {fromBeginning : Bool} {bookmark : Option Bookmark} {w : World}
    (h : World.start files fromBeginning bookmark = some w) (hwhole : Whole files.current)
    (hmark : AtLineEnd files bookmark) :
    Whole (files.current.take w.tail.reader) ∧ w.tail.reader ≤ files.current.length := by
  have hends : ∀ fromBeginning : Bool, Whole (files.current.take (if fromBeginning then 0 else files.current.length)) ∧
      (if fromBeginning then 0 else files.current.length) ≤ files.current.length := by
    intro fromBeginning
    cases fromBeginning
    · simpa using hwhole
    · simpa using Whole.nil
  rw [World.start_reader h]
  unfold openAtStart
  cases bookmark with
  | none => exact hends fromBeginning
  | some bm =>
      simp only
      by_cases hinode : bm.inode = files.rotated.length
      · rw [if_pos hinode]
        refine ⟨?_, min_le_right _ _⟩
        rw [← List.take_take, List.take_length]
        exact hmark bm rfl hinode
      · rw [if_neg hinode]
        exact hends fromBeginning

/-- **Restart continuity.**  The first run starts behind a line and returns because of a
shutdown, with its bookmark on the disk; lines may be appended at any time, also between
the runs.  The lines accepted in the first run and then in the second are a piece of the
lines of the file. -/
theorem resumed_contiguous {files : Files} {fromBeginning fromBeginning' : Bool} {bookmark : Option Bookmark}
    {w₀ w₁ v₀ v : World} {actions actions' : List Action} (hwhole : Whole files.current)
    (hmark : AtLineEnd files bookmark) (hstart : World.start files fromBeginning bookmark = some w₀)
    (hrun : Run World.step Graceful w₀ actions w₁) (hstopped : w₁.tail.phase = .stopped true)
    (hstart' : World.start w₁.files fromBeginning' w₁.bookmark = some v₀)
    (hrun' : Run World.step (fun _ a => AppendOnly a ∧ AppendsLines a) v₀ actions' v) :
    ∃ k, w₁.sent ++ v.sent <+: (lines v.files.current).drop k := by
  obtain ⟨⟨pre, hpre, hflat⟩, hle⟩ := start_behind_lines hstart hwhole hmark
  have hinit : Resumable pre w₀ := by
    refine ⟨Tracking.start hstart hwhole hpre hflat.symm hle, ?_⟩
    intro hstop
    obtain ⟨-, -, -, -, hphase, -⟩ := World.start_spec hstart
    rw [hphase] at hstop
    cases hstop
  have hfirst := hrun.invariant (fun _ _ _ h hok hstep => h.step hok hstep) hinit
  obtain ⟨hbookmark, hflat₁, hlines₁⟩ := hfirst.marked hstopped
  rw [hfirst.tracking.content] at hflat₁
  have hreader : v₀.tail.reader = w₁.tail.position := by
    have hpos : w₁.tail.position = w₁.tail.reader := hfirst.tracking.framed.position_eq
    have hle₁ : w₁.tail.reader ≤ w₁.content.length := hfirst.tracking.framed.le
    rw [hfirst.tracking.content] at hle₁
    have hinode : w₁.tail.inode = w₁.files.rotated.length := hfirst.tracking.onCurrent
    rw [World.start_reader hstart', hbookmark]
    unfold openAtStart
    simp only
    rw [if_pos hinode]
    exact min_eq_left (hpos.trans_le hle₁)
  obtain ⟨-, hle'⟩ := start_behind_lines hstart' hfirst.tracking.whole (by
    rw [hbookmark]
    rintro bm ⟨⟩ -
    exact ⟨_, hlines₁, hflat₁.symm⟩)
  have hsecond : Tracking (pre ++ w₁.sent) v₀ :=
    Tracking.start hstart' hfirst.tracking.whole hlines₁ (hreader ▸ hflat₁) hle'
  have hemitted := (hrun'.invariant (fun _ _ _ h hok hstep => h.step hok hstep) hsecond).emitted
  refine ⟨pre.length, ?_⟩
  rw [List.append_assoc] at hemitted
  obtain ⟨rest, hrest⟩ := hemitted
  rw [← hrest, List.append_assoc, List.drop_left]
  exact List.prefix_append _ _

/-- The second line is in hand when the shutdown arrives at the next read; the third is
written between the runs. -/
theorem resumed_contiguous_shutdown :
    ∃ k, [[0x61, 0x0A], [0x62, 0x0A]] ++ [[0x63, 0x0A]] <+: (lines [0x61, 0x0A, 0x62, 0x0A, 0x63, 0x0A]).drop k :=
  resumed_contiguous (show Whole [0x61, 0x0A] by decide) (by rintro bm ⟨⟩)
    (show World.start ⟨[], [0x61, 0x0A], true⟩ true none =
      some ⟨⟨[], [0x61, 0x0A], true⟩, ⟨0, 0, 0, 0, .reading⟩, none, []⟩ from rfl)
    (show Run World.step Graceful _
      [.tail .readLine, .tail (.accept true), .writer (.append [0x62, 0x0A]), .tail .readLine,
        .tail (.accept true), .tail (.shutdown true), .writer (.append [0x63, 0x0A])]
      ⟨⟨[], [0x61, 0x0A, 0x62, 0x0A, 0x63, 0x0A], true⟩, ⟨0, 4, 4, 2, .stopped true⟩, some ⟨0, 4⟩,
        [[0x61, 0x0A], [0x62, 0x0A]]⟩ by decide) rfl
    (show World.start _ false _ =
      some ⟨⟨[], [0x61, 0x0A, 0x62, 0x0A, 0x63, 0x0A], true⟩, ⟨0, 4, 4, 0, .reading⟩, some ⟨0, 4⟩, []⟩ from rfl)
    (show Run World.step (fun _ a => AppendOnly a ∧ AppendsLines a) _ [.tail .readLine, .tail (.accept true)]
      ⟨⟨[], [0x61, 0x0A, 0x62, 0x0A, 0x63, 0x0A], true⟩, ⟨0, 6, 6, 1, .reading⟩, some ⟨0, 4⟩, [[0x63, 0x0A]]⟩ by
        decide)

/-- The channel is closed with the second line in hand: the bookmark covers it, and the
next run continues with the third. -/
theorem closed_leaves_gap : ∃ w₀ actions w₁ v₀ actions' v,
    World.start ⟨[], [0x61, 0x0A, 0x62, 0x0A, 0x63, 0x0A], true⟩ true none = some w₀ ∧
      Run World.step (fun _ a => AppendOnly a ∧ AppendsLines a) w₀ actions w₁ ∧
      w₁.tail.phase = .stopped true ∧ World.start w₁.files true w₁.bookmark = some v₀ ∧
      Run World.step (fun _ a => AppendOnly a ∧ AppendsLines a) v₀ actions' v ∧
      w₁.sent ++ v.sent = [[0x61, 0x0A], [0x63, 0x0A]] ∧
      ¬ ∃ k, w₁.sent ++ v.sent <+: (lines v.files.current).drop k := by
  refine ⟨⟨⟨[], [0x61, 0x0A, 0x62, 0x0A, 0x63, 0x0A], true⟩, ⟨0, 0, 0, 0, .reading⟩, none, []⟩,
    [.tail .readLine, .tail (.accept true), .tail .readLine, .tail (.closed true)],
    ⟨⟨[], [0x61, 0x0A, 0x62, 0x0A, 0x63, 0x0A], true⟩, ⟨0, 4, 4, 1, .stopped true⟩, some ⟨0, 4⟩, [[0x61, 0x0A]]⟩,
    ⟨⟨[], [0x61, 0x0A, 0x62, 0x0A, 0x63, 0x0A], true⟩, ⟨0, 4, 4, 0, .reading⟩, some ⟨0, 4⟩, []⟩,
    [.tail .readLine, .tail (.accept true)],
    ⟨⟨[], [0x61, 0x0A, 0x62, 0x0A, 0x63, 0x0A], true⟩, ⟨0, 6, 6, 1, .reading⟩, some ⟨0, 4⟩, [[0x63, 0x0A]]⟩,
    by decide, by decide, rfl, by decide, by decide, rfl, ?_⟩
  have hlines : lines [0x61, 0x0A, 0x62, 0x0A, 0x63, 0x0A] = [[0x61, 0x0A], [0x62, 0x0A], [0x63, 0x0A]] := by decide
  rintro ⟨k, hk⟩
  change [[0x61, 0x0A], [0x63, 0x0A]] <+: (lines [0x61, 0x0A, 0x62, 0x0A, 0x63, 0x0A]).drop k at hk
  rw [hlines] at hk
  have hlen := hk.length_le
  rw [List.length_drop] at hlen
  have hk' : k = 0 ∨ k = 1 := by
    simp only [List.length_cons, List.length_nil] at hlen
    omega
  rcases hk' with rfl | rfl
  · exact absurd hk (by decide)
  · exact absurd hk (by decide)

end PurpleWolf.Relay.LogTail
