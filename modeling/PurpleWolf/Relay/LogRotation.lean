import PurpleWolf.Relay.LogFraming

/-! # Rotation of the log

A writer that appends whole lines and rotates at most once between two checks loses no
line, provided that every check that finds a new file finds the old one read to its end
(`rotation_loses_nothing`).  The condition is needed: a line appended between the last
read and the rotation stays in the file that the tailer drops (`rotation_loses_a_line`). -/

namespace PurpleWolf.Relay.LogTail

/-! ### Runs with rotations -/

/-- The world, and whether a check has run since the last file was created. -/
structure Rotating where
  world : World
  checked : Bool
  deriving DecidableEq

/-- Steps of a world whose writer starts a rotation only after a check has followed the
last one. -/
def Rotating.step (r : Rotating) (a : Action) : Option Rotating :=
  match a with
  | .writer .rename =>
      if r.checked then (r.world.step a).map (fun world => { world, checked := true }) else none
  | .writer .create => (r.world.step a).map (fun world => { world, checked := false })
  | .tail (.check _) => (r.world.step a).map (fun world => { world, checked := true })
  | _ => (r.world.step a).map (fun world => { world, checked := r.checked })

/-- The writer appends whole lines. -/
def AppendsLines : Action → Prop
  | .writer (.append bytes) => Whole bytes
  | _ => True

instance : DecidablePred AppendsLines
  | .writer (.append bytes) => inferInstanceAs (Decidable (Whole bytes))
  | .writer .rename => isTrue trivial
  | .writer .create => isTrue trivial
  | .tail _ => isTrue trivial

/-- A check that finds a new file finds the old one read to its end. -/
def Drained (w : World) : Action → Prop
  | .tail (.check _) => ∀ st ∈ w.files.stat, st.inode ≠ w.tail.inode → w.unread = []
  | _ => True

instance (w : World) : DecidablePred (Drained w)
  | .tail (.check _) =>
      inferInstanceAs (Decidable (∀ st ∈ w.files.stat, st.inode ≠ w.tail.inode → w.unread = []))
  | .tail (.shutdown _) => isTrue trivial
  | .tail .readLine => isTrue trivial
  | .tail .readError => isTrue trivial
  | .tail .wake => isTrue trivial
  | .tail (.accept _) => isTrue trivial
  | .tail (.closed _) => isTrue trivial
  | .writer _ => isTrue trivial

/-- All the lines written, file by file. -/
def Files.lines (f : Files) : List Bytes := f.contents.flatMap PurpleWolf.lines

/-- The lines of the files before an inode. -/
def Files.linesBefore (f : Files) (inode : ℕ) : List Bytes := (f.contents.take inode).flatMap PurpleWolf.lines

namespace Files

variable {f : Files} {inode : ℕ}

theorem contents_take (h : inode ≤ f.rotated.length) : f.contents.take inode = f.rotated.take inode :=
  List.take_append_of_le_length h

/-- A renamed file keeps its content whatever the writer does to its own. -/
theorem content_of_lt (h : inode < f.rotated.length) : f.content inode = (f.rotated[inode]?).getD [] := by
  unfold content contents
  rw [List.getElem?_append_left h]

theorem content_mem (h : inode ≤ f.rotated.length) : f.content inode ∈ f.contents := by
  have hlt : inode < f.contents.length := by
    unfold contents
    rw [List.length_append, List.length_singleton]
    omega
  unfold content
  rw [List.getElem?_eq_getElem hlt, Option.getD_some]
  exact List.getElem_mem hlt

theorem linesBefore_succ (h : inode ≤ f.rotated.length) :
    f.linesBefore (inode + 1) = f.linesBefore inode ++ PurpleWolf.lines (f.content inode) := by
  have hlt : inode < f.contents.length := by
    unfold contents
    rw [List.length_append, List.length_singleton]
    omega
  unfold linesBefore content
  rw [List.getElem?_eq_getElem hlt, Option.getD_some, List.take_succ_eq_append_getElem hlt,
    List.flatMap_append, List.flatMap_singleton]

theorem linesBefore_isPrefix (f : Files) (inode : ℕ) : f.linesBefore inode <+: f.lines := by
  refine ⟨(f.contents.drop inode).flatMap PurpleWolf.lines, ?_⟩
  unfold linesBefore lines
  rw [← List.flatMap_append, List.take_append_drop]

end Files

/-! ### The invariant -/

/-- **The rotation invariant.**  The tailer is on the writer's file, or on the one before
it if the path has been rotated since the last check. -/
structure Following (r : Rotating) : Prop where
  framed : Framed (r.world.files.linesBefore r.world.tail.inode) r.world
  whole : ∀ c ∈ r.world.files.contents, Whole c
  behind : OnCurrent r.world ∨
    (r.world.tail.inode + 1 = r.world.files.rotated.length ∧ r.world.files.linked = true ∧ r.checked = false)

namespace Following

variable {r : Rotating}

theorem inode_le (h : Following r) : r.world.tail.inode ≤ r.world.files.rotated.length := by
  rcases h.behind with hcur | ⟨hprev, -⟩
  · exact le_of_eq hcur
  · omega

theorem unread_line (h : Following r) : r.world.unread = [] ∨ newline ∈ r.world.unread := by
  have hwhole : Whole r.world.content := h.whole _ (Files.content_mem h.inode_le)
  obtain ⟨-, -, ls, hls, hflat, -⟩ := h.framed
  have hsplit : ls.flatten ++ r.world.unread = r.world.content := by
    rw [hflat]
    exact List.take_append_drop _ _
  have hunread : Whole r.world.unread := Whole.of_flatten_append hls (hsplit ▸ hwhole)
  by_cases hnil : r.world.unread = []
  · exact Or.inl hnil
  · exact Or.inr (hunread.newline_mem hnil)

/-- **The emitted lines are a prefix of the lines written.** -/
theorem sent_isPrefix (h : Following r) : r.world.sent <+: r.world.files.lines := by
  have hsent := h.framed.sent_isPrefix
  have hsucc := Files.linesBefore_succ h.inode_le
  unfold World.content at hsent
  rw [← hsucc] at hsent
  exact hsent.trans (Files.linesBefore_isPrefix _ _)

end Following

/-! ### Writer steps -/

section Writer

variable {r : Rotating}

/-- What the writer may do to the files: nothing to those before the open one, appending
to the open one. -/
theorem Following.of_files (h : Following r) {files : Files} {checked : Bool} (t : Bytes)
    (hbefore : files.contents.take r.world.tail.inode = r.world.files.contents.take r.world.tail.inode)
    (hcontent : files.content r.world.tail.inode = r.world.files.content r.world.tail.inode ++ t)
    (hwhole : ∀ c ∈ files.contents, Whole c)
    (hbehind : r.world.tail.inode = files.rotated.length ∨
      (r.world.tail.inode + 1 = files.rotated.length ∧ files.linked = true ∧ checked = false)) :
    Following ⟨{ r.world with files }, checked⟩ := by
  refine ⟨?_, hwhole, hbehind⟩
  have hbase : files.linesBefore r.world.tail.inode = r.world.files.linesBefore r.world.tail.inode := by
    unfold Files.linesBefore
    rw [hbefore]
  show Framed (files.linesBefore r.world.tail.inode) _
  rw [hbase]
  exact h.framed.append hcontent rfl rfl

theorem following_append (h : Following r) {bytes : Bytes} (hbytes : Whole bytes) :
    Following ⟨{ r.world with
      files := { r.world.files with current := r.world.files.current ++ bytes } }, r.checked⟩ := by
  have hle := h.inode_le
  have hwhole : ∀ c ∈ r.world.files.rotated ++ [r.world.files.current ++ bytes], Whole c := by
    intro c hc
    rcases List.mem_append.mp hc with hc | hc
    · exact h.whole c (List.mem_append_left _ hc)
    · rw [List.mem_singleton.mp hc]
      exact (h.whole _ (List.mem_append_right _ (List.mem_singleton_self _))).append hbytes
  have hbefore : (r.world.files.rotated ++ [r.world.files.current ++ bytes]).take r.world.tail.inode =
      r.world.files.contents.take r.world.tail.inode := by
    rw [List.take_append_of_le_length hle, Files.contents_take hle]
  by_cases hcur : r.world.tail.inode = r.world.files.rotated.length
  · refine h.of_files bytes hbefore ?_ hwhole h.behind
    unfold Files.content Files.contents
    rw [hcur, List.getElem?_concat_length, List.getElem?_concat_length, Option.getD_some, Option.getD_some]
  · have hlt : r.world.tail.inode < r.world.files.rotated.length := by omega
    refine h.of_files [] hbefore ?_ hwhole h.behind
    rw [List.append_nil, Files.content_of_lt hlt]
    exact Files.content_of_lt hlt

theorem following_rename (h : Following r) (hchecked : r.checked = true) :
    Following ⟨{ r.world with files := { r.world.files with linked := false } }, true⟩ := by
  refine h.of_files [] rfl (List.append_nil _).symm h.whole ?_
  rcases h.behind with hcur | ⟨-, -, hno⟩
  · exact Or.inl hcur
  · rw [hchecked] at hno
    cases hno

theorem following_create (h : Following r) (hlinked : r.world.files.linked = false) :
    Following ⟨{ r.world with files :=
      { rotated := r.world.files.rotated ++ [r.world.files.current], current := [], linked := true } }, false⟩ := by
  have hcur : r.world.tail.inode = r.world.files.rotated.length := by
    rcases h.behind with hcur | ⟨-, hyes, -⟩
    · exact hcur
    · rw [hlinked] at hyes
      cases hyes
  have hlt : r.world.tail.inode < (r.world.files.rotated ++ [r.world.files.current]).length := by
    rw [hcur, List.length_append, List.length_singleton]
    omega
  apply h.of_files [] (List.take_append_of_le_length (le_of_lt hlt))
  · rw [Files.content_of_lt hlt, List.append_nil]
    rfl
  · intro c hc
    rcases List.mem_append.mp hc with hc | hc
    · exact h.whole c hc
    · rw [List.mem_singleton.mp hc]
      exact Whole.nil
  · refine Or.inr ⟨?_, rfl, rfl⟩
    rw [hcur, List.length_append, List.length_singleton]

end Writer

/-! ### Tailer steps -/

section Tailer

variable {r : Rotating}

theorem following_stay (h : Following r) {a : TailAction} {w : World} (hstep : r.world.tailStep a = some w)
    (hstay : ∀ b, a = .check b →
      detectRotation r.world.files.stat r.world.tail.inode r.world.tail.position = none)
    {checked : Bool} (hbehind : OnCurrent r.world ∨ checked = r.checked) : Following ⟨w, checked⟩ := by
  have hfiles := World.tailStep_files hstep
  have hinode := World.tailStep_inode hstep hstay
  refine ⟨?_, ?_, ?_⟩
  · show Framed (w.files.linesBefore w.tail.inode) w
    rw [hfiles, hinode]
    exact h.framed.tailStep hstep (fun _ => h.unread_line) hstay
  · show ∀ c ∈ w.files.contents, Whole c
    rw [hfiles]
    exact h.whole
  · show w.tail.inode = w.files.rotated.length ∨ (w.tail.inode + 1 = w.files.rotated.length ∧ _)
    rw [hfiles, hinode]
    rcases hbehind with hcur | rfl
    · exact Or.inl hcur
    · exact h.behind

/-- A check reopens the path only if the writer has moved on to the next file. -/
theorem detectRotation_following (h : Following r) :
    (detectRotation r.world.files.stat r.world.tail.inode r.world.tail.position = none ∧ OnCurrent r.world) ∨
      (detectRotation r.world.files.stat r.world.tail.inode r.world.tail.position =
          some r.world.files.rotated.length ∧
        r.world.files.stat = some ⟨r.world.files.rotated.length, r.world.files.current.length⟩ ∧
        r.world.tail.inode + 1 = r.world.files.rotated.length) := by
  rcases h.behind with hcur | ⟨hprev, hlinked, -⟩
  · exact Or.inl ⟨detectRotation_onCurrent hcur h.framed, hcur⟩
  · right
    have hstat : r.world.files.stat = some ⟨r.world.files.rotated.length, r.world.files.current.length⟩ :=
      if_pos hlinked
    refine ⟨?_, hstat, hprev⟩
    rw [hstat]
    unfold detectRotation
    simp only
    rw [if_pos (by omega)]

/-- The tailer moves on to the next file, having read its own to the end. -/
theorem following_reopen (h : Following r) (hphase : r.world.tail.phase = .checking)
    (hprev : r.world.tail.inode + 1 = r.world.files.rotated.length) (hunread : r.world.unread = [])
    (b checked : Bool) :
    Following ⟨World.persist { r.world with
      tail := ⟨r.world.files.rotated.length, 0, 0, 0, .reading⟩ } b, checked⟩ := by
  obtain ⟨-, hle, ls, hls, hflat, -, hsent⟩ := h.framed
  have hread : r.world.content.take r.world.tail.reader = r.world.content := by
    apply List.take_of_length_le
    have := congrArg List.length hunread
    unfold World.unread at this
    rw [List.length_drop, List.length_nil] at this
    omega
  have hall : ls = lines r.world.content := by
    rw [← hread, ← hflat, lines_flatten hls]
  have heq : r.world.sent = r.world.files.linesBefore r.world.files.rotated.length := by
    have hnone := hsent (by rw [hphase]; rfl)
    have hpending : Phase.checking.pending = [] := rfl
    rw [hphase, hpending, List.append_nil, hall] at hnone
    rw [hnone, ← hprev, Files.linesBefore_succ (by omega)]
    rfl
  have hfresh : Framed (r.world.files.linesBefore r.world.files.rotated.length)
      { r.world with tail := ⟨r.world.files.rotated.length, 0, 0, 0, .reading⟩ } := by
    refine ⟨rfl, by simp, [], by simp, by simp, by simp [heq], ?_⟩
    intro _
    simp [heq, Phase.pending]
  refine ⟨?_, ?_, ?_⟩
  · simp only [World.persist_files, World.persist_tail]
    exact hfresh.persist b
  · simp only [World.persist_files]
    exact h.whole
  · left
    unfold OnCurrent
    simp only [World.persist_files, World.persist_tail]

end Tailer

/-! ### Runs -/

/-- What a run requires of a step: whole lines are appended, and a check that finds a new
file finds the old one read to its end. -/
def RotatesDrained (r : Rotating) (a : Action) : Prop := AppendsLines a ∧ Drained r.world a

instance (r : Rotating) : DecidablePred (RotatesDrained r) := fun _ => inferInstanceAs (Decidable (_ ∧ _))

/-- **One step of a run with rotations.** -/
theorem following_step {r r' : Rotating} {a : Action} (h : Following r) (hok : RotatesDrained r a)
    (hstep : r.step a = some r') : Following r' := by
  obtain ⟨hlines, hdrained⟩ := hok
  unfold Rotating.step at hstep
  split at hstep
  · split_ifs at hstep with hchecked
    simp only [World.step, Files.step] at hstep
    split_ifs at hstep
    · cases hstep
      exact following_rename h hchecked
    · cases hstep
  · simp only [World.step, Files.step] at hstep
    split_ifs at hstep with hlinked
    · cases hstep
    · cases hstep
      exact following_create h (by simpa using hlinked)
  · rename_i b
    obtain ⟨w, hw, rfl⟩ := Option.map_eq_some_iff.mp hstep
    rcases detectRotation_following h with ⟨hnone, hcur⟩ | ⟨hsome, hstat, hprev⟩
    · exact following_stay h hw (fun _ _ => hnone) (Or.inl hcur)
    · have hunread : r.world.unread = [] := hdrained _ hstat (by simp only [ne_eq]; omega)
      obtain ⟨hphase, rfl⟩ := World.tailStep_check hw
      unfold World.check
      rw [hsome]
      exact following_reopen h hphase hprev hunread b true
  · rename_i hrename hcreate hcheck
    obtain ⟨w, hw, rfl⟩ := Option.map_eq_some_iff.mp hstep
    cases a with
    | writer a =>
        cases a with
        | append bytes =>
            cases hw
            exact following_append h hlines
        | rename => exact absurd rfl hrename
        | create => exact absurd rfl hcreate
    | tail a => exact following_stay h hw (fun b hb => absurd (congrArg _ hb) (hcheck b)) (Or.inr rfl)

/-- **Rotation loses nothing** if every check that finds a new file finds the old one read
to its end: in every state of the run the emitted lines are a prefix of the lines
written, the files taken in their order. -/
theorem rotation_loses_nothing {content : Bytes} {fromBeginning : Bool} {bookmark : Option Bookmark}
    {w₀ : World} {r : Rotating} {actions : List Action} (hcontent : Whole content)
    (hstart : World.start ⟨[], content, true⟩ fromBeginning bookmark = some w₀) (hzero : w₀.tail.reader = 0)
    (hrun : Run Rotating.step RotatesDrained ⟨w₀, true⟩ actions r) : r.world.sent <+: r.world.files.lines := by
  have hinit : Following ⟨w₀, true⟩ := by
    obtain ⟨-, hfiles, hinode, -⟩ := World.start_spec hstart
    refine ⟨?_, ?_, Or.inl (onCurrent_start hstart)⟩
    · show Framed (w₀.files.linesBefore w₀.tail.inode) w₀
      rw [hfiles, hinode]
      exact Framed.start hstart hzero
    · show ∀ c ∈ w₀.files.contents, Whole c
      rw [hfiles]
      simpa [Files.contents] using hcontent
  exact (hrun.invariant (fun _ _ _ h hok hstep => following_step h hok hstep) hinit).sent_isPrefix

/-- A rotation while the tailer waits at the end of the old file. -/
theorem rotation_loses_nothing_waiting :
    [[0x61, 0x0A], [0x62, 0x0A]] <+: Files.lines ⟨[[0x61, 0x0A]], [0x62, 0x0A, 0x63, 0x0A], true⟩ :=
  rotation_loses_nothing (show Whole [0x61, 0x0A] by decide)
    (show World.start ⟨[], [0x61, 0x0A], true⟩ true none =
      some ⟨⟨[], [0x61, 0x0A], true⟩, ⟨0, 0, 0, 0, .reading⟩, none, []⟩ from rfl) rfl
    (show Run Rotating.step RotatesDrained _
      [.tail .readLine, .tail (.accept true), .tail .readLine, .writer .rename, .writer .create, .tail .wake,
        .writer (.append [0x62, 0x0A, 0x63, 0x0A]), .tail (.check true), .tail .readLine, .tail (.accept true)]
      ⟨⟨⟨[[0x61, 0x0A]], [0x62, 0x0A, 0x63, 0x0A], true⟩, ⟨1, 2, 2, 1, .reading⟩, some ⟨1, 0⟩,
        [[0x61, 0x0A], [0x62, 0x0A]]⟩, true⟩ by decide)

/-- The line `b` is appended between the last read of the old file and its rotation. -/
theorem rotation_loses_a_line : ∃ w₀ actions r,
    World.start ⟨[], [0x61, 0x0A], true⟩ true none = some w₀ ∧ w₀.tail.reader = 0 ∧
      Run Rotating.step (fun _ a => AppendsLines a) ⟨w₀, true⟩ actions r ∧
      r.world.files.contents = [[0x61, 0x0A, 0x62, 0x0A], [0x63, 0x0A]] ∧
      r.world.sent = [[0x61, 0x0A], [0x63, 0x0A]] ∧ ¬ r.world.sent <+: r.world.files.lines := by
  refine ⟨⟨⟨[], [0x61, 0x0A], true⟩, ⟨0, 0, 0, 0, .reading⟩, none, []⟩,
    [.tail .readLine, .tail (.accept true), .tail .readLine, .writer (.append [0x62, 0x0A]), .writer .rename,
      .writer .create, .tail .wake, .tail (.check true), .writer (.append [0x63, 0x0A]), .tail .readLine,
      .tail (.accept true)],
    ⟨⟨⟨[[0x61, 0x0A, 0x62, 0x0A]], [0x63, 0x0A], true⟩, ⟨1, 2, 2, 1, .reading⟩, some ⟨1, 0⟩,
      [[0x61, 0x0A], [0x63, 0x0A]]⟩, true⟩, ?_⟩
  decide

end PurpleWolf.Relay.LogTail
