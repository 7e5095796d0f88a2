import PurpleWolf.Relay.LogTail

/-! # A restart against a running tail

Whether the relay is restarted or goes on running, the tailer decides from a position and the
file that it finds at the path where to read: `open_at_start` from the bookmark, and
`detect_rotation` from the variables of `run_tail`.  `restart_agrees_iff` says for which files
the two come to the same offset.  The file may have been replaced or have shrunk; nothing is
assumed about how it came to be. -/

namespace PurpleWolf.Relay.LogTail

variable {stat : FileStat} {bm : Bookmark}

/-! ### The two decisions -/

/-- The file at the path is another one, or it has been truncated. -/
def Rotated (stat : FileStat) (bm : Bookmark) : Prop := stat.inode ≠ bm.inode ∨ stat.len < bm.position

instance (stat : FileStat) (bm : Bookmark) : Decidable (Rotated stat bm) := inferInstanceAs (Decidable (_ ∨ _))

/-- Where a tail that has read up to the bookmark has to go on. -/
def resumeOffset (stat : FileStat) (bm : Bookmark) : ℕ := if Rotated stat bm then 0 else bm.position

/-- `open_at_start` passes over what the file at the path holds: it seeks to the end of a
replaced file unless the file is to be read from the beginning, and to the end of a file that
has become shorter than the bookmark. -/
def SkipsAhead (stat : FileStat) (fromBeginning : Bool) (bm : Bookmark) : Prop :=
  0 < stat.len ∧ (stat.inode ≠ bm.inode ∧ fromBeginning = false ∨ stat.inode = bm.inode ∧ stat.len < bm.position)

theorem resumeOffset_eq (stat : FileStat) (bm : Bookmark) :
    resumeOffset stat bm = if stat.inode = bm.inode ∧ bm.position ≤ stat.len then bm.position else 0 := by
  have hkept : (stat.inode = bm.inode ∧ bm.position ≤ stat.len) ↔ ¬ Rotated stat bm := by
    unfold Rotated
    omega
  unfold resumeOffset
  simp only [hkept, ite_not]

theorem detectRotation_eq (stat : FileStat) (bm : Bookmark) :
    detectRotation (some stat) bm.inode bm.position = if Rotated stat bm then some stat.inode else none := by
  unfold detectRotation Rotated
  by_cases hinode : stat.inode = bm.inode
  · simp [hinode]
  · simp [hinode]

theorem openAtStart_bookmark (stat : FileStat) (fromBeginning : Bool) (bm : Bookmark) :
    openAtStart stat fromBeginning (some bm) =
      if stat.inode = bm.inode then min bm.position stat.len else if fromBeginning then 0 else stat.len := by
  unfold openAtStart
  simp only [eq_comm]

/-- **Where the two decisions agree.** -/
theorem openAtStart_eq_iff (stat : FileStat) (fromBeginning : Bool) (bm : Bookmark) :
    openAtStart stat fromBeginning (some bm) = resumeOffset stat bm ↔ ¬ SkipsAhead stat fromBeginning bm := by
  rw [openAtStart_bookmark]
  unfold resumeOffset Rotated SkipsAhead
  by_cases hinode : stat.inode = bm.inode
  · simp only [hinode, if_true, ne_eq, not_true_eq_false, false_or, false_and, true_and]
    split_ifs with hshrunk
    · omega
    · omega
  · simp only [hinode, if_false, ne_eq, not_false_eq_true, true_or, if_true, true_and, false_and, or_false]
    cases fromBeginning with
    | true => simp
    | false =>
        simp only [Bool.false_eq_true, if_false, and_true]
        omega

/-! ### The two tails -/

namespace World

/-- A check of the path leaves the reader where it has to go on. -/
theorem check_tail {w : World} (persisted : Bool) (hreader : w.tail.reader = w.tail.position)
    (hstat : w.files.stat = some stat) :
    (w.check persisted).tail.inode = stat.inode ∧ (w.check persisted).tail.phase = .reading ∧
      (w.check persisted).tail.reader = resumeOffset stat ⟨w.tail.inode, w.tail.position⟩ ∧
      (w.check persisted).tail.position = resumeOffset stat ⟨w.tail.inode, w.tail.position⟩ := by
  have hdetect := detectRotation_eq stat ⟨w.tail.inode, w.tail.position⟩
  simp only at hdetect
  unfold check resumeOffset
  rw [hstat, hdetect]
  split_ifs with hrotated
  · simp
  · unfold Rotated at hrotated
    have hsame : stat.inode = w.tail.inode := by
      by_contra hne
      exact hrotated (Or.inl hne)
    simp [hsame, hreader]

theorem start_tail {files : Files} {fromBeginning : Bool} {bookmark : Option Bookmark} {w : World}
    (hstat : files.stat = some stat) (h : World.start files fromBeginning bookmark = some w) :
    w.files = files ∧ w.tail = ⟨stat.inode, openAtStart stat fromBeginning bookmark,
      openAtStart stat fromBeginning bookmark, 0, .reading⟩ := by
  unfold World.start at h
  rw [hstat] at h
  cases h
  exact ⟨rfl, rfl⟩

end World

/-- **When a restart goes on where a running tail does.**  `running` is a tail that has read up
to its position and is about to look at the path, `continued` is that tail afterwards, and
`restarted` is a tail that finds the same files and the bookmark of that position.  They read on
from the same offset, the position in a file that is still there and the beginning of one that
has been rotated, exactly unless the restart skips ahead. -/
theorem restart_agrees_iff {running continued restarted : World} {persisted fromBeginning : Bool}
    (hreader : running.tail.reader = running.tail.position) (hstat : running.files.stat = some stat)
    (hcheck : running.step (.tail (.check persisted)) = some continued)
    (hstart : World.start running.files fromBeginning (some ⟨running.tail.inode, running.tail.position⟩) =
      some restarted) :
    continued.tail.reader = (if stat.inode = running.tail.inode ∧ running.tail.position ≤ stat.len
        then running.tail.position else 0) ∧
      (restarted.tail.reader = continued.tail.reader ↔
        ¬ SkipsAhead stat fromBeginning ⟨running.tail.inode, running.tail.position⟩) := by
  obtain ⟨-, rfl⟩ := World.tailStep_check hcheck
  obtain ⟨-, -, hcontinued, -⟩ := World.check_tail persisted hreader hstat
  obtain ⟨-, hrestarted⟩ := World.start_tail hstat hstart
  rw [hcontinued, hrestarted]
  exact ⟨resumeOffset_eq stat _, openAtStart_eq_iff stat fromBeginning _⟩

/-- Two lines were read before the relay went down, and one has been appended since. -/
theorem restart_agrees_iff_appended :
    let running : World := ⟨⟨[], [0x61, 0x0A, 0x62, 0x0A, 0x63, 0x0A], true⟩, ⟨0, 4, 4, 2, .checking⟩, some ⟨0, 4⟩, []⟩
    ∃ continued restarted : World, running.step (.tail (.check true)) = some continued ∧
      World.start running.files false (some ⟨0, 4⟩) = some restarted ∧
      continued.tail.reader = 4 ∧ restarted.tail.reader = continued.tail.reader := by
  intro running
  have hagree := restart_agrees_iff (show running.tail.reader = running.tail.position from rfl)
    (show running.files.stat = some ⟨0, 6⟩ from rfl) (show running.step (.tail (.check true)) = some _ from rfl)
    (show World.start running.files false (some ⟨0, 4⟩) = some _ from rfl)
  refine ⟨_, _, rfl, rfl, hagree.1, hagree.2.mpr ?_⟩
  rintro ⟨-, ⟨hne, -⟩ | ⟨-, hlt⟩⟩
  · exact hne rfl
  · exact absurd hlt (by decide)

/-- While the relay is down, the file is rotated, or truncated and written anew: a running tail
would read the new line, the restarted one begins behind it. -/
theorem restart_skips_line :
    (∃ continued restarted : World,
      World.step ⟨⟨[[0x61, 0x0A]], [0x62, 0x0A], true⟩, ⟨0, 2, 2, 1, .checking⟩, some ⟨0, 2⟩, []⟩
        (.tail (.check true)) = some continued ∧
      World.start ⟨[[0x61, 0x0A]], [0x62, 0x0A], true⟩ false (some ⟨0, 2⟩) = some restarted ∧
      continued.unread = [0x62, 0x0A] ∧ restarted.unread = [] ∧
      restarted.tail.reader ≠ continued.tail.reader) ∧
    ∃ continued restarted : World,
      World.step ⟨⟨[], [0x62, 0x0A], true⟩, ⟨0, 4, 4, 2, .checking⟩, some ⟨0, 4⟩, []⟩
        (.tail (.check true)) = some continued ∧
      World.start ⟨[], [0x62, 0x0A], true⟩ true (some ⟨0, 4⟩) = some restarted ∧
      continued.unread = [0x62, 0x0A] ∧ restarted.unread = [] ∧
      restarted.tail.reader ≠ continued.tail.reader := by
  constructor
  · exact ⟨_, _, rfl, rfl, rfl, rfl, by decide⟩
  · exact ⟨_, _, rfl, rfl, rfl, rfl, by decide⟩

theorem restart_unread {running continued restarted : World} {persisted fromBeginning : Bool}
    (hreader : running.tail.reader = running.tail.position) (hstat : running.files.stat = some stat)
    (hcheck : running.step (.tail (.check persisted)) = some continued)
    (hstart : World.start running.files fromBeginning (some ⟨running.tail.inode, running.tail.position⟩) =
      some restarted)
    (hskip : ¬ SkipsAhead stat fromBeginning ⟨running.tail.inode, running.tail.position⟩) :
    restarted.unread = continued.unread := by
  have hfiles := World.tailStep_files hcheck
  obtain ⟨-, rfl⟩ := World.tailStep_check hcheck
  obtain ⟨hinode, -, hcontinued, -⟩ := World.check_tail persisted hreader hstat
  obtain ⟨hfiles', hrestarted⟩ := World.start_tail hstat hstart
  have hoffset := (openAtStart_eq_iff stat fromBeginning _).mpr hskip
  unfold World.unread World.content
  rw [hfiles, hfiles', hinode, hcontinued, hrestarted, hoffset]

end PurpleWolf.Relay.LogTail
