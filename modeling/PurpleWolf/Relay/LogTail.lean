import PurpleWolf.Basic
import PurpleWolf.Lib.Lines
import PurpleWolf.Lib.Transition
import PurpleWolf.Lib.Utf8

/-! # The `log_tail` source (`sources/log_tail.rs`)

`run_tail` follows a log file.  The model is a transition system of two parties.

* **The writer** appends to the file that it has open, renames it away and creates a new
  one at the path (`Files.step`).
* **The tailer** stands at one of the points where `run_tail` awaits something
  (`Phase`) and takes the step that the outcome calls for (`World.tailStep`): a read to
  the next newline or the end of the file, a wake-up, a rotation check, the hand-over of
  a line to the channel, the shutdown.

Inodes are numbered in the order in which the files were created. -/

namespace PurpleWolf.Relay.LogTail

def BOOKMARK_INTERVAL_EVENTS : ℕ := 100

/-! ### Files -/

/-- The files that have been at the path: the renamed ones in their order, and the one
that the writer has open, which the path may or may not point to. -/
structure Files where
  rotated : List Bytes
  current : Bytes
  linked : Bool
  deriving DecidableEq

inductive WriterAction where
  | append (bytes : Bytes)
  | rename
  | create
  deriving DecidableEq

/-- What `File::open` and `metadata` tell about the file at the path. -/
structure FileStat where
  inode : ℕ
  len : ℕ
  deriving DecidableEq

namespace Files

/-- All the files, an inode being an index. -/
def contents (f : Files) : List Bytes := f.rotated ++ [f.current]

def content (f : Files) (inode : ℕ) : Bytes := (f.contents[inode]?).getD []

def stat (f : Files) : Option FileStat :=
  if f.linked then some ⟨f.rotated.length, f.current.length⟩ else none

def step (f : Files) : WriterAction → Option Files
  | .append bytes => some { f with current := f.current ++ bytes }
  | .rename => if f.linked then some { f with linked := false } else none
  | .create =>
      if f.linked then none else some { rotated := f.rotated ++ [f.current], current := [], linked := true }

end Files

/-! ### The tailer -/

structure Bookmark where
  inode : ℕ
  position : ℕ
  deriving DecidableEq

/-- `open_at_start`: the offset at which reading starts. -/
def openAtStart (stat : FileStat) (fromBeginning : Bool) (bookmark : Option Bookmark) : ℕ :=
  match bookmark with
  | some bm =>
      if bm.inode = stat.inode then min bm.position stat.len
      else if fromBeginning then 0 else stat.len
  | none => if fromBeginning then 0 else stat.len

/-- `detect_rotation`: the inode of the file to reopen, if any. -/
def detectRotation (stat : Option FileStat) (currentInode position : ℕ) : Option ℕ :=
  match stat with
  | some st =>
      if st.inode ≠ currentInode then some st.inode
      else if st.len < position then some st.inode
      else none
  | none => none

/-- Where `run_tail` stands: in the `select!` at the top of its loop, waiting after an end
of file, about to check for a rotation, sending a line, or returned. -/
inductive Phase where
  | reading
  | waiting
  | checking
  | sending (line : Bytes)
  | stopped (ok : Bool)
  deriving DecidableEq

/-- The variables of `run_tail`; `reader` is the offset of the first byte that the
`BufReader` has not handed out. -/
structure Tail where
  inode : ℕ
  reader : ℕ
  position : ℕ
  emittedSinceBookmark : ℕ
  phase : Phase
  deriving DecidableEq

/-- How an `await` of the tailer turns out.  `persisted` tells whether a bookmark that is
written on the way reaches the disk. -/
inductive TailAction where
  | shutdown (persisted : Bool)
  | readLine
  | readError
  | wake
  | check (persisted : Bool)
  | accept (persisted : Bool)
  | closed (persisted : Bool)
  deriving DecidableEq

/-- The files, the tailer, the bookmark file, and the lines that the channel has accepted. -/
structure World where
  files : Files
  tail : Tail
  bookmark : Option Bookmark
  sent : List Bytes
  deriving DecidableEq

namespace World

/-- The file that the tailer has open. -/
def content (w : World) : Bytes := w.files.content w.tail.inode

/-- What the reader has not handed out yet. -/
def unread (w : World) : Bytes := w.content.drop w.tail.reader

/-- `persist_bookmark(.., position, inode)`, whose failure is ignored. -/
def persist (w : World) (persisted : Bool) : World :=
  if persisted then { w with bookmark := some ⟨w.tail.inode, w.tail.position⟩ } else w

def setPhase (w : World) (phase : Phase) : World := { w with tail := { w.tail with phase } }

/-- The beginning of `run_tail`; the path must exist. -/
def start (files : Files) (fromBeginning : Bool) (bookmark : Option Bookmark) : Option World :=
  files.stat.map fun stat =>
    let offset := openAtStart stat fromBeginning bookmark
    { files, bookmark, sent := [],
      tail := { inode := stat.inode, reader := offset, position := offset, emittedSinceBookmark := 0,
                phase := .reading } }

/-- `read_line`, and what the loop does with its result. -/
def readLine (w : World) : World :=
  let line := nextLine w.unread
  if line = [] then w.setPhase .waiting
  else if Utf8.decode? line = none then w.setPhase (.stopped false)
  else
    { w with tail := { w.tail with
        reader := w.tail.reader + line.length, position := w.tail.position + line.length,
        phase := .sending line } }

/-- `detect_rotation`, and the reopening of the path. -/
def check (w : World) (persisted : Bool) : World :=
  match detectRotation w.files.stat w.tail.inode w.tail.position with
  | some inode =>
      World.persist { w with tail := ⟨inode, 0, 0, 0, .reading⟩ } persisted
  | none => w.setPhase .reading

/-- The channel has taken the line. -/
def accept (w : World) (line : Bytes) (persisted : Bool) : World :=
  let emitted := w.tail.emittedSinceBookmark + 1
  let w := { w with sent := w.sent ++ [line], tail := { w.tail with phase := .reading } }
  if emitted ≥ BOOKMARK_INTERVAL_EVENTS then
    World.persist { w with tail := { w.tail with emittedSinceBookmark := 0 } } persisted
  else { w with tail := { w.tail with emittedSinceBookmark := emitted } }

def tailStep (w : World) (a : TailAction) : Option World :=
  match a, w.tail.phase with
  | .shutdown persisted, .reading => some ((w.setPhase (.stopped true)).persist persisted)
  | .shutdown persisted, .waiting => some ((w.setPhase (.stopped true)).persist persisted)
  | .readLine, .reading => some w.readLine
  | .readError, .reading => some (w.setPhase (.stopped false))
  | .wake, .waiting => some (w.setPhase .checking)
  | .check persisted, .checking => some (w.check persisted)
  | .accept persisted, .sending line => some (w.accept line persisted)
  | .closed persisted, .sending _ => some ((w.setPhase (.stopped true)).persist persisted)
  | _, _ => none

end World

inductive Action where
  | writer (a : WriterAction)
  | tail (a : TailAction)
  deriving DecidableEq

def World.step (w : World) : Action → Option World
  | .writer a => (w.files.step a).map (fun files => { w with files })
  | .tail a => w.tailStep a

theorem World.start_spec {files : Files} {fromBeginning : Bool} {bookmark : Option Bookmark} {w : World}
    (h : World.start files fromBeginning bookmark = some w) :
    files.linked = true ∧ w.files = files ∧ w.tail.inode = files.rotated.length ∧
      w.tail.position = w.tail.reader ∧ w.tail.phase = .reading ∧ w.sent = [] := by
  unfold World.start Files.stat at h
  split_ifs at h with hlinked
  · cases h
    exact ⟨hlinked, rfl, rfl, rfl, rfl, rfl⟩
  · cases h

theorem World.start_reader {files : Files} {fromBeginning : Bool} {bookmark : Option Bookmark} {w : World}
    (h : World.start files fromBeginning bookmark = some w) :
    w.tail.reader = openAtStart ⟨files.rotated.length, files.current.length⟩ fromBeginning bookmark := by
  unfold World.start Files.stat at h
  split_ifs at h
  · cases h
    rfl
  · cases h

/-! ### What the operations leave alone -/

namespace World

variable (w : World)

@[simp] theorem setPhase_files (p : Phase) : (w.setPhase p).files = w.files := rfl
@[simp] theorem setPhase_sent (p : Phase) : (w.setPhase p).sent = w.sent := rfl
@[simp] theorem setPhase_phase (p : Phase) : (w.setPhase p).tail.phase = p := rfl
@[simp] theorem setPhase_inode (p : Phase) : (w.setPhase p).tail.inode = w.tail.inode := rfl
@[simp] theorem setPhase_reader (p : Phase) : (w.setPhase p).tail.reader = w.tail.reader := rfl
@[simp] theorem setPhase_position (p : Phase) : (w.setPhase p).tail.position = w.tail.position := rfl

@[simp] theorem persist_files (b : Bool) : (w.persist b).files = w.files := by
  unfold persist
  split_ifs <;> rfl

@[simp] theorem persist_sent (b : Bool) : (w.persist b).sent = w.sent := by
  unfold persist
  split_ifs <;> rfl

@[simp] theorem persist_tail (b : Bool) : (w.persist b).tail = w.tail := by
  unfold persist
  split_ifs <;> rfl

/-- What a step of the tailer does, and when. -/
inductive TailMove (w : World) : TailAction → World → Prop
  | shutdown {persisted : Bool} (hphase : w.tail.phase = .reading ∨ w.tail.phase = .waiting) :
      TailMove w (.shutdown persisted) ((w.setPhase (.stopped true)).persist persisted)
  | readLine (hphase : w.tail.phase = .reading) : TailMove w .readLine w.readLine
  | readError (hphase : w.tail.phase = .reading) : TailMove w .readError (w.setPhase (.stopped false))
  | wake (hphase : w.tail.phase = .waiting) : TailMove w .wake (w.setPhase .checking)
  | check {persisted : Bool} (hphase : w.tail.phase = .checking) : TailMove w (.check persisted) (w.check persisted)
  | accept {persisted : Bool} {line : Bytes} (hphase : w.tail.phase = .sending line) :
      TailMove w (.accept persisted) (w.accept line persisted)
  | closed {persisted : Bool} {line : Bytes} (hphase : w.tail.phase = .sending line) :
      TailMove w (.closed persisted) ((w.setPhase (.stopped true)).persist persisted)

theorem tailStep_spec {a : TailAction} {w w' : World} (h : w.tailStep a = some w') : TailMove w a w' := by
  unfold tailStep at h
  split at h <;> simp only [Option.some.injEq, reduceCtorEq] at h <;> subst h
  case h_1 hphase => exact .shutdown (Or.inl hphase)
  case h_2 hphase => exact .shutdown (Or.inr hphase)
  case h_3 hphase => exact .readLine hphase
  case h_4 hphase => exact .readError hphase
  case h_5 hphase => exact .wake hphase
  case h_6 hphase => exact .check hphase
  case h_7 hphase => exact .accept hphase
  case h_8 hphase => exact .closed hphase

theorem tailStep_files {a : TailAction} {w w' : World} (h : w.tailStep a = some w') : w'.files = w.files := by
  cases tailStep_spec h with
  | shutdown | closed => rw [persist_files, setPhase_files]
  | readError | wake => rfl
  | readLine =>
      unfold readLine
      simp only
      split_ifs <;> rfl
  | check =>
      unfold check
      split <;> simp
  | accept =>
      unfold accept
      simp only
      split_ifs <;> simp

theorem tailStep_check {b : Bool} {w w' : World} (h : w.tailStep (.check b) = some w') :
    w.tail.phase = .checking ∧ w' = w.check b := by
  cases tailStep_spec h with
  | check hphase => exact ⟨hphase, rfl⟩

/-- Only a check that detects a rotation changes the file that is open. -/
theorem tailStep_inode {a : TailAction} {w w' : World} (h : w.tailStep a = some w')
    (hstay : ∀ b, a = .check b → detectRotation w.files.stat w.tail.inode w.tail.position = none) :
    w'.tail.inode = w.tail.inode := by
  cases tailStep_spec h with
  | shutdown | closed => rw [persist_tail, setPhase_inode]
  | readError | wake => rfl
  | readLine =>
      unfold readLine
      simp only
      split_ifs <;> rfl
  | check =>
      unfold check
      rw [hstay _ rfl]
      rfl
  | accept =>
      unfold accept
      simp only
      split_ifs <;> simp

end World

/-! ### Following one file -/

/-- The line in the hands of the tailer. -/
def Phase.pending : Phase → List Bytes
  | .sending line => [line]
  | _ => []

def Phase.isStopped : Phase → Bool
  | .stopped _ => true
  | _ => false

/-- **The framing invariant.**  Behind the lines `base` of earlier files, what has been
emitted are lines of the open file, and together they are the part that has been read. -/
structure Framed (base : List Bytes) (w : World) : Prop where
  position_eq : w.tail.position = w.tail.reader
  le : w.tail.reader ≤ w.content.length
  framed : ∃ ls, (∀ l ∈ ls, IsLine l) ∧ ls.flatten = w.content.take w.tail.reader ∧ w.sent <+: base ++ ls ∧
    (w.tail.phase.isStopped = false → w.sent ++ w.tail.phase.pending = base ++ ls)

end PurpleWolf.Relay.LogTail
