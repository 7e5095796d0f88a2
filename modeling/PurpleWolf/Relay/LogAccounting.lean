import PurpleWolf.Relay.Accounting
import PurpleWolf.Relay.LogFraming

/-! # Where the bytes of a log file go

The tailer visits one file after the other, each from its beginning but for the first, and has
read all the bytes from where it opened a file to where it left it (`Itinerary`).  It hands on
what it has read (`Account`), in every run in which it reads text (`account_run`), and what is
there to be read it can also deliver (`delivers_rest`). -/

namespace PurpleWolf.Relay.LogTail

/-! ### Visits -/

/-- The stay of the tailer at one file: where it began to read, and what it has read. -/
structure Visit where
  inode : ℕ
  start : ℕ
  pieces : List Bytes

/-- Where the reader stands. -/
def Visit.stop (v : Visit) : ℕ := v.start + v.pieces.flatten.length

/-- The pieces are what the file holds from the start of the visit on, without a gap. -/
structure Visit.Reads (files : Files) (v : Visit) : Prop where
  start_le : v.start ≤ (files.content v.inode).length
  bytes : v.pieces.flatten <+: (files.content v.inode).drop v.start
  cut : ∀ p ∈ v.pieces, IsPiece p

/-- The files that the tailer has visited, one after the other: the one at the path when it
started, from the offset at which it started, and later ones from their beginning. -/
structure Itinerary (w₀ w : World) (earlier : List Visit) (here : Visit) : Prop where
  opened : ∃ inodes : List ℕ, (earlier ++ [here]).map (fun v => (v.inode, v.start)) =
    (w₀.tail.inode, w₀.tail.reader) :: inodes.map (fun inode => (inode, 0))
  ordered : (earlier ++ [here]).Pairwise (fun u v => u.inode < v.inode)
  reads : ∀ v ∈ earlier ++ [here], v.Reads w.files
  inode : here.inode = w.tail.inode
  stop : here.stop = w.tail.reader

theorem Files.step_content {f f' : Files} {a : WriterAction} (h : f.step a = some f') (inode : ℕ) :
    f.content inode <+: f'.content inode := by
  unfold Files.content Files.contents
  cases a with
  | append bytes =>
      cases h
      by_cases hlt : inode < f.rotated.length
      · rw [List.getElem?_append_left hlt, List.getElem?_append_left hlt]
      · rw [List.getElem?_append_right (not_lt.mp hlt), List.getElem?_append_right (not_lt.mp hlt)]
        cases hindex : inode - f.rotated.length with
        | zero => exact List.prefix_append _ _
        | succ n => exact List.prefix_rfl
  | rename =>
      unfold Files.step at h
      split_ifs at h
      cases h
      exact List.prefix_rfl
  | create =>
      unfold Files.step at h
      split_ifs at h
      cases h
      by_cases hlt : inode < (f.rotated ++ [f.current]).length
      · rw [List.getElem?_append_left hlt]
      · rw [List.getElem?_eq_none (not_lt.mp hlt)]
        exact List.nil_prefix

theorem Files.step_rotated {f f' : Files} {a : WriterAction} (h : f.step a = some f') :
    f.rotated.length ≤ f'.rotated.length := by
  cases a with
  | append bytes =>
      cases h
      exact le_rfl
  | rename =>
      unfold Files.step at h
      split_ifs at h
      cases h
      exact le_rfl
  | create =>
      unfold Files.step at h
      split_ifs at h
      cases h
      simp

theorem Visit.Reads.mono {files files' : Files} {v : Visit} (h : v.Reads files)
    (hcontent : files.content v.inode <+: files'.content v.inode) : v.Reads files' where
  start_le := h.start_le.trans hcontent.length_le
  bytes := h.bytes.trans (hcontent.drop v.start)
  cut := h.cut

/-- Where all pieces are lines, they are the first lines that are there. -/
theorem Visit.Reads.isPrefix_lines {files : Files} {v : Visit} (h : v.Reads files) (hlines : ∀ p ∈ v.pieces, IsLine p) :
    v.pieces <+: lines ((files.content v.inode).drop v.start) := by
  obtain ⟨rest, hrest⟩ := h.bytes
  rw [← hrest, lines_flatten_append hlines]
  exact List.prefix_append _ _

namespace Itinerary

variable {w₀ w w' : World} {earlier : List Visit} {here : Visit}

theorem unread_eq (h : Itinerary w₀ w earlier here) :
    (w.files.content here.inode).drop here.start = here.pieces.flatten ++ w.unread := by
  obtain ⟨rest, hrest⟩ := (h.reads here (by simp)).bytes
  unfold World.unread World.content
  rw [← h.inode, ← h.stop, Visit.stop, ← List.drop_drop, ← hrest, List.drop_left]

theorem reader_le (h : Itinerary w₀ w earlier here) : w.tail.reader ≤ w.content.length := by
  have hreads := h.reads here (by simp)
  have hlength := hreads.bytes.length_le
  have hle := hreads.start_le
  rw [List.length_drop] at hlength
  rw [← h.stop, World.content, ← h.inode, Visit.stop]
  omega

theorem congr (h : Itinerary w₀ w earlier here) (hinode : w'.tail.inode = w.tail.inode)
    (hreader : w'.tail.reader = w.tail.reader) (hfiles : ∀ inode, w.files.content inode <+: w'.files.content inode) :
    Itinerary w₀ w' earlier here where
  opened := h.opened
  ordered := h.ordered
  reads v hv := (h.reads v hv).mono (hfiles v.inode)
  inode := by rw [hinode, h.inode]
  stop := by rw [hreader, h.stop]

theorem read (h : Itinerary w₀ w earlier here) (hne : w.unread ≠ []) (hfiles : w'.files = w.files)
    (hinode : w'.tail.inode = w.tail.inode) (hreader : w'.tail.reader = w.tail.reader + (nextLine w.unread).length) :
    Itinerary w₀ w' earlier { here with pieces := here.pieces ++ [nextLine w.unread] } := by
  constructor
  · obtain ⟨inodes, hopened⟩ := h.opened
    refine ⟨inodes, ?_⟩
    rw [← hopened, List.map_append, List.map_append]
    rfl
  · have hordered := h.ordered
    rw [List.pairwise_append] at hordered ⊢
    refine ⟨hordered.1, List.pairwise_singleton _ _, ?_⟩
    intro u hu v hv
    rw [List.mem_singleton.mp hv]
    exact hordered.2.2 u hu here (by simp)
  · intro v hv
    rw [hfiles]
    obtain hv | hv := List.mem_append.mp hv
    · exact h.reads v (by simp [hv])
    · rw [List.mem_singleton.mp hv]
      have hreads := h.reads here (by simp)
      constructor
      · exact hreads.start_le
      · show (here.pieces ++ [nextLine w.unread]).flatten <+: _
        rw [h.unread_eq, List.flatten_append, List.flatten_singleton]
        exact (List.prefix_append_right_inj _).mpr (nextLine_isPrefix _)
      · intro p hp
        obtain hp | hp := List.mem_append.mp hp
        · exact hreads.cut p hp
        · rw [List.mem_singleton.mp hp]
          exact isPiece_nextLine hne
  · rw [hinode]
    exact h.inode
  · rw [hreader, ← h.stop, Visit.stop, Visit.stop, List.flatten_append, List.flatten_singleton, List.length_append,
      Nat.add_assoc]

theorem turn (h : Itinerary w₀ w earlier here) {inode : ℕ} (hlt : w.tail.inode < inode) (hfiles : w'.files = w.files)
    (hinode : w'.tail.inode = inode) (hreader : w'.tail.reader = 0) :
    Itinerary w₀ w' (earlier ++ [here]) ⟨inode, 0, []⟩ := by
  constructor
  · obtain ⟨inodes, hopened⟩ := h.opened
    refine ⟨inodes ++ [inode], ?_⟩
    rw [List.map_append, hopened, List.map_append]
    rfl
  · rw [List.pairwise_append]
    refine ⟨h.ordered, List.pairwise_singleton _ _, ?_⟩
    intro u hu v hv
    rw [List.mem_singleton.mp hv]
    obtain hu | hu := List.mem_append.mp hu
    · have hbefore := (List.pairwise_append.mp h.ordered).2.2 u hu here (by simp)
      rw [h.inode] at hbefore
      exact hbefore.trans hlt
    · rw [List.mem_singleton.mp hu, h.inode]
      exact hlt
  · intro v hv
    rw [hfiles]
    obtain hv | hv := List.mem_append.mp hv
    · exact h.reads v hv
    · rw [List.mem_singleton.mp hv]
      exact ⟨Nat.zero_le _, List.nil_prefix, fun p hp => absurd hp List.not_mem_nil⟩
  · exact hinode.symm
  · exact hreader.symm

end Itinerary

/-! ### The account of a tailer -/

namespace World

variable (w : World) (line : Bytes) (b : Bool)

theorem accept_sent : (w.accept line b).sent = w.sent ++ [line] := by
  unfold accept
  simp only
  split_ifs <;> simp

theorem accept_files : (w.accept line b).files = w.files := by
  unfold accept
  simp only
  split_ifs <;> simp

theorem accept_tail : (w.accept line b).tail.phase = .reading ∧ (w.accept line b).tail.inode = w.tail.inode ∧
    (w.accept line b).tail.reader = w.tail.reader ∧ (w.accept line b).tail.position = w.tail.position := by
  unfold accept
  simp only
  split_ifs <;> simp

end World

/-- A read does not fail, and finds text. -/
def ReadsText (w : World) (a : Action) : Prop :=
  a ≠ .tail .readError ∧ (a = .tail .readLine → Utf8.Valid (nextLine w.unread))

instance (w : World) (a : Action) : Decidable (ReadsText w a) := inferInstanceAs (Decidable (_ ∧ _))

def HasShutdown (actions : List Action) : Prop := ∃ b, .tail (.shutdown b) ∈ actions

def HasClosed (actions : List Action) : Prop := ∃ b, .tail (.closed b) ∈ actions

/-- What has become of the files that the tailer has visited; if reads find lines, then so far
lines have been read. -/
structure Account (finds : Prop) (w₀ : World) (actions : List Action) (w : World) (earlier : List Visit)
    (here : Visit) : Prop where
  notFailed : w.tail.phase ≠ .stopped false
  itinerary : Itinerary w₀ w earlier here
  handedOn : HandedOn w.tail.phase.isStopped (HasClosed actions) w.sent w.tail.phase.pending
    ((earlier ++ [here]).flatMap Visit.pieces)
  framed : finds → ∀ v ∈ earlier ++ [here], ∀ p ∈ v.pieces, IsLine p
  returned : w.tail.phase.isStopped = true → HasShutdown actions ∨ HasClosed actions
  position : w.tail.position = w.tail.reader
  inode_le : w.tail.inode ≤ w.files.rotated.length

namespace Account

variable {finds : Prop} {w₀ w w' : World} {actions : List Action} {earlier : List Visit} {here : Visit}

theorem handedOn_concat (h : Account finds w₀ actions w earlier here) (a : Action) :
    HandedOn w.tail.phase.isStopped (HasClosed (actions ++ [a])) w.sent w.tail.phase.pending
      ((earlier ++ [here]).flatMap Visit.pieces) :=
  h.handedOn.mono fun ⟨b, hb⟩ => ⟨b, List.mem_append_left _ hb⟩

theorem returned_concat (h : Account finds w₀ actions w earlier here) (a : Action)
    (hstopped : w.tail.phase.isStopped = true) : HasShutdown (actions ++ [a]) ∨ HasClosed (actions ++ [a]) := by
  obtain ⟨b, hb⟩ | ⟨b, hb⟩ := h.returned hstopped
  · exact Or.inl ⟨b, List.mem_append_left _ hb⟩
  · exact Or.inr ⟨b, List.mem_append_left _ hb⟩

theorem move (h : Account finds w₀ actions w earlier here) {a : Action}
    (htail : w'.tail.inode = w.tail.inode ∧ w'.tail.reader = w.tail.reader ∧ w'.tail.position = w.tail.position)
    (hfiles : w'.files = w.files) (hphase : w'.tail.phase ≠ .stopped false)
    (hhanded : HandedOn w'.tail.phase.isStopped (HasClosed (actions ++ [a])) w'.sent w'.tail.phase.pending
      ((earlier ++ [here]).flatMap Visit.pieces))
    (hreturned : w'.tail.phase.isStopped = true → HasShutdown (actions ++ [a]) ∨ HasClosed (actions ++ [a])) :
    Account finds w₀ (actions ++ [a]) w' earlier here := by
  obtain ⟨hinode, hreader, hposition⟩ := htail
  constructor
  · exact hphase
  · exact h.itinerary.congr hinode hreader (fun _ => by rw [hfiles])
  · exact hhanded
  · exact h.framed
  · exact hreturned
  · rw [hposition, hreader, h.position]
  · rw [hinode, hfiles]
    exact h.inode_le

theorem writer (h : Account finds w₀ actions w earlier here) {a : WriterAction} {files : Files}
    (hstep : w.files.step a = some files) :
    Account finds w₀ (actions ++ [.writer a]) { w with files := files } earlier here where
  notFailed := h.notFailed
  itinerary := h.itinerary.congr rfl rfl (Files.step_content hstep)
  handedOn := h.handedOn_concat _
  framed := h.framed
  returned := h.returned_concat _
  position := h.position
  inode_le := h.inode_le.trans (Files.step_rotated hstep)

theorem stop (h : Account finds w₀ actions w earlier here) {a : Action} (b : Bool)
    (hhanded : HandedOn true (HasClosed (actions ++ [a])) w.sent [] ((earlier ++ [here]).flatMap Visit.pieces))
    (hreturned : HasShutdown (actions ++ [a]) ∨ HasClosed (actions ++ [a])) :
    Account finds w₀ (actions ++ [a]) ((w.setPhase (.stopped true)).persist b) earlier here := by
  apply h.move
  · rw [World.persist_tail]
    exact ⟨rfl, rfl, rfl⟩
  · rw [World.persist_files, World.setPhase_files]
  · rw [World.persist_tail, World.setPhase_phase]
    simp
  · rw [World.persist_tail, World.persist_sent]
    exact hhanded
  · exact fun _ => hreturned

theorem readLine (h : Account finds w₀ actions w earlier here) (hphase : w.tail.phase = .reading)
    (htext : Utf8.Valid (nextLine w.unread)) (hfinds : finds → w.unread = [] ∨ newline ∈ w.unread) :
    ∃ here', Account finds w₀ (actions ++ [.tail .readLine]) w.readLine earlier here' := by
  have hhanded := h.handedOn_concat (.tail .readLine)
  rw [hphase] at hhanded
  unfold World.readLine
  simp only [nextLine_eq_nil]
  split_ifs with hend hutf8
  · exact ⟨here, h.move ⟨rfl, rfl, rfl⟩ rfl (by simp) hhanded (fun hstopped => Bool.noConfusion hstopped)⟩
  · exact absurd htext (Utf8.decode?_eq_none_iff.mp hutf8)
  · refine ⟨{ here with pieces := here.pieces ++ [nextLine w.unread] }, ?_⟩
    constructor
    · simp
    · exact h.itinerary.read hend rfl rfl rfl
    · have hread := hhanded.read (nextLine w.unread)
      rw [List.flatMap_append, List.flatMap_singleton] at hread ⊢
      rwa [List.append_assoc] at hread
    · intro hq v hv p hp
      have hnewline : newline ∈ w.unread := (hfinds hq).resolve_left hend
      obtain hv | hv := List.mem_append.mp hv
      · exact h.framed hq v (by simp [hv]) p hp
      · rw [List.mem_singleton.mp hv] at hp
        obtain hp | hp := List.mem_append.mp hp
        · exact h.framed hq here (by simp) p hp
        · rw [List.mem_singleton.mp hp]
          exact isLine_nextLine hnewline
    · intro hstopped
      cases hstopped
    · show w.tail.position + _ = w.tail.reader + _
      rw [h.position]
    · exact h.inode_le

/-- A check that finds a file to open finds a later one. -/
theorem lt_of_detectRotation (h : Account finds w₀ actions w earlier here) {inode : ℕ}
    (hrotation : detectRotation w.files.stat w.tail.inode w.tail.position = some inode) :
    w.tail.inode < inode ∧ inode = w.files.rotated.length := by
  have hle := h.inode_le
  unfold Files.stat at hrotation
  split_ifs at hrotation with hlinked
  · unfold detectRotation at hrotation
    simp only at hrotation
    split_ifs at hrotation with hother hshort
    · cases hrotation
      exact ⟨lt_of_le_of_ne hle (Ne.symm hother), rfl⟩
    · have hcurrent : OnCurrent w := (not_not.mp hother).symm
      have hreader := h.itinerary.reader_le
      rw [hcurrent.content, ← h.position] at hreader
      omega
  · cases hrotation

theorem check (h : Account finds w₀ actions w earlier here) (hphase : w.tail.phase = .checking) (b : Bool) :
    ∃ earlier' here', Account finds w₀ (actions ++ [.tail (.check b)]) (w.check b) earlier' here' := by
  have hhanded := h.handedOn_concat (.tail (.check b))
  rw [hphase] at hhanded
  unfold World.check
  split
  · next inode hrotation =>
      obtain ⟨hlt, hinode⟩ := h.lt_of_detectRotation hrotation
      refine ⟨earlier ++ [here], ⟨inode, 0, []⟩, ?_⟩
      constructor
      · rw [World.persist_tail]
        simp
      · apply h.itinerary.turn hlt
        · rw [World.persist_files]
        · rw [World.persist_tail]
        · rw [World.persist_tail]
      · rw [World.persist_tail, World.persist_sent, List.flatMap_append, List.flatMap_singleton, List.append_nil]
        exact hhanded
      · intro hq v hv p hp
        obtain hv | hv := List.mem_append.mp hv
        · exact h.framed hq v hv p hp
        · rw [List.mem_singleton.mp hv] at hp
          exact absurd hp List.not_mem_nil
      · rw [World.persist_tail]
        intro hstopped
        cases hstopped
      · rw [World.persist_tail]
      · rw [World.persist_tail, World.persist_files, hinode]
  · exact ⟨earlier, here, h.move ⟨rfl, rfl, rfl⟩ rfl (by simp) hhanded (fun hstopped => Bool.noConfusion hstopped)⟩

/-- **One step of a world whose tailer reads text** accounts for the files. -/
theorem step (h : Account finds w₀ actions w earlier here) {a : Action} (hok : ReadsText w a)
    (hfinds : finds → FindsLine w a) (hstep : w.step a = some w') :
    ∃ earlier' here', Account finds w₀ (actions ++ [a]) w' earlier' here' := by
  have hhanded := h.handedOn_concat a
  cases a with
  | writer a =>
      obtain ⟨files, hfiles, rfl⟩ := Option.map_eq_some_iff.mp hstep
      exact ⟨earlier, here, h.writer hfiles⟩
  | tail a =>
      change w.tailStep a = some w' at hstep
      cases World.tailStep_spec hstep with
      | @shutdown b hphase =>
          refine ⟨earlier, here, h.stop b ?_ (Or.inl ⟨b, by simp⟩)⟩
          obtain hphase | hphase := hphase
          · rw [hphase] at hhanded
            exact hhanded.stop
          · rw [hphase] at hhanded
            exact hhanded.stop
      | readLine hphase =>
          obtain ⟨here', h'⟩ := h.readLine hphase (hok.2 rfl) (fun hq => hfinds hq rfl)
          exact ⟨earlier, here', h'⟩
      | readError => exact absurd rfl hok.1
      | wake hphase =>
          rw [hphase] at hhanded
          exact ⟨earlier, here,
            h.move ⟨rfl, rfl, rfl⟩ rfl (by simp) hhanded (fun hstopped => Bool.noConfusion hstopped)⟩
      | check hphase => exact h.check hphase _
      | @accept b line hphase =>
          rw [hphase] at hhanded
          obtain ⟨hreading, hstays⟩ := w.accept_tail line b
          refine ⟨earlier, here, h.move hstays (w.accept_files line b) ?_ ?_ ?_⟩
          · rw [hreading]
            simp
          · rw [hreading, w.accept_sent]
            exact hhanded.accept
          · rw [hreading]
            exact fun hstopped => Bool.noConfusion hstopped
      | @closed b line hphase =>
          rw [hphase] at hhanded
          have hclosed : HasClosed (actions ++ [.tail (.closed b)]) := ⟨b, by simp⟩
          exact ⟨earlier, here, h.stop b (hhanded.close hclosed) (Or.inr hclosed)⟩

theorem start {files : Files} {fromBeginning : Bool} {bookmark : Option Bookmark}
    (hstart : World.start files fromBeginning bookmark = some w) :
    Account finds w [] w [] ⟨w.tail.inode, w.tail.reader, []⟩ := by
  obtain ⟨-, hfiles, hinode, hposition, hphase, hsent⟩ := World.start_spec hstart
  have hreader : w.tail.reader ≤ w.content.length := by
    rw [(onCurrent_start hstart).content, hfiles, World.start_reader hstart]
    unfold openAtStart
    split
    · split_ifs
      · exact Nat.min_le_right _ _
      · exact Nat.zero_le _
      · exact le_rfl
    · split_ifs
      · exact Nat.zero_le _
      · exact le_rfl
  constructor
  · simp [hphase]
  · constructor
    · exact ⟨[], rfl⟩
    · exact List.pairwise_singleton _ _
    · intro v hv
      rw [List.nil_append, List.mem_singleton] at hv
      rw [hv]
      exact ⟨hreader, List.nil_prefix, fun p hp => absurd hp List.not_mem_nil⟩
    · rfl
    · rfl
  · rw [hsent, hphase]
    exact HandedOn.of_eq rfl
  · intro _ v hv p hp
    rw [List.nil_append, List.mem_singleton] at hv
    rw [hv] at hp
    exact absurd hp List.not_mem_nil
  · rw [hphase]
    intro hstopped
    cases hstopped
  · exact hposition
  · rw [hinode, hfiles]

end Account

/-- **The account of a run.** -/
theorem account_run (finds : Prop) {files : Files} {fromBeginning : Bool} {bookmark : Option Bookmark} {w₀ w : World}
    {actions : List Action} (hstart : World.start files fromBeginning bookmark = some w₀)
    (hrun : Run World.step (fun w a => ReadsText w a ∧ (finds → FindsLine w a)) w₀ actions w) :
    ∃ earlier here, Account finds w₀ actions w earlier here := by
  have hrest := Run.traced (I := fun w actions => ∃ earlier here, Account finds w₀ actions w earlier here)
    (fun _ _ _ _ ⟨_, _, h⟩ hok hstep => h.step hok.1 hok.2 hstep) hrun ⟨[], _, Account.start hstart⟩
  rwa [List.nil_append] at hrest

/-! ### What can be delivered -/

/-- The tailer takes a step on its own, and what it wants to persist is persisted. -/
def GoesOn (_ : World) (a : Action) : Prop :=
  a ∈ [.tail .readLine, .tail (.accept true), .tail .wake, .tail (.check true)]

/-- A tailer can go on to send every line that is there. -/
theorem delivers_lines {w : World} (hphase : w.tail.phase = .reading) (htext : ∀ l ∈ lines w.unread, Utf8.Valid l) :
    ∃ as w', Run World.step GoesOn w as w' ∧ w'.sent = w.sent ++ lines w.unread := by
  induction hlines : lines w.unread generalizing w with
  | nil => exact ⟨[], w, rfl, (List.append_nil _).symm⟩
  | cons l ls ih =>
      obtain ⟨hnext, hrest⟩ := nextLine_of_lines_eq_cons hlines
      have hmem : l ∈ lines w.unread := hlines ▸ List.mem_cons_self
      obtain ⟨body, -, hl⟩ := isLine_of_mem_lines hmem
      have hne : l ≠ [] := by simp [hl]
      obtain ⟨reading, hreading⟩ : ∃ reading : World, reading = { w with tail := { w.tail with
          reader := w.tail.reader + l.length, position := w.tail.position + l.length, phase := .sending l } } :=
          ⟨_, rfl⟩
      have hread : w.step (.tail .readLine) = some reading := by
        show w.tailStep .readLine = _
        unfold World.tailStep World.readLine
        rw [hphase]
        simp only
        rw [hnext, if_neg hne, if_neg (fun hnone => Utf8.decode?_eq_none_iff.mp hnone (htext l hmem)), hreading]
      have haccept : reading.step (.tail (.accept true)) = some (reading.accept l true) := by
        show reading.tailStep (.accept true) = _
        unfold World.tailStep
        rw [hreading]
      obtain ⟨hphase', hinode, hreader, -⟩ := reading.accept_tail l true
      have hunread : (reading.accept l true).unread = w.unread.drop l.length := by
        unfold World.unread World.content
        rw [reading.accept_files, hinode, hreader, hreading, List.drop_drop]
      obtain ⟨as, w', hrun, hsent⟩ := ih hphase'
        (fun m hm => htext m (by rw [hunread, hrest] at hm; rw [hlines]; exact List.mem_cons_of_mem _ hm))
        (by rw [hunread, hrest])
      refine ⟨_ :: _ :: as, w', ⟨?_, _, hread, ?_, _, haccept, hrun⟩, ?_⟩
      · simp [GoesOn]
      · simp [GoesOn]
      · rw [hsent, reading.accept_sent, hreading, List.append_assoc]
        rfl

/-- So can one that has a piece in hand or waits at the end of its file, unless it will find
another file at the path. -/
theorem delivers_rest {w : World} (hactive : w.tail.phase.isStopped = false)
    (hstays : w.tail.phase = .waiting ∨ w.tail.phase = .checking →
      detectRotation w.files.stat w.tail.inode w.tail.position = none)
    (htext : ∀ l ∈ lines w.unread, Utf8.Valid l) :
    ∃ as w', Run World.step GoesOn w as w' ∧ w'.sent = w.sent ++ w.tail.phase.pending ++ lines w.unread := by
  have hchecked : ∀ w : World, w.tail.phase = .checking →
      detectRotation w.files.stat w.tail.inode w.tail.position = none → (∀ l ∈ lines w.unread, Utf8.Valid l) →
        ∃ as w', Run World.step GoesOn w as w' ∧ w'.sent = w.sent ++ lines w.unread := by
    intro w hphase hnone htext
    have hcheck : w.step (.tail (.check true)) = some (w.setPhase .reading) := by
      show w.tailStep (.check true) = _
      unfold World.tailStep World.check
      rw [hphase]
      simp only [hnone]
    obtain ⟨as, w', hrun, hsent⟩ := delivers_lines (w := w.setPhase .reading) rfl htext
    exact ⟨_ :: as, w', ⟨by simp [GoesOn], _, hcheck, hrun⟩, hsent⟩
  cases hphase : w.tail.phase with
  | reading =>
      obtain ⟨as, w', hrun, hsent⟩ := delivers_lines hphase htext
      refine ⟨as, w', hrun, ?_⟩
      rw [hsent]
      exact congrArg (· ++ _) (List.append_nil _).symm
  | waiting =>
      have hwake : w.step (.tail .wake) = some (w.setPhase .checking) := by
        show w.tailStep .wake = _
        unfold World.tailStep
        rw [hphase]
      obtain ⟨as, w', hrun, hsent⟩ := hchecked (w.setPhase .checking) rfl (hstays (Or.inl hphase)) htext
      refine ⟨_ :: as, w', ⟨by simp [GoesOn], _, hwake, hrun⟩, ?_⟩
      rw [hsent]
      exact congrArg (· ++ _) (List.append_nil _).symm
  | checking =>
      obtain ⟨as, w', hrun, hsent⟩ := hchecked w hphase (hstays (Or.inr hphase)) htext
      refine ⟨as, w', hrun, ?_⟩
      rw [hsent]
      exact congrArg (· ++ _) (List.append_nil _).symm
  | sending piece =>
      have haccept : w.step (.tail (.accept true)) = some (w.accept piece true) := by
        show w.tailStep (.accept true) = _
        unfold World.tailStep
        rw [hphase]
      obtain ⟨hphase', hinode, hreader, -⟩ := w.accept_tail piece true
      have hunread : (w.accept piece true).unread = w.unread := by
        unfold World.unread World.content
        rw [w.accept_files, hinode, hreader]
      obtain ⟨as, w', hrun, hsent⟩ := delivers_lines hphase' (by rw [hunread]; exact htext)
      refine ⟨_ :: as, w', ⟨by simp [GoesOn], _, haccept, hrun⟩, ?_⟩
      rw [hsent, hunread, w.accept_sent]
      rfl
  | stopped ok =>
      rw [hphase] at hactive
      cases hactive

end PurpleWolf.Relay.LogTail
