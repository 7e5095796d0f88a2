import PurpleWolf.Relay.Completion
import PurpleWolf.Relay.LogResume

/-! # The bookmark of a shutdown

The tailer persists its position on shutdown, and the next run starts there.  Whatever the
tasks do, the position stands for the lines that the channel has accepted (`LogTail.Spans`),
and these have been processed or still wait for the parser.  So the bookmark covers no
unprocessed event if, at the shutdown of the tailer, none of its events waits, and the
parser never gives up the channel with events in it (`bookmark_covers_processed`).

Nothing in the code sees to that: the parser leaves its loop on the same signal and drops
the channel as it is (`bookmark_covers_lost_event`). -/

namespace PurpleWolf.Relay

namespace LogTail

/-! ### What the position stands for -/

/-- Where the run that starts with `w₀` begins to read a file: files other than its first are
read from their beginning. -/
def World.readFrom (w₀ : World) (inode : ℕ) : ℕ := if inode = w₀.tail.inode then w₀.tail.reader else 0

/-- **The bytes up to the position** are those of the last lines that the run has sent, and of
the one in hand. -/
structure Spans (w₀ w : World) : Prop where
  position_eq : w.tail.position = w.tail.reader
  started : w₀.tail.inode ≤ w.tail.inode
  exists_file : w.tail.inode ≤ w.files.rotated.length
  from_le : w₀.readFrom w.tail.inode ≤ w.tail.reader
  le : w.tail.reader ≤ w.content.length
  spans : ∃ ls, ls <:+ w.sent ++ w.tail.phase.pending ∧
    ls.flatten = (w.content.take w.tail.reader).drop (w₀.readFrom w.tail.inode)

theorem Files.content_last (f : Files) : f.content f.rotated.length = f.current := by
  unfold Files.content Files.contents
  rw [List.getElem?_concat_length, Option.getD_some]

theorem Files.content_step {f f' : Files} {a : WriterAction} (h : f.step a = some f') {inode : ℕ}
    (hexists : inode ≤ f.rotated.length) :
    f.rotated.length ≤ f'.rotated.length ∧ ∃ t, f'.content inode = f.content inode ++ t := by
  cases a with
  | append bytes =>
      cases h
      refine ⟨le_rfl, ?_⟩
      obtain hlt | rfl := hexists.lt_or_eq
      · refine ⟨[], ?_⟩
        rw [List.append_nil, Files.content_of_lt hlt]
        exact Files.content_of_lt hlt
      · refine ⟨bytes, ?_⟩
        rw [Files.content_last f]
        exact Files.content_last { f with current := f.current ++ bytes }
  | rename =>
      unfold Files.step at h
      split_ifs at h
      cases h
      exact ⟨le_rfl, [], (List.append_nil _).symm⟩
  | create =>
      unfold Files.step at h
      split_ifs at h
      cases h
      refine ⟨by simp, [], ?_⟩
      rw [List.append_nil, Files.content_of_lt (by simp; omega)]
      rfl

namespace Spans

variable {w₀ w w' : World}

theorem start {files : Files} {fromBeginning : Bool} {bookmark : Option Bookmark}
    (h : World.start files fromBeginning bookmark = some w) : Spans w w := by
  obtain ⟨-, hfiles, hinode, hpos, hphase, hsent⟩ := World.start_spec h
  have hcontent := (onCurrent_start h).content
  have hfrom : w.readFrom w.tail.inode = w.tail.reader := if_pos rfl
  refine ⟨hpos, le_rfl, ?_, hfrom.le, ?_, [], List.nil_suffix, ?_⟩
  · rw [hinode, hfiles]
  · rw [hcontent, hfiles, World.start_reader h]
    unfold openAtStart
    split
    · split_ifs
      · exact min_le_right _ _
      · exact Nat.zero_le _
      · exact le_rfl
    · split_ifs
      · exact Nat.zero_le _
      · exact le_rfl
  · rw [hfrom, List.drop_eq_nil_of_le (List.length_take_le _ _)]
    rfl

/-- The tailer reads on, or hands on what it has in hand, in the same file. -/
theorem congr (h : Spans w₀ w) (hfiles : w'.files = w.files) (hinode : w'.tail.inode = w.tail.inode)
    (hreader : w'.tail.reader = w.tail.reader) (hposition : w'.tail.position = w.tail.position)
    (hsent : w'.sent ++ w'.tail.phase.pending = w.sent ++ w.tail.phase.pending) : Spans w₀ w' := by
  have hcontent : w'.content = w.content := by
    unfold World.content
    rw [hfiles, hinode]
  constructor
  · rw [hposition, hreader, h.position_eq]
  · rw [hinode]
    exact h.started
  · rw [hinode, hfiles]
    exact h.exists_file
  · rw [hinode, hreader]
    exact h.from_le
  · rw [hreader, hcontent]
    exact h.le
  · rw [hsent, hreader, hinode, hcontent]
    exact h.spans

theorem persist (h : Spans w₀ w) (b : Bool) : Spans w₀ (w.persist b) := by
  apply h.congr (w.persist_files b)
  · rw [w.persist_tail]
  · rw [w.persist_tail]
  · rw [w.persist_tail]
  · rw [w.persist_tail, w.persist_sent]

theorem setPhase (h : Spans w₀ w) {p : Phase} (hpending : w.tail.phase.pending = []) (hp : p.pending = []) :
    Spans w₀ (w.setPhase p) := by
  refine h.congr rfl rfl rfl rfl ?_
  rw [World.setPhase_sent, World.setPhase_phase, hp, hpending]

theorem readLine (h : Spans w₀ w) (hphase : w.tail.phase = .reading) : Spans w₀ w.readLine := by
  have hpending : w.tail.phase.pending = [] := by
    rw [hphase]
    rfl
  unfold World.readLine
  simp only
  split_ifs with hnil hutf8
  · exact h.setPhase hpending rfl
  · exact h.setPhase hpending rfl
  · obtain ⟨hpos, hstarted, hexists, hfrom, hle, ls, hls, hflat⟩ := h
    have hlen : (nextLine w.unread).length ≤ w.content.length - w.tail.reader := by
      have hprefix := (nextLine_isPrefix w.unread).length_le
      unfold World.unread at hprefix ⊢
      rwa [List.length_drop] at hprefix
    have htake : w.content.take (w.tail.reader + (nextLine w.unread).length) =
        w.content.take w.tail.reader ++ nextLine w.unread := by
      rw [List.take_add]
      exact congrArg _ (take_nextLine w.unread)
    rw [hpending, List.append_nil] at hls
    refine ⟨?_, hstarted, hexists, ?_, ?_, ls ++ [nextLine w.unread], ?_, ?_⟩
    · rw [hpos]
    · exact hfrom.trans (Nat.le_add_right _ _)
    · show w.tail.reader + _ ≤ w.content.length
      omega
    · obtain ⟨earlier, hearlier⟩ := hls
      refine ⟨earlier, ?_⟩
      rw [← List.append_assoc, hearlier]
      rfl
    · show _ = (w.content.take (w.tail.reader + (nextLine w.unread).length)).drop (w₀.readFrom w.tail.inode)
      rw [htake, List.drop_append_of_le_length, List.flatten_append, hflat, List.flatten_singleton]
      rw [List.length_take]
      omega

theorem detectRotation_later (h : Spans w₀ w) {inode : ℕ}
    (hdetect : detectRotation w.files.stat w.tail.inode w.tail.position = some inode) :
    w.tail.inode < inode ∧ inode = w.files.rotated.length := by
  have hexists := h.exists_file
  have hle := h.le
  unfold detectRotation Files.stat at hdetect
  split_ifs at hdetect with hlinked
  · by_cases hother : w.files.rotated.length = w.tail.inode
    · exfalso
      have hcontent : w.content = w.files.current := OnCurrent.content hother.symm
      rw [hcontent, ← h.position_eq] at hle
      simp only [ne_eq] at hdetect
      rw [if_neg (not_not.mpr hother), if_neg (not_lt.mpr hle)] at hdetect
      cases hdetect
    · simp only [ne_eq] at hdetect
      rw [if_pos hother] at hdetect
      cases hdetect
      omega

theorem check (h : Spans w₀ w) (hphase : w.tail.phase = .checking) (b : Bool) : Spans w₀ (w.check b) := by
  unfold World.check
  split
  · rename_i inode hdetect
    obtain ⟨hlater, hlast⟩ := h.detectRotation_later hdetect
    have hstarted := h.started
    have hfrom : w₀.readFrom inode = 0 := if_neg (by omega)
    refine Spans.persist (w := { w with tail := ⟨inode, 0, 0, 0, .reading⟩ }) ?_ b
    refine ⟨rfl, ?_, hlast.le, hfrom.le, Nat.zero_le _, [], List.nil_suffix, ?_⟩
    · show w₀.tail.inode ≤ inode
      omega
    · show [] = (List.take 0 _).drop _
      rw [List.take_zero, List.drop_nil]
  · exact h.setPhase (by rw [hphase]; rfl) rfl

theorem accept (h : Spans w₀ w) {line : Bytes} (hphase : w.tail.phase = .sending line) (b : Bool) :
    Spans w₀ (w.accept line b) := by
  have hsent : ∀ n, Spans w₀ { w with
      sent := w.sent ++ [line], tail := { w.tail with phase := .reading, emittedSinceBookmark := n } } := by
    intro n
    refine h.congr rfl rfl rfl rfl ?_
    rw [hphase]
    exact List.append_nil _
  unfold World.accept
  simp only
  split_ifs
  · exact (hsent 0).persist b
  · exact hsent _

/-- **One step of the tailer**, unless the channel is closed under it. -/
theorem tailStep (h : Spans w₀ w) {a : TailAction} (hstep : w.tailStep a = some w') (hopen : ∀ b, a ≠ .closed b) :
    Spans w₀ w' := by
  cases World.tailStep_spec hstep with
  | shutdown hphase =>
      obtain hphase | hphase := hphase <;> exact (h.setPhase (by rw [hphase]; rfl) rfl).persist _
  | readLine hphase => exact h.readLine hphase
  | readError hphase | wake hphase => exact h.setPhase (by rw [hphase]; rfl) rfl
  | check hphase => exact h.check hphase _
  | accept hphase => exact h.accept hphase _
  | closed => exact absurd rfl (hopen _)

theorem writer (h : Spans w₀ w) {a : WriterAction} {files : Files} (hstep : w.files.step a = some files) :
    Spans w₀ { w with files } := by
  obtain ⟨hgrow, t, ht⟩ := Files.content_step hstep h.exists_file
  have hcontent : ({ w with files } : World).content = w.content ++ t := ht
  have hle := h.le
  refine ⟨h.position_eq, h.started, h.exists_file.trans hgrow, h.from_le, ?_, ?_⟩
  · show w.tail.reader ≤ _
    rw [hcontent, List.length_append]
    omega
  · rw [hcontent, List.take_append_of_le_length hle]
    exact h.spans

end Spans

end LogTail

/-! ### Where the events are -/

/-- The event that `process_one` is at. -/
def ParserPhase.inHand : ParserPhase → List RawEvent
  | .processing event => [event]
  | .fanningOut event _ _ => [event]
  | _ => []

/-- The lines of one source. -/
def linesOf (i : ℕ) (events : List RawEvent) : List Bytes :=
  (events.filter (fun event => event.sourceId = i)).map (·.line)

theorem linesOf_append (i : ℕ) (as bs : List RawEvent) : linesOf i (as ++ bs) = linesOf i as ++ linesOf i bs := by
  unfold linesOf
  rw [List.filter_append, List.map_append]

theorem linesOf_self (i : ℕ) (lines : List Bytes) : linesOf i (lines.map (RawEvent.mk i)) = lines := by
  induction lines with
  | nil => rfl
  | cons l lines ih =>
      unfold linesOf at ih ⊢
      rw [List.map_cons, List.filter_cons_of_pos (by simp), List.map_cons, ih]

theorem linesOf_other {i k : ℕ} (h : k ≠ i) (lines : List Bytes) : linesOf i (lines.map (RawEvent.mk k)) = [] := by
  induction lines with
  | nil => rfl
  | cons l lines ih =>
      unfold linesOf at ih ⊢
      rw [List.map_cons, List.filter_cons_of_neg (by simpa using h), ih]

theorem linesOf_suffix {i : ℕ} {as bs : List RawEvent} (h : as <:+ bs) (hnil : linesOf i bs = []) :
    linesOf i as = [] := by
  obtain ⟨front, rfl⟩ := h
  rw [linesOf_append] at hnil
  exact (List.append_eq_nil_iff.mp hnil).2

namespace Runtime

/-- The events that have been accepted and not been processed. -/
def waiting (s : Runtime) : List RawEvent := s.parser.inHand ++ s.raw

/-- A step that loses no event of source `i`: the parser gives up the channel when none of
them waits, the tailer takes its shutdown branch when none of them waits, and no send of the
tailer fails. -/
def Orderly (i : ℕ) (s : Runtime) : RuntimeAction → Prop
  | .parser .exit => linesOf i s.waiting = []
  | .parser .cancel => linesOf i s.waiting = []
  | .source k (.act (.logTail (.tail (.shutdown _)))) => k = i → linesOf i s.waiting = []
  | .source k (.act (.logTail (.tail (.closed _)))) => k ≠ i
  | _ => True

variable {setup : ParserSetup} {s t : Runtime} {i : ℕ}

/-- **The parser processes the events in their order**, unless it gives up the channel. -/
theorem parserStep_events {a : ParserAction} (h : s.parserStep setup a = some t) :
    (t.processed ++ t.waiting = s.processed ++ s.waiting ∧ t.waiting <:+ s.waiting) ∨
      (a = .exit ∨ a = .cancel) ∧ t.processed = s.processed ∧ t.waiting = [] := by
  cases parserStep_spec h with
  | receive hparser hraw =>
      left
      unfold waiting
      rw [hparser, hraw]
      exact ⟨rfl, List.suffix_rfl⟩
  | skip hparser | fanned hparser =>
      left
      unfold waiting
      rw [hparser]
      exact ⟨List.append_assoc _ _ _, List.suffix_append _ _⟩
  | exit => exact Or.inr ⟨Or.inl rfl, rfl, rfl⟩
  | cancel => exact Or.inr ⟨Or.inr rfl, rfl, rfl⟩
  | finish => exact Or.inl ⟨rfl, List.suffix_rfl⟩
  | inputClosed hparser | shutdown hparser | build hparser | offer hparser | dropSender hparser =>
      left
      unfold waiting
      rw [hparser]
      exact ⟨rfl, List.suffix_rfl⟩

/-- **A step that is no action of source `i`** leaves its events where they are, or processes
the first of them. -/
theorem step_events {a : RuntimeAction} (h : s.step setup a = some t) (horderly : Orderly i s a)
    (hother : ∀ b, a ≠ .source i (.act b)) :
    linesOf i (t.processed ++ t.waiting) = linesOf i (s.processed ++ s.waiting) ∧
      (linesOf i s.waiting = [] → linesOf i t.waiting = []) := by
  cases a with
  | signal =>
      cases h
      exact ⟨rfl, id⟩
  | source k a =>
      obtain ⟨task, task', lines, -, rfl, hmove⟩ := sourceStep_spec h
      have hnone : linesOf i (lines.map (RawEvent.mk k)) = [] := by
        by_cases hk : k = i
        · obtain ⟨b, rfl, -⟩ | ⟨-, -, rfl⟩ := hmove
          · exact absurd (by rw [hk]) (hother b)
          · rfl
        · exact linesOf_other hk lines
      have hwaiting : linesOf i (s.parser.inHand ++ (s.raw ++ lines.map (RawEvent.mk k))) = linesOf i s.waiting := by
        rw [← List.append_assoc, linesOf_append, hnone, List.append_nil]
        rfl
      constructor
      · rw [linesOf_append, linesOf_append]
        exact congrArg _ hwaiting
      · intro hs
        exact hwaiting.trans hs
  | parser a =>
      obtain ⟨hevents, hsuffix⟩ | ⟨hgiven, hprocessed, hwaiting⟩ := parserStep_events h
      · rw [hevents]
        exact ⟨rfl, linesOf_suffix hsuffix⟩
      · have hnone : linesOf i s.waiting = [] := by
          obtain rfl | rfl := hgiven
          · exact horderly
          · exact horderly
        rw [hprocessed, hwaiting, linesOf_append, linesOf_append, hnone]
        exact ⟨rfl, fun _ => rfl⟩
  | sink j a =>
      obtain ⟨sub, sub', -, -, rfl⟩ := sinkStep_spec h
      exact ⟨rfl, id⟩
  | supervisor a =>
      have hstep := superviseStep_spec h
      unfold waiting
      rw [hstep.processed, hstep.parser, hstep.raw]
      exact ⟨rfl, id⟩

/-! ### The invariant -/

/-- **The tailer at place `i`**: its position spans what it has sent, which has been processed
or waits; and once it has returned nothing of it waits. -/
structure Followed (w₀ : LogTail.World) (i : ℕ) (s : Runtime) (w : LogTail.World) : Prop where
  spans : LogTail.Spans w₀ w
  sent : w.sent = linesOf i (s.processed ++ s.waiting)
  returned : w.tail.phase = .stopped true → linesOf i s.waiting = []

theorem Followed.act {w₀ w w' : LogTail.World} (h : Followed w₀ i s w) {a : LogTail.Action} (hstep : w.step a = some w')
    (horderly : Orderly i s (.source i (.act (.logTail a))))
    (hprocessed : t.processed = s.processed) (hwaiting : t.waiting = s.waiting ++
      ((Source.logTail w).output (.logTail a)).map (RawEvent.mk i)) : Followed w₀ i t w' := by
  obtain ⟨hspans, hsent, hreturned⟩ := h
  have hsource : (Source.logTail w).step (.logTail a) = some (.logTail w') := by
    show (w.step a).map Source.logTail = _
    rw [hstep]
    rfl
  refine ⟨?_, ?_, ?_⟩
  · cases a with
    | writer a =>
        obtain ⟨files, hfiles, rfl⟩ := Option.map_eq_some_iff.mp hstep
        exact hspans.writer hfiles
    | tail a =>
        apply hspans.tailStep hstep
        rintro b rfl
        exact horderly rfl
  · have hlines : w'.sent = w.sent ++ (Source.logTail w).output (.logTail a) := Source.step_sent hsource
    rw [hlines, hsent, hprocessed, hwaiting, ← List.append_assoc, linesOf_append i (_ ++ _), linesOf_self]
  · intro hstopped
    rw [hwaiting, linesOf_append, linesOf_self]
    cases a with
    | writer a =>
        obtain ⟨files, -, rfl⟩ := Option.map_eq_some_iff.mp hstep
        exact (List.append_nil _).trans (hreturned hstopped)
    | tail a =>
        obtain ⟨b, rfl, -⟩ | ⟨b, rfl⟩ := LogTail.World.tailStep_stopped hstep hstopped
        · exact (List.append_nil _).trans (horderly rfl)
        · exact absurd rfl horderly

/-- **One step of the pipeline.** -/
theorem followed_step {w₀ : LogTail.World} {a : RuntimeAction}
    (h : ∀ task, s.sources[i]? = some task → ∃ w, task.source = .logTail w ∧ Followed w₀ i s w)
    (horderly : Orderly i s a) (hstep : s.step setup a = some t) :
    ∀ task, t.sources[i]? = some task → ∃ w, task.source = .logTail w ∧ Followed w₀ i t w := by
  intro x hx
  obtain ⟨task, htask, ⟨b, rfl, -, hsource⟩ | ⟨hother, hsame⟩⟩ := step_source hstep hx
  · obtain ⟨w, hw, hfollowed⟩ := h task htask
    obtain ⟨task', after, lines, htask', rfl, ⟨b', ⟨⟩, -, -, rfl⟩ | ⟨hidle, -⟩⟩ := sourceStep_spec hstep
    · cases htask'.symm.trans htask
      rw [hw] at hsource
      cases b with
      | stdin b => cases hsource
      | logTail b =>
          obtain ⟨w', hw', hx'⟩ := Option.map_eq_some_iff.mp hsource
          refine ⟨w', hx'.symm, hfollowed.act hw' horderly rfl ?_⟩
          rw [hw]
          exact (List.append_assoc _ _ _).symm
    · exact absurd rfl (hidle b)
  · obtain ⟨w, hw, hspans, hsent, hreturned⟩ := h task htask
    obtain ⟨hevents, hwaiting⟩ := step_events hstep horderly hother
    exact ⟨w, hsame.trans hw, hspans, hsent.trans hevents.symm, fun hstopped => hwaiting (hreturned hstopped)⟩

/-! ### Every run -/

/-- **The bookmark of a shutdown covers no unprocessed event.**  If it has reached the disk, the
bytes of its file, from where the run began to read it up to the position, are those of the
last lines that have been processed. -/
def CoversProcessed (w₀ w : LogTail.World) (processed : List Bytes) : Prop :=
  w.bookmark = some ⟨w.tail.inode, w.tail.position⟩ →
    ∃ ls, ls <:+ processed ∧ ls.flatten = (w.content.take w.tail.position).drop (w₀.readFrom w.tail.inode)

/-- **Graceful shutdown.**  In every run of the pipeline whose steps are orderly as far as a
tailer is concerned, the bookmark that the tailer has left on shutdown covers no unprocessed
event, in whatever state the other tasks are. -/
theorem bookmark_covers_processed {sources : List Source} {subscribers : List SubscriberConfig}
    {subscriberQueue : ℕ} {actions : List RuntimeAction} {files : LogTail.Files} {fromBeginning : Bool}
    {bookmark : Option LogTail.Bookmark} {w₀ w : LogTail.World} {stage : Stage}
    (hsource : sources[i]? = some (.logTail w₀))
    (hstart : LogTail.World.start files fromBeginning bookmark = some w₀)
    (hrun : Run (step setup) (Orderly i) (start sources subscribers subscriberQueue) actions s)
    (htail : s.sources[i]? = some ⟨.logTail w, stage⟩) (hstopped : w.tail.phase = .stopped true) :
    CoversProcessed w₀ w (linesOf i s.processed) := by
  have hinit : ∀ task, (start sources subscribers subscriberQueue).sources[i]? = some task →
      ∃ w, task.source = .logTail w ∧ Followed w₀ i (start sources subscribers subscriberQueue) w := by
    intro task htask
    have htask' : (sources.map fun source => (⟨source, .running⟩ : SourceTask))[i]? = some task := htask
    rw [List.getElem?_map, hsource] at htask'
    cases htask'
    obtain ⟨-, -, -, -, hphase, hsent⟩ := LogTail.World.start_spec hstart
    refine ⟨w₀, rfl, LogTail.Spans.start hstart, hsent, ?_⟩
    rw [hphase]
    rintro ⟨⟩
  have hinv := hrun.invariant
    (I := fun s => ∀ task, s.sources[i]? = some task → ∃ w, task.source = .logTail w ∧ Followed w₀ i s w)
    (fun _ _ _ h horderly hstep => followed_step h horderly hstep) hinit
  obtain ⟨_, ⟨⟩, hspans, hsent, hreturned⟩ := hinv _ htail
  obtain ⟨ls, hls, hflat⟩ := hspans.spans
  have hpending : w.tail.phase.pending = [] := by
    rw [hstopped]
    rfl
  rw [hpending, List.append_nil, hsent, linesOf_append, hreturned hstopped, List.append_nil] at hls
  intro _
  refine ⟨ls, hls, ?_⟩
  rw [hspans.position_eq]
  exact hflat

instance (i : ℕ) (s : Runtime) : DecidablePred (Orderly i s)
  | .parser .exit => inferInstanceAs (Decidable (linesOf i s.waiting = []))
  | .parser .cancel => inferInstanceAs (Decidable (linesOf i s.waiting = []))
  | .source k (.act (.logTail (.tail (.shutdown _)))) =>
      inferInstanceAs (Decidable (k = i → linesOf i s.waiting = []))
  | .source k (.act (.logTail (.tail (.closed _)))) => inferInstanceAs (Decidable (k ≠ i))
  | .signal => isTrue trivial
  | .source _ .finish => isTrue trivial
  | .source _ .cancel => isTrue trivial
  | .source _ (.act (.stdin _)) => isTrue trivial
  | .source _ (.act (.logTail (.writer _))) => isTrue trivial
  | .source _ (.act (.logTail (.tail .readLine))) => isTrue trivial
  | .source _ (.act (.logTail (.tail .readError))) => isTrue trivial
  | .source _ (.act (.logTail (.tail .wake))) => isTrue trivial
  | .source _ (.act (.logTail (.tail (.check _)))) => isTrue trivial
  | .source _ (.act (.logTail (.tail (.accept _)))) => isTrue trivial
  | .parser .receive => isTrue trivial
  | .parser .inputClosed => isTrue trivial
  | .parser .shutdown => isTrue trivial
  | .parser (.parse _ _ _) => isTrue trivial
  | .parser .fanOut => isTrue trivial
  | .parser .dropSender => isTrue trivial
  | .parser .finish => isTrue trivial
  | .sink _ _ => isTrue trivial
  | .supervisor _ => isTrue trivial

/-- The parser is through with the line when the shutdown is signalled. -/
theorem bookmark_covers_processed_idle : ∃ s : Runtime, linesOf 0 s.processed = [[0x61, 0x0A]] ∧
    CoversProcessed ⟨⟨[], [0x61, 0x0A], true⟩, ⟨0, 0, 0, 0, .reading⟩, none, []⟩
      ⟨⟨[], [0x61, 0x0A], true⟩, ⟨0, 2, 2, 1, .stopped true⟩, some ⟨0, 2⟩, [[0x61, 0x0A]]⟩
      (linesOf 0 s.processed) := by
  let w₀ : LogTail.World := ⟨⟨[], [0x61, 0x0A], true⟩, ⟨0, 0, 0, 0, .reading⟩, none, []⟩
  let w : LogTail.World := ⟨⟨[], [0x61, 0x0A], true⟩, ⟨0, 2, 2, 1, .stopped true⟩, some ⟨0, 2⟩, [[0x61, 0x0A]]⟩
  let setup : ParserSetup := ⟨Json.standard, [], "relay".toList⟩
  let actions : List RuntimeAction :=
    [.source 0 (.act (.logTail (.tail .readLine))), .source 0 (.act (.logTail (.tail (.accept true)))),
      .parser .receive, .parser (.parse [] "id".toList 0), .signal, .parser .shutdown,
      .source 0 (.act (.logTail (.tail (.shutdown true)))), .parser .exit]
  have hcheck : (Run.exec (step setup) (Orderly 0) (start [.logTail w₀] [] 1) actions).any (fun s =>
      decide (s.sources[0]? = some ⟨.logTail w, .running⟩) && decide (linesOf 0 s.processed = [[0x61, 0x0A]])) =
        true := by decide +kernel
  obtain ⟨s, hexec, hs⟩ := (Option.any_eq_true _ _).mp hcheck
  simp only [Bool.and_eq_true, decide_eq_true_eq] at hs
  have hstart : LogTail.World.start ⟨[], [0x61, 0x0A], true⟩ true none = some w₀ := rfl
  exact ⟨s, hs.2, bookmark_covers_processed rfl hstart (Run.of_exec hexec) hs.1 rfl⟩

/-- **A bookmark that covers a lost event.**  The parser leaves its loop on the signal with an
event in the channel; the tailer persists its position behind that event, the run returns
`Ok`, and a run that starts from the bookmark finds nothing to read. -/
theorem bookmark_covers_lost_event : ∃ setup sources subscribers subscriberQueue actions s w₀ w,
    sources[0]? = some (.logTail w₀) ∧ LogTail.World.start ⟨[], [0x61, 0x0A], true⟩ true none = some w₀ ∧
      Run (step setup) (fun _ _ => True) (start sources subscribers subscriberQueue) actions s ∧
      s.supervisor.phase = .returned ∧ s.supervisor.outcome = .ok () ∧
      s.sources[0]? = some ⟨.logTail w, .joined⟩ ∧ w.tail.phase = .stopped true ∧
      ¬ CoversProcessed w₀ w (linesOf 0 s.processed) ∧
      ∃ v, LogTail.World.start w.files true w.bookmark = some v ∧ v.unread = [] := by
  let w₀ : LogTail.World := ⟨⟨[], [0x61, 0x0A], true⟩, ⟨0, 0, 0, 0, .reading⟩, none, []⟩
  let w : LogTail.World := ⟨⟨[], [0x61, 0x0A], true⟩, ⟨0, 2, 2, 1, .stopped true⟩, some ⟨0, 2⟩, [[0x61, 0x0A]]⟩
  let setup : ParserSetup := ⟨Json.standard, [], "relay".toList⟩
  let subscribers : List SubscriberConfig := [⟨"siem".toList, true, fun _ => true, 1⟩]
  let actions : List RuntimeAction :=
    [.source 0 (.act (.logTail (.tail .readLine))), .source 0 (.act (.logTail (.tail (.accept true)))), .signal,
      .parser .shutdown, .source 0 (.act (.logTail (.tail (.shutdown true)))), .source 0 .finish,
      .parser .dropSender, .parser .exit, .parser .finish, .sink 0 .shutdown, .sink 0 .finish,
      .supervisor .shutdown, .supervisor (.joinSource 0), .supervisor .drained, .supervisor .joinParser,
      .supervisor (.joinSink 0), .supervisor .drained]
  have hcheck : (Run.exec (step setup) (fun _ _ => True) (start [.logTail w₀] subscribers 1) actions).any (fun s =>
      s.supervisor.phase == .returned && decide (s.supervisor.outcome = .ok ()) &&
        decide (s.sources[0]? = some ⟨.logTail w, .joined⟩) && decide (s.processed = [])) = true := by
    decide +kernel
  obtain ⟨s, hexec, hs⟩ := (Option.any_eq_true _ _).mp hcheck
  simp only [Bool.and_eq_true, beq_iff_eq, decide_eq_true_eq] at hs
  obtain ⟨⟨⟨hreturned, hok⟩, hsource⟩, hprocessed⟩ := hs
  refine ⟨setup, [.logTail w₀], subscribers, 1, actions, s, w₀, w, rfl, rfl, Run.of_exec hexec, hreturned, hok,
    hsource, rfl, ?_, ⟨_, rfl, by decide⟩⟩
  intro hcovers
  obtain ⟨ls, hls, hflat⟩ := hcovers rfl
  rw [hprocessed] at hls
  rw [List.suffix_nil.mp hls] at hflat
  exact absurd hflat (by decide)

end Runtime

end PurpleWolf.Relay
