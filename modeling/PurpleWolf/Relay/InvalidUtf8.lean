import PurpleWolf.Relay.LogAccounting

/-! # Lines that are not UTF-8

Both sources read lines into a `String`, and `read_line` fails on bytes that are not valid
UTF-8.  `sources_deliver_iff` says exactly when a source gets by: it does not fail and every
byte of its input is accounted for if and only if each of its reads finds valid UTF-8. -/

namespace PurpleWolf.Relay

/-! ### `stdin` -/

namespace Stdin

/-- Nothing goes wrong but the bytes. -/
def NoReadError (_ : Reader) (a : Action) : Prop := a ≠ .readError

instance (r : Reader) (a : Action) : Decidable (NoReadError r a) := inferInstanceAs (Decidable (_ ≠ _))

/-- **The source delivers its input.**  It has not failed; the pieces of the bytes that have
arrived are those it has sent, one that it may have in hand (or have given up when the channel
was closed), and those it has yet to read; it returns on its own only when it has sent all of
them; and until then it can go on to send every line that is there. -/
structure Delivers (actions : List Action) (r : Reader) : Prop where
  notFailed : r.phase ≠ .stopped false
  accounted : ∃ read, HandedOn r.phase.isStopped (.closed ∈ actions) r.sent r.phase.pending read ∧
    pieces (arrived actions) = read ++ pieces r.rest
  returned : r.phase.isStopped = true → .shutdown ∉ actions → .closed ∉ actions →
    r.ended = true ∧ r.sent = pieces (arrived actions)
  goesOn : r.phase.isStopped = false → (∀ l ∈ lines r.rest, Utf8.Valid l) →
    ∃ as r', Run Reader.step ReadsOrSends r as r' ∧ r'.sent = r.sent ++ r.phase.pending ++ lines r.rest

theorem Account.delivers {actions : List Action} {r : Reader} {read : List Bytes} (h : Account actions r read) :
    Delivers actions r := by
  constructor
  · exact h.notFailed
  · exact ⟨read, h.handedOn, h.pieces⟩
  · intro hstopped hshutdown hclosed
    obtain ⟨hended, hrest⟩ := ((h.returned hstopped).resolve_left hshutdown).resolve_left hclosed
    have hpending : r.phase.pending = [] := by
      cases hphase : r.phase with
      | reading => rfl
      | stopped ok => rfl
      | sending line =>
          rw [hphase] at hstopped
          cases hstopped
    have hsent := h.handedOn.eq fun hlost => hclosed hlost.2
    rw [hpending, List.append_nil] at hsent
    refine ⟨hended, ?_⟩
    rw [h.pieces, hrest, hsent]
    exact (List.append_nil _).symm
  · exact delivers_rest

/-- A source that has returned at the end of the stream has sent every line, and every byte. -/
theorem Delivers.sent_all {actions : List Action} {r : Reader} (h : Delivers actions r)
    (hstopped : r.phase.isStopped = true) (hshutdown : .shutdown ∉ actions) (hclosed : .closed ∉ actions) :
    lines (arrived actions) <+: r.sent ∧ r.sent.flatten = arrived actions := by
  rw [(h.returned hstopped hshutdown hclosed).2]
  exact ⟨lines_isPrefix_pieces _, flatten_pieces _⟩

theorem failed_step {r r' : Reader} {a : Action} (h : r.phase = .stopped false) (hstep : r.step a = some r') :
    r'.phase = .stopped false ∧ r'.sent = r.sent := by
  unfold Reader.step at hstep
  rw [h] at hstep
  cases a with
  | arrive bytes | hangUp =>
      simp only at hstep
      split_ifs at hstep
      cases hstep
      exact ⟨rfl, rfl⟩
  | shutdown | readLine | readError | accept | closed => cases hstep

theorem readsText_or_failed {r r' : Reader} {a : Action} (hok : NoReadError r a) (hstep : r.step a = some r') :
    ReadsText r a ∨ r'.phase = .stopped false := by
  by_cases htext : ReadsText r a
  · exact Or.inl htext
  · right
    obtain ⟨rfl, hinvalid⟩ := Classical.not_imp.mp (not_and.mp htext hok)
    have hne : nextLine r.rest ≠ [] := by
      intro hnil
      rw [hnil] at hinvalid
      exact hinvalid (by decide)
    unfold Reader.step at hstep
    cases hphase : r.phase with
    | reading =>
        rw [hphase] at hstep
        simp only at hstep
        split_ifs at hstep
        cases hstep
        unfold Reader.readLine
        simp only
        rw [if_neg hne, if_pos (Utf8.decode?_eq_none_iff.mpr hinvalid)]
    | sending line | stopped ok =>
        rw [hphase] at hstep
        cases hstep

/-- **When the source delivers its input.** -/
theorem delivers_iff {r : Reader} {actions : List Action} (hrun : Run Reader.step NoReadError Reader.start actions r) :
    Delivers actions r ↔ Run Reader.step ReadsText Reader.start actions r := by
  constructor
  · intro h
    exact hrun.avoids (fun _ _ _ hok hstep => readsText_or_failed hok hstep)
      (fun _ _ _ hfailed _ hstep => (failed_step hfailed hstep).1) h.notFailed
  · intro htext
    obtain ⟨read, h⟩ := account_run htext
    exact h.delivers

end Stdin

/-! ### `log_tail` -/

namespace LogTail

/-- Nothing goes wrong but the bytes. -/
def NoReadError (_ : World) (a : Action) : Prop := a ≠ .tail .readError

instance (w : World) (a : Action) : Decidable (NoReadError w a) := inferInstanceAs (Decidable (_ ≠ _))

/-- **The source delivers its input.**  It has not failed; the bytes that it has read of the
files it has visited are, piece by piece, those it has sent and one that it may have in hand (or
have given up when the channel was closed), and the pieces are the next lines of the files if its
reads find lines; it returns only when it is told to; and until then it can go on to send every line that is
there, unless it will leave the file for another. -/
structure Delivers (w₀ : World) (actions : List Action) (w : World) : Prop where
  notFailed : w.tail.phase ≠ .stopped false
  accounted : ∃ earlier here, Itinerary w₀ w earlier here ∧
    HandedOn w.tail.phase.isStopped (HasClosed actions) w.sent w.tail.phase.pending
      ((earlier ++ [here]).flatMap Visit.pieces) ∧
    (Run World.step FindsLine w₀ actions w →
      ∀ v ∈ earlier ++ [here], v.pieces <+: lines ((w.files.content v.inode).drop v.start))
  returned : w.tail.phase.isStopped = true → HasShutdown actions ∨ HasClosed actions
  goesOn : w.tail.phase.isStopped = false →
    (w.tail.phase = .waiting ∨ w.tail.phase = .checking →
      detectRotation w.files.stat w.tail.inode w.tail.position = none) →
    (∀ l ∈ lines w.unread, Utf8.Valid l) →
      ∃ as w', Run World.step GoesOn w as w' ∧ w'.sent = w.sent ++ w.tail.phase.pending ++ lines w.unread

theorem failed_step {w w' : World} {a : Action} (h : w.tail.phase = .stopped false) (hstep : w.step a = some w') :
    w'.tail.phase = .stopped false ∧ w'.sent = w.sent := by
  cases a with
  | writer a =>
      obtain ⟨files, -, rfl⟩ := Option.map_eq_some_iff.mp hstep
      exact ⟨h, rfl⟩
  | tail a =>
      change w.tailStep a = some w' at hstep
      unfold World.tailStep at hstep
      rw [h] at hstep
      cases a with
      | shutdown | readLine | readError | wake | check | accept | closed => cases hstep

theorem readsText_or_failed {w w' : World} {a : Action} (hok : NoReadError w a) (hstep : w.step a = some w') :
    ReadsText w a ∨ w'.tail.phase = .stopped false := by
  by_cases htext : ReadsText w a
  · exact Or.inl htext
  · right
    obtain ⟨rfl, hinvalid⟩ := Classical.not_imp.mp (not_and.mp htext hok)
    have hne : nextLine w.unread ≠ [] := by
      intro hnil
      rw [hnil] at hinvalid
      exact hinvalid (by decide)
    change w.tailStep .readLine = some w' at hstep
    cases World.tailStep_spec hstep with
    | readLine hphase =>
        unfold World.readLine
        simp only
        rw [if_neg hne, if_pos (Utf8.decode?_eq_none_iff.mpr hinvalid)]
        rfl

/-- **When the source delivers its input.** -/
theorem delivers_iff {files : Files} {fromBeginning : Bool} {bookmark : Option Bookmark} {w₀ w : World}
    {actions : List Action} (hstart : World.start files fromBeginning bookmark = some w₀)
    (hrun : Run World.step NoReadError w₀ actions w) :
    Delivers w₀ actions w ↔ Run World.step ReadsText w₀ actions w := by
  constructor
  · intro h
    exact hrun.avoids (fun _ _ _ hok hstep => readsText_or_failed hok hstep)
      (fun _ _ _ hfailed _ hstep => (failed_step hfailed hstep).1) h.notFailed
  · intro htext
    obtain ⟨earlier, here, h⟩ := account_run (Run World.step FindsLine w₀ actions w) hstart
      (htext.and_imp id)
    refine ⟨h.notFailed, ⟨earlier, here, h.itinerary, h.handedOn, ?_⟩, h.returned, delivers_rest⟩
    exact fun hfinds v hv => (h.itinerary.reads v hv).isPrefix_lines (h.framed hfinds v hv)

end LogTail

/-! ### Both sources -/

/-- **When no line content stops a source.**  In every run without a file-system error, a
source delivers its input exactly when each of its reads finds valid UTF-8. -/
theorem sources_deliver_iff {files : LogTail.Files} {fromBeginning : Bool} {bookmark : Option LogTail.Bookmark}
    {w₀ w : LogTail.World} {actions : List LogTail.Action} {r : Stdin.Reader} {actions' : List Stdin.Action}
    (hstart : LogTail.World.start files fromBeginning bookmark = some w₀)
    (hrun : Run LogTail.World.step LogTail.NoReadError w₀ actions w)
    (hrun' : Run Stdin.Reader.step Stdin.NoReadError Stdin.Reader.start actions' r) :
    (LogTail.Delivers w₀ actions w ↔ Run LogTail.World.step LogTail.ReadsText w₀ actions w) ∧
      (Stdin.Delivers actions' r ↔ Run Stdin.Reader.step Stdin.ReadsText Stdin.Reader.start actions' r) :=
  ⟨LogTail.delivers_iff hstart hrun, Stdin.delivers_iff hrun'⟩

/-- The lines `é` and `b` go through both; the stream ends, and the log goes on. -/
theorem sources_deliver_valid :
    LogTail.Delivers ⟨⟨[], [0xC3, 0xA9, 0x0A], true⟩, ⟨0, 0, 0, 0, .reading⟩, none, []⟩
        [.tail .readLine, .tail (.accept true), .tail .readLine, .writer (.append [0x62, 0x0A]), .tail .wake,
          .tail (.check true), .tail .readLine]
        ⟨⟨[], [0xC3, 0xA9, 0x0A, 0x62, 0x0A], true⟩, ⟨0, 5, 5, 1, .sending [0x62, 0x0A]⟩, none, [[0xC3, 0xA9, 0x0A]]⟩ ∧
      Stdin.Delivers
        [.arrive [0xC3, 0xA9, 0x0A, 0x62], .readLine, .accept, .arrive [0x0A], .hangUp, .readLine, .accept, .readLine]
        ⟨[], true, .stopped true, [[0xC3, 0xA9, 0x0A], [0x62, 0x0A]]⟩ := by
  have hboth := sources_deliver_iff
    (show LogTail.World.start ⟨[], [0xC3, 0xA9, 0x0A], true⟩ true none =
      some ⟨⟨[], [0xC3, 0xA9, 0x0A], true⟩, ⟨0, 0, 0, 0, .reading⟩, none, []⟩ from rfl)
    (show Run LogTail.World.step LogTail.NoReadError _
      [.tail .readLine, .tail (.accept true), .tail .readLine, .writer (.append [0x62, 0x0A]), .tail .wake,
        .tail (.check true), .tail .readLine]
      ⟨⟨[], [0xC3, 0xA9, 0x0A, 0x62, 0x0A], true⟩, ⟨0, 5, 5, 1, .sending [0x62, 0x0A]⟩, none,
        [[0xC3, 0xA9, 0x0A]]⟩ by decide)
    (show Run Stdin.Reader.step Stdin.NoReadError Stdin.Reader.start
      [.arrive [0xC3, 0xA9, 0x0A, 0x62], .readLine, .accept, .arrive [0x0A], .hangUp, .readLine, .accept, .readLine]
      ⟨[], true, .stopped true, [[0xC3, 0xA9, 0x0A], [0x62, 0x0A]]⟩ by decide)
  constructor
  · exact hboth.1.mpr (by decide)
  · exact hboth.2.mpr (by decide)

/-- A line that is not UTF-8 stops both, and the line behind it is not sent however the run
goes on. -/
theorem invalid_line_stops :
    (∃ w₀ w actions, LogTail.World.start ⟨[], [0xFF, 0x0A, 0x62, 0x0A], true⟩ true none = some w₀ ∧
      Run LogTail.World.step LogTail.NoReadError w₀ actions w ∧ w.tail.phase = .stopped false ∧
        ∀ actions' w', Run LogTail.World.step (fun _ _ => True) w actions' w' → w'.sent = []) ∧
      ∃ r actions, Run Stdin.Reader.step Stdin.NoReadError Stdin.Reader.start actions r ∧
        r.rest = [0xFF, 0x0A, 0x62, 0x0A] ∧ r.phase = .stopped false ∧
          ∀ actions' r', Run Stdin.Reader.step (fun _ _ => True) r actions' r' → r'.sent = [] := by
  constructor
  · refine ⟨⟨⟨[], [0xFF, 0x0A, 0x62, 0x0A], true⟩, ⟨0, 0, 0, 0, .reading⟩, none, []⟩,
      ⟨⟨[], [0xFF, 0x0A, 0x62, 0x0A], true⟩, ⟨0, 0, 0, 0, .stopped false⟩, none, []⟩, [.tail .readLine],
      rfl, by decide, rfl, ?_⟩
    intro actions' w' hrun
    have hstays := hrun.invariant (I := fun w => w.tail.phase = .stopped false ∧ w.sent = [])
      (fun _ _ _ h _ hstep => (LogTail.failed_step h.1 hstep).imp_right (fun hsent => hsent.trans h.2)) ⟨rfl, rfl⟩
    exact hstays.2
  · refine ⟨⟨[0xFF, 0x0A, 0x62, 0x0A], false, .stopped false, []⟩,
      [.arrive [0xFF, 0x0A, 0x62, 0x0A], .readLine], by decide, rfl, rfl, ?_⟩
    intro actions' r' hrun
    have hstays := hrun.invariant (I := fun r => r.phase = .stopped false ∧ r.sent = [])
      (fun _ _ _ h _ hstep => (Stdin.failed_step h.1 hstep).imp_right (fun hsent => hsent.trans h.2)) ⟨rfl, rfl⟩
    exact hstays.2

end PurpleWolf.Relay
