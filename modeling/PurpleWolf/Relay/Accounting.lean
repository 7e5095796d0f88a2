import PurpleWolf.Relay.Stdin

/-! # Where the bytes of the `stdin` source go

A source hands on what it reads, piece by piece (`HandedOn`).  What the `stdin` source has read
and what it has not are together all the pieces of the bytes that have arrived
(`Stdin.Account`), in every run in which it reads text (`Stdin.account_run`).  What is there to
be read it can also deliver (`Stdin.delivers_rest`). -/

namespace PurpleWolf.Relay

/-! ### Handing on -/

/-- Of the pieces that a source has read, those that it has not sent are in its hands, but for
one that it may have given up when the channel was closed. -/
def HandedOn (stopped : Bool) (closed : Prop) (sent pending read : List Bytes) : Prop :=
  ∃ lost, sent ++ pending ++ lost = read ∧ lost.length ≤ 1 ∧ (lost ≠ [] → stopped = true ∧ closed)

namespace HandedOn

variable {stopped : Bool} {closed closed' : Prop} {sent pending pieces : List Bytes}

theorem mono (h : HandedOn stopped closed sent pending pieces) (hclosed : closed → closed') :
    HandedOn stopped closed' sent pending pieces := by
  obtain ⟨lost, hall, hle, hlost⟩ := h
  exact ⟨lost, hall, hle, fun hne => ⟨(hlost hne).1, hclosed (hlost hne).2⟩⟩

theorem of_eq (h : sent ++ pending = pieces) : HandedOn stopped closed sent pending pieces := by
  refine ⟨[], ?_, Nat.zero_le 1, fun hne => absurd rfl hne⟩
  rw [List.append_nil, h]

/-- A source that has not stopped has lost nothing, and neither has one whose channel is open. -/
theorem eq (h : HandedOn stopped closed sent pending pieces) (hopen : ¬ (stopped = true ∧ closed)) :
    sent ++ pending = pieces := by
  obtain ⟨lost, hall, -, hlost⟩ := h
  have hnil : lost = [] := not_not.mp (mt hlost hopen)
  rwa [hnil, List.append_nil] at hall

theorem eq_of_active (h : HandedOn false closed sent pending pieces) : sent ++ pending = pieces :=
  h.eq (fun hstopped => Bool.noConfusion hstopped.1)

theorem read (h : HandedOn false closed sent [] pieces) (piece : Bytes) :
    HandedOn false closed sent [piece] (pieces ++ [piece]) := by
  have hall := h.eq_of_active
  rw [List.append_nil] at hall
  exact of_eq (by rw [hall])

theorem accept {piece : Bytes} (h : HandedOn false closed sent [piece] pieces) :
    HandedOn false closed (sent ++ [piece]) [] pieces :=
  of_eq (by rw [List.append_nil, h.eq_of_active])

theorem stop (h : HandedOn false closed sent [] pieces) : HandedOn true closed sent [] pieces :=
  of_eq h.eq_of_active

theorem close {piece : Bytes} (h : HandedOn false closed sent [piece] pieces) (hclosed : closed') :
    HandedOn true closed' sent [] pieces := by
  refine ⟨[piece], ?_, le_rfl, fun _ => ⟨rfl, hclosed⟩⟩
  rw [List.append_nil, h.eq_of_active]

end HandedOn

/-! ### `stdin` -/

namespace Stdin

def Action.bytes : Action → Bytes
  | .arrive bytes => bytes
  | _ => []

/-- All the bytes that have arrived. -/
def arrived (actions : List Action) : Bytes := actions.flatMap Action.bytes

theorem arrived_concat (actions : List Action) (a : Action) :
    arrived (actions ++ [a]) = arrived actions ++ a.bytes := by
  unfold arrived
  rw [List.flatMap_append, List.flatMap_singleton]

/-- A read does not fail, and finds text. -/
def ReadsText (r : Reader) (a : Action) : Prop := a ≠ .readError ∧ (a = .readLine → Utf8.Valid (nextLine r.rest))

instance (r : Reader) (a : Action) : Decidable (ReadsText r a) := inferInstanceAs (Decidable (_ ∧ _))

/-- What has become of the bytes that have arrived, `read` being the pieces that have been read. -/
structure Account (actions : List Action) (r : Reader) (read : List Bytes) : Prop where
  notFailed : r.phase ≠ .stopped false
  handedOn : HandedOn r.phase.isStopped (.closed ∈ actions) r.sent r.phase.pending read
  framed : r.ended = false → ∀ l ∈ read, IsLine l
  flatten : read.flatten ++ r.rest = arrived actions
  pieces : pieces (arrived actions) = read ++ pieces r.rest
  returned : r.phase.isStopped = true → .shutdown ∈ actions ∨ .closed ∈ actions ∨ r.ended = true ∧ r.rest = []

namespace Account

variable {actions : List Action} {r r' : Reader} {read : List Bytes}

theorem move (h : Account actions r read) {a : Action} (hbytes : a.bytes = []) (hrest : r'.rest = r.rest)
    (hended : r.ended = true → r'.ended = true) (hphase : r'.phase ≠ .stopped false)
    (hhanded : HandedOn r'.phase.isStopped (.closed ∈ actions ++ [a]) r'.sent r'.phase.pending read)
    (hreturned : r'.phase.isStopped = true →
      .shutdown ∈ actions ++ [a] ∨ .closed ∈ actions ++ [a] ∨ r'.ended = true ∧ r'.rest = []) :
    Account (actions ++ [a]) r' read := by
  have harrived : arrived (actions ++ [a]) = arrived actions := by
    rw [arrived_concat, hbytes, List.append_nil]
  constructor
  · exact hphase
  · exact hhanded
  · intro hnot
    exact h.framed (Bool.eq_false_iff.mpr fun hend => by rw [hended hend] at hnot; cases hnot)
  · rw [harrived, hrest, h.flatten]
  · rw [harrived, hrest, h.pieces]
  · exact hreturned

theorem returned_concat (h : Account actions r read) (a : Action) (hstopped : r.phase.isStopped = true) :
    .shutdown ∈ actions ++ [a] ∨ .closed ∈ actions ++ [a] ∨ r.ended = true ∧ r.rest = [] := by
  obtain hshutdown | hclosed | hend := h.returned hstopped
  · exact Or.inl (List.mem_append_left _ hshutdown)
  · exact Or.inr (Or.inl (List.mem_append_left _ hclosed))
  · exact Or.inr (Or.inr hend)

theorem handedOn_concat (h : Account actions r read) (a : Action) :
    HandedOn r.phase.isStopped (.closed ∈ actions ++ [a]) r.sent r.phase.pending read :=
  h.handedOn.mono (List.mem_append_left _)

theorem arrive (h : Account actions r read) (bytes : Bytes) (hended : r.ended = false) :
    Account (actions ++ [.arrive bytes]) { r with rest := r.rest ++ bytes } read := by
  have harrived : arrived (actions ++ [.arrive bytes]) = read.flatten ++ (r.rest ++ bytes) := by
    rw [arrived_concat, ← h.flatten, List.append_assoc]
    rfl
  constructor
  · exact h.notFailed
  · exact h.handedOn_concat _
  · exact h.framed
  · exact harrived.symm
  · rw [harrived]
    exact pieces_flatten_append (h.framed hended) _
  · intro hstopped
    obtain hshutdown | hclosed | ⟨hend, -⟩ := h.returned_concat _ hstopped
    · exact Or.inl hshutdown
    · exact Or.inr (Or.inl hclosed)
    · rw [hended] at hend
      cases hend

theorem readLine (h : Account actions r read) (hphase : r.phase = .reading) (hthere : newline ∈ r.rest ∨ r.ended = true)
    (htext : Utf8.Valid (nextLine r.rest)) : ∃ read', Account (actions ++ [.readLine]) r.readLine read' := by
  have hhanded := h.handedOn_concat .readLine
  rw [hphase] at hhanded
  have harrived : arrived (actions ++ [.readLine]) = arrived actions := by
    rw [arrived_concat]
    exact List.append_nil _
  unfold Reader.readLine
  simp only [nextLine_eq_nil]
  split_ifs with hend hutf8
  · refine ⟨read, h.move rfl rfl id (by simp) hhanded.stop ?_⟩
    intro _
    refine Or.inr (Or.inr ⟨?_, hend⟩)
    rw [hend] at hthere
    exact hthere.resolve_left List.not_mem_nil
  · exact absurd htext (Utf8.decode?_eq_none_iff.mp hutf8)
  · refine ⟨read ++ [nextLine r.rest], ?_⟩
    constructor
    · simp
    · exact hhanded.read _
    · intro hnot l hl
      have hnewline : newline ∈ r.rest := hthere.resolve_right (Bool.eq_false_iff.mp hnot)
      obtain hl | hl := List.mem_append.mp hl
      · exact h.framed hnot l hl
      · rw [List.mem_singleton.mp hl]
        exact isLine_nextLine hnewline
    · have hsplit : nextLine r.rest ++ r.rest.drop (nextLine r.rest).length = r.rest :=
        List.prefix_iff_eq_append.mp (nextLine_isPrefix r.rest)
      rw [harrived, List.flatten_append, List.flatten_singleton, List.append_assoc, hsplit, h.flatten]
    · rw [harrived, h.pieces, pieces_eq_cons hend, List.append_assoc]
      rfl
    · intro hstopped
      cases hstopped

/-- **One step of a reader of text** accounts for its input. -/
theorem step (h : Account actions r read) {a : Action} (hok : ReadsText r a) (hstep : r.step a = some r') :
    ∃ read', Account (actions ++ [a]) r' read' := by
  have hhanded := h.handedOn_concat a
  unfold Reader.step at hstep
  split at hstep
  case h_1 =>
      split_ifs at hstep with hended
      cases hstep
      exact ⟨read, h.arrive _ (Bool.eq_false_iff.mpr hended)⟩
  case h_2 =>
      split_ifs at hstep with hended
      cases hstep
      refine ⟨read, h.move rfl rfl (fun _ => rfl) h.notFailed hhanded ?_⟩
      intro hstopped
      obtain hshutdown | hclosed | ⟨hend, -⟩ := h.returned_concat _ hstopped
      · exact Or.inl hshutdown
      · exact Or.inr (Or.inl hclosed)
      · exact absurd hend hended
  case h_3 hphase =>
      cases hstep
      rw [hphase] at hhanded
      exact ⟨read, h.move rfl rfl id (by simp) hhanded.stop (fun _ => Or.inl (by simp))⟩
  case h_4 hphase =>
      split_ifs at hstep with hthere
      cases hstep
      exact h.readLine hphase hthere (hok.2 rfl)
  case h_5 => exact absurd rfl hok.1
  case h_6 line hphase =>
      cases hstep
      rw [hphase] at hhanded
      exact ⟨read, h.move rfl rfl id (by simp) hhanded.accept (fun hstopped => Bool.noConfusion hstopped)⟩
  case h_7 line hphase =>
      cases hstep
      rw [hphase] at hhanded
      exact ⟨read, h.move rfl rfl id (by simp) (hhanded.close (by simp)) (fun _ => Or.inr (Or.inl (by simp)))⟩
  case h_8 => cases hstep

theorem start : Account [] Reader.start [] where
  notFailed := by decide
  handedOn := HandedOn.of_eq rfl
  framed _ l hl := absurd hl List.not_mem_nil
  flatten := rfl
  pieces := rfl
  returned hstopped := by cases hstopped

end Account

/-- **The account of a run.** -/
theorem account_run {r : Reader} {actions : List Action} (hrun : Run Reader.step ReadsText Reader.start actions r) :
    ∃ read, Account actions r read := by
  have hrest := Run.traced (I := fun r actions => ∃ read, Account actions r read)
    (fun _ _ _ _ ⟨_, h⟩ hok hstep => h.step hok hstep) hrun ⟨[], Account.start⟩
  rwa [List.nil_append] at hrest

/-- The source reads or sends. -/
def ReadsOrSends (_ : Reader) (a : Action) : Prop := a = .readLine ∨ a = .accept

/-- A reader can go on to send every line that is there. -/
theorem delivers_lines {r : Reader} (hphase : r.phase = .reading) (htext : ∀ l ∈ lines r.rest, Utf8.Valid l) :
    ∃ as r', Run Reader.step ReadsOrSends r as r' ∧ r'.sent = r.sent ++ lines r.rest := by
  induction hlines : lines r.rest generalizing r with
  | nil => exact ⟨[], r, rfl, (List.append_nil _).symm⟩
  | cons l ls ih =>
      obtain ⟨hnext, hrest⟩ := nextLine_of_lines_eq_cons hlines
      have hmem : l ∈ lines r.rest := hlines ▸ List.mem_cons_self
      obtain ⟨body, -, hl⟩ := isLine_of_mem_lines hmem
      have hne : l ≠ [] := by simp [hl]
      have hread : r.step .readLine = some { r with rest := r.rest.drop l.length, phase := .sending l } := by
        have hnewline : newline ∈ r.rest :=
          (nextLine_isPrefix r.rest).subset (by rw [hnext, hl]; simp)
        unfold Reader.step Reader.readLine
        rw [hphase]
        simp only
        rw [if_pos (Or.inl hnewline), hnext, if_neg hne,
          if_neg (fun hnone => Utf8.decode?_eq_none_iff.mp hnone (htext l hmem))]
      obtain ⟨as, r', hrun, hsent⟩ := ih (r := ⟨r.rest.drop l.length, r.ended, .reading, r.sent ++ [l]⟩) rfl
        (fun m hm => htext m (by rw [hlines, ← hrest]; exact List.mem_cons_of_mem _ hm)) hrest
      refine ⟨.readLine :: .accept :: as, r', ⟨Or.inl rfl, _, hread, Or.inr rfl, _, rfl, hrun⟩, ?_⟩
      rw [hsent, List.append_assoc]
      rfl

/-- So can one that has a piece in hand. -/
theorem delivers_rest {r : Reader} (hactive : r.phase.isStopped = false) (htext : ∀ l ∈ lines r.rest, Utf8.Valid l) :
    ∃ as r', Run Reader.step ReadsOrSends r as r' ∧ r'.sent = r.sent ++ r.phase.pending ++ lines r.rest := by
  cases hphase : r.phase with
  | reading =>
      obtain ⟨as, r', hrun, hsent⟩ := delivers_lines hphase htext
      refine ⟨as, r', hrun, ?_⟩
      rw [hsent]
      exact congrArg (· ++ _) (List.append_nil _).symm
  | sending piece =>
      have haccept : r.step .accept = some { r with phase := .reading, sent := r.sent ++ [piece] } := by
        unfold Reader.step
        rw [hphase]
      obtain ⟨as, r', hrun, hsent⟩ := delivers_lines
        (r := { r with phase := .reading, sent := r.sent ++ [piece] }) rfl htext
      exact ⟨.accept :: as, r', ⟨Or.inr rfl, _, haccept, hrun⟩, hsent⟩
  | stopped ok =>
      rw [hphase] at hactive
      cases hactive

end Stdin

end PurpleWolf.Relay
