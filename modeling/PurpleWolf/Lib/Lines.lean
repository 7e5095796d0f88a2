import Mathlib.Tactic

/-! # Lines of a byte string

A line ends with its newline.  `lines` cuts a byte string into its lines, leaving out what
follows the last newline, and `nextLine` is what a line reader returns: the first line, or
everything if there is no newline.  `pieces` is all that it returns, one after the other. -/

namespace PurpleWolf

def newline : UInt8 := 0x0A

def IsLine (l : List UInt8) : Prop := ∃ body, newline ∉ body ∧ l = body ++ [newline]

/-- The newline-terminated lines. -/
def lines : List UInt8 → List (List UInt8)
  | [] => []
  | b :: bs =>
      if b = newline then [b] :: lines bs
      else
        match lines bs with
        | [] => []
        | l :: ls => (b :: l) :: ls

/-- The bytes up to the first newline, or all of them. -/
def nextLine : List UInt8 → List UInt8
  | [] => []
  | b :: bs => if b = newline then [b] else b :: nextLine bs

/-- The lines, and what follows the last newline. -/
def pieces : List UInt8 → List (List UInt8)
  | [] => []
  | b :: bs =>
      if b = newline then [b] :: pieces bs
      else
        match pieces bs with
        | [] => [[b]]
        | p :: ps => (b :: p) :: ps

/-- A line, or the beginning of one. -/
def IsPiece (p : List UInt8) : Prop := p ≠ [] ∧ newline ∉ p.dropLast

/-- Nothing but lines. -/
def Whole (bs : List UInt8) : Prop := ∃ ls : List (List UInt8), (∀ l ∈ ls, IsLine l) ∧ bs = ls.flatten

/-! ### Cutting -/

theorem lines_line_append {l : List UInt8} (h : IsLine l) (bs : List UInt8) :
    lines (l ++ bs) = l :: lines bs := by
  obtain ⟨body, hbody, rfl⟩ := h
  induction body with
  | nil =>
      rw [List.nil_append, List.singleton_append, lines, if_pos rfl]
  | cons b body ih =>
      rw [List.mem_cons, not_or] at hbody
      rw [List.cons_append, List.cons_append, lines, if_neg (Ne.symm hbody.1), ih hbody.2]

theorem lines_flatten_append {ls : List (List UInt8)} (h : ∀ l ∈ ls, IsLine l) (bs : List UInt8) :
    lines (ls.flatten ++ bs) = ls ++ lines bs := by
  induction ls with
  | nil => rfl
  | cons l ls ih =>
      rw [List.flatten_cons, List.append_assoc, lines_line_append (h l (by simp)),
        ih (fun x hx => h x (by simp [hx])), List.cons_append]

theorem lines_flatten {ls : List (List UInt8)} (h : ∀ l ∈ ls, IsLine l) : lines ls.flatten = ls := by
  have := lines_flatten_append h []
  rwa [List.append_nil, lines, List.append_nil] at this

theorem isLine_of_mem_lines {l : List UInt8} : ∀ {bs : List UInt8}, l ∈ lines bs → IsLine l
  | [], h => absurd h List.not_mem_nil
  | b :: bs, h => by
      unfold lines at h
      split_ifs at h with hb
      · rcases List.mem_cons.mp h with rfl | h
        · exact ⟨[], List.not_mem_nil, by rw [hb]; rfl⟩
        · exact isLine_of_mem_lines h
      · cases hlines : lines bs with
        | nil =>
            rw [hlines] at h
            exact absurd h List.not_mem_nil
        | cons m ms =>
            rw [hlines] at h
            rcases List.mem_cons.mp h with rfl | h
            · obtain ⟨body, hbody, hm⟩ := isLine_of_mem_lines (hlines ▸ List.mem_cons_self : m ∈ lines bs)
              refine ⟨b :: body, ?_, by rw [hm]; rfl⟩
              rw [List.mem_cons, not_or]
              exact ⟨Ne.symm hb, hbody⟩
            · exact isLine_of_mem_lines (hlines ▸ List.mem_cons_of_mem _ h : l ∈ lines bs)

theorem Whole.nil : Whole [] := ⟨[], by simp, rfl⟩

theorem Whole.append {as bs : List UInt8} (ha : Whole as) (hb : Whole bs) : Whole (as ++ bs) := by
  obtain ⟨ls, hls, rfl⟩ := ha
  obtain ⟨ms, hms, rfl⟩ := hb
  refine ⟨ls ++ ms, ?_, by simp⟩
  intro l hl
  rcases List.mem_append.mp hl with hl | hl
  · exact hls l hl
  · exact hms l hl

theorem Whole.flatten_lines {bs : List UInt8} (h : Whole bs) : (lines bs).flatten = bs := by
  obtain ⟨ls, hls, rfl⟩ := h
  rw [lines_flatten hls]

theorem whole_iff {bs : List UInt8} : Whole bs ↔ (lines bs).flatten = bs :=
  ⟨Whole.flatten_lines, fun h => ⟨lines bs, fun _ => isLine_of_mem_lines, h.symm⟩⟩

instance : DecidablePred Whole := fun _ => decidable_of_iff _ whole_iff.symm

theorem Whole.of_flatten_append {ls : List (List UInt8)} {bs : List UInt8} (hls : ∀ l ∈ ls, IsLine l)
    (h : Whole (ls.flatten ++ bs)) : Whole bs := by
  obtain ⟨ms, hms, hflat⟩ := h
  have hcut : ls ++ lines bs = ms := by
    rw [← lines_flatten_append hls, hflat, lines_flatten hms]
  refine ⟨lines bs, fun l hl => hms l (hcut ▸ List.mem_append_right _ hl), ?_⟩
  have := hflat
  rw [← hcut, List.flatten_append] at this
  exact List.append_cancel_left this

theorem Whole.newline_mem {bs : List UInt8} (h : Whole bs) (hne : bs ≠ []) : newline ∈ bs := by
  obtain ⟨ls, hls, rfl⟩ := h
  cases ls with
  | nil => exact absurd rfl hne
  | cons l ls =>
      obtain ⟨body, -, rfl⟩ := hls l (by simp)
      simp

/-! ### Reading one line -/

theorem nextLine_isPrefix (bs : List UInt8) : nextLine bs <+: bs := by
  induction bs with
  | nil => exact List.prefix_rfl
  | cons b bs ih =>
      unfold nextLine
      split_ifs
      · exact ⟨bs, rfl⟩
      · exact List.cons_prefix_cons.mpr ⟨rfl, ih⟩

theorem take_nextLine (bs : List UInt8) : bs.take (nextLine bs).length = nextLine bs :=
  (List.prefix_iff_eq_take.mp (nextLine_isPrefix bs)).symm

theorem nextLine_eq_nil {bs : List UInt8} : nextLine bs = [] ↔ bs = [] := by
  cases bs with
  | nil => exact Iff.rfl
  | cons b bs =>
      unfold nextLine
      split_ifs <;> simp

theorem isLine_nextLine {bs : List UInt8} (h : newline ∈ bs) : IsLine (nextLine bs) := by
  induction bs with
  | nil => exact absurd h List.not_mem_nil
  | cons b bs ih =>
      unfold nextLine
      split_ifs with hb
      · exact ⟨[], List.not_mem_nil, by rw [hb]; rfl⟩
      · obtain ⟨body, hbody, hline⟩ := ih ((List.mem_cons.mp h).resolve_left (Ne.symm hb))
        refine ⟨b :: body, ?_, by rw [hline]; rfl⟩
        rw [List.mem_cons, not_or]
        exact ⟨Ne.symm hb, hbody⟩

theorem isPiece_nextLine {bs : List UInt8} (h : bs ≠ []) : IsPiece (nextLine bs) := by
  induction bs with
  | nil => exact absurd rfl h
  | cons b bs ih =>
      unfold nextLine
      split_ifs with hb
      · exact ⟨List.cons_ne_nil _ _, List.not_mem_nil⟩
      · refine ⟨List.cons_ne_nil _ _, ?_⟩
        cases bs with
        | nil => exact List.not_mem_nil
        | cons c cs =>
            obtain ⟨hne, hmem⟩ := ih (List.cons_ne_nil _ _)
            rw [List.dropLast_cons_of_ne_nil hne, List.mem_cons, not_or]
            exact ⟨Ne.symm hb, hmem⟩

theorem nextLine_of_lines_eq_cons {l : List UInt8} {ls : List (List UInt8)} {bs : List UInt8} (h : lines bs = l :: ls) :
    nextLine bs = l ∧ lines (bs.drop l.length) = ls := by
  induction bs generalizing l with
  | nil => cases h
  | cons b bs ih =>
      unfold lines at h
      unfold nextLine
      split_ifs at h ⊢ with hb
      · obtain ⟨rfl, rfl⟩ := List.cons.inj h
        exact ⟨rfl, rfl⟩
      · cases hlines : lines bs with
        | nil =>
            rw [hlines] at h
            cases h
        | cons m ms =>
            rw [hlines] at h
            obtain ⟨rfl, rfl⟩ := List.cons.inj h
            obtain ⟨hnext, hrest⟩ := ih hlines
            exact ⟨by rw [hnext], hrest⟩

/-! ### Reading to the end -/

theorem pieces_line_append {l : List UInt8} (h : IsLine l) (bs : List UInt8) : pieces (l ++ bs) = l :: pieces bs := by
  obtain ⟨body, hbody, rfl⟩ := h
  induction body with
  | nil => rw [List.nil_append, List.singleton_append, pieces, if_pos rfl]
  | cons b body ih =>
      rw [List.mem_cons, not_or] at hbody
      rw [List.cons_append, List.cons_append, pieces, if_neg (Ne.symm hbody.1), ih hbody.2]

theorem pieces_flatten_append {ls : List (List UInt8)} (h : ∀ l ∈ ls, IsLine l) (bs : List UInt8) :
    pieces (ls.flatten ++ bs) = ls ++ pieces bs := by
  induction ls with
  | nil => rfl
  | cons l ls ih =>
      rw [List.flatten_cons, List.append_assoc, pieces_line_append (h l (by simp)),
        ih (fun x hx => h x (by simp [hx])), List.cons_append]

theorem pieces_eq_cons {bs : List UInt8} (h : bs ≠ []) :
    pieces bs = nextLine bs :: pieces (bs.drop (nextLine bs).length) := by
  induction bs with
  | nil => exact absurd rfl h
  | cons b bs ih =>
      rw [pieces, nextLine]
      split_ifs with hb
      · rfl
      · cases bs with
        | nil => rfl
        | cons c cs =>
            rw [ih (List.cons_ne_nil _ _)]
            rfl

theorem flatten_pieces (bs : List UInt8) : (pieces bs).flatten = bs := by
  induction bs with
  | nil => rfl
  | cons b bs ih =>
      unfold pieces
      split_ifs with hb
      · rw [List.flatten_cons, ih]
        rfl
      · cases hpieces : pieces bs with
        | nil =>
            rw [hpieces] at ih
            rw [← ih]
            rfl
        | cons p ps =>
            rw [hpieces] at ih
            rw [← ih]
            rfl

theorem lines_isPrefix_pieces (bs : List UInt8) : lines bs <+: pieces bs := by
  induction bs with
  | nil => exact List.prefix_rfl
  | cons b bs ih =>
      unfold lines pieces
      split_ifs with hb
      · exact List.cons_prefix_cons.mpr ⟨rfl, ih⟩
      · cases hlines : lines bs with
        | nil => exact List.nil_prefix
        | cons l ls =>
            rw [hlines] at ih
            obtain ⟨rest, hrest⟩ := ih
            rw [← hrest]
            exact ⟨rest, rfl⟩

end PurpleWolf
