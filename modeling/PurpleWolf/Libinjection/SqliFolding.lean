import PurpleWolf.Libinjection.SqliFold
import PurpleWolf.Libinjection.SqliTokens

/-! # Folding comes to an end

A turn of the loop of `libinjection_sqli_fold` drops tokens, rewrites them, moves `left` forward
or sends it back to the start.  `FoldState.Inv` holds in front of every turn, and `measure`
falls with it: a turn reads from the input or drops a token, or it makes a token one that no
rule makes another again, or `left` moves on.

The invariant counts as well.  As long as there are no more calls of the tokenizer than tokens,
none of these has been merged, and so each of them stands in the input as it is
(`Inv.unfolded`). -/

namespace PurpleWolf.Sqli

open Memory Html5 Xss

/-! ### What the rules do -/

/-- Of a live token: it is none of the types that are never kept. -/
def Live (st : Token) : Prop := st.type ≠ .none ∧ st.type ≠ .comment

/-- The token in the same place, with the same bytes. -/
structure Retyped (st st' : Token) : Prop where
  pos : st'.pos = st.pos
  val : st'.val = st.val
  live : Live st → Live st'

theorem Retyped.refl (st : Token) : Retyped st st := ⟨rfl, rfl, id⟩

theorem retyped_withType (st : Token) {type : TokenType} (h : type ≠ .none ∧ type ≠ .comment) :
    Retyped st (st.withType type) := ⟨rfl, rfl, fun _ => h⟩

namespace TokenType

/-- What can be rewritten for as long as no token is dropped: a back slash, and what is no type. -/
def weight : TokenType → ℕ
  | .backslash => 2
  | .sqltype => 0
  | _ => 1

/-- How often the token at `left` can be rewritten. -/
def rank : TokenType → ℕ
  | .keyword => 2
  | .bareword | .variable => 1
  | _ => 0

/-- How often the token behind it can be. -/
def rankSecond : TokenType → ℕ
  | .function => 1
  | _ => 0

theorem weight_le (type : TokenType) : type.weight ≤ 2 := by cases type <;> decide

theorem rank_le (type : TokenType) : type.rank ≤ 2 := by cases type <;> decide

theorem rankSecond_le (type : TokenType) : type.rankSecond ≤ 1 := by cases type <;> decide

end TokenType

/-- What the rules for two tokens may do. -/
inductive Outcome.Two (a b : Token) : Outcome → Prop
  /-- Tokens are dropped. -/
  | drops {first : Token} {drop : ℕ} {left : Left} (hfirst : first = b ∨ first.pos = a.pos ∧ (Live a → Live first))
      (hpos : 0 < drop) (hle : drop ≤ 2) : Two a b (.again first b drop left)
  /-- A token is rewritten for good, and folding starts over. -/
  | resets {first : Token} (hfirst : Retyped a first) (hweight : first.type.weight < a.type.weight) :
      Two a b (.again first b 0 .reset)
  /-- A token is rewritten in its place. -/
  | keeps {first second : Token} (hfirst : Retyped a first) (hsecond : Retyped b second)
      (hweight : first.type.weight + second.type.weight ≤ a.type.weight + b.type.weight)
      (hrank : first.type.rank + second.type.rankSecond < a.type.rank + b.type.rankSecond) :
      Two a b (.again first second 0 .keep)
  | onward {first : Token} (hfirst : Retyped a first) (hweight : first.type.weight ≤ a.type.weight) :
      Two a b (.onward first b .keep)
  | collates {second : Token} (hsecond : Retyped b second) (hweight : second.type.weight < b.type.weight) :
      Two a b (.onward a second .reset)
  | evil : Two a b .evil

/-- What the rules for three tokens may do. -/
inductive Outcome.Three (a b c : Token) : Outcome → Prop
  | drops {second : Token} {drop : ℕ} (hsecond : second = b ∨ second = c) (hpos : 0 < drop) (hle : drop ≤ 3) :
      Three a b c (.again a second drop .reset)
  | onward {first : Token} (hfirst : Retyped a first) (hweight : first.type.weight ≤ a.type.weight) :
      Three a b c (.onward first b .keep)

section Rules

variable (signedChar : Bool) (T : KeywordTable)

theorem twoTokensApart_spec (a b : Token) : Outcome.Two a b (twoTokensApart signedChar a b) := by
  have hdrop : ∀ {drop : ℕ} {left : Left}, 0 < drop → drop ≤ 2 → Outcome.Two a b (.again a b drop left) :=
    fun hpos hle => .drops (Or.inr ⟨rfl, id⟩) hpos hle
  unfold twoTokensApart
  refine iteInduction (fun h => ?_) fun _ => ?_
  · refine .keeps (.refl a) (retyped_withType b (by decide)) ?_ ?_
    · rw [h.2.1]
      exact le_rfl
    · rw [h.2.1]
      exact Nat.lt_succ_self _
  refine iteInduction (fun h => ?_) fun _ => ?_
  · refine .keeps (retyped_withType a (by decide)) (.refl b) ?_ ?_
    · rcases h.1 with ha | ha
      all_goals
        rw [ha]
        exact le_rfl
    · rcases h.1 with ha | ha
      all_goals
        rw [ha]
        exact Nat.add_lt_add_right Nat.zero_lt_one _
  refine iteInduction (fun h => ?_) fun _ => ?_
  · have hin : ∀ type : TokenType, type = .operator ∨ type = .bareword →
        Outcome.Two a b (.again (a.withType type) b 0 .keep) := by
      rintro type htype
      refine .keeps (retyped_withType a ?_) (.refl b) ?_ ?_
      · rcases htype with rfl | rfl <;> decide
      · rw [h.1]
        refine Nat.add_le_add_right ?_ _
        rcases htype with rfl | rfl <;> exact le_rfl
      · rw [h.1]
        refine Nat.add_lt_add_right ?_ _
        rcases htype with rfl | rfl
        · exact Nat.zero_lt_two
        · exact Nat.one_lt_two
    apply hin
    split_ifs
    · exact Or.inl rfl
    · exact Or.inr rfl
  refine iteInduction (fun h => ?_) fun _ => ?_
  · split_ifs
    · refine .onward (retyped_withType a (by decide)) ?_
      rw [h.1]
      exact le_rfl
    · exact .onward (.refl a) le_rfl
  refine iteInduction (fun _ => .drops (Or.inl rfl) (by decide) (by decide)) fun _ => ?_
  refine iteInduction (fun h => ?_) fun _ => ?_
  · split_ifs
    · refine .collates (retyped_withType b (by decide)) ?_
      rw [h.2]
      exact Nat.zero_lt_one
    · exact .onward (.refl a) le_rfl
  refine iteInduction (fun h => ?_) fun _ => ?_
  · split_ifs
    · refine .resets (retyped_withType a (by decide)) ?_
      rw [h]
      exact Nat.one_lt_two
    · exact .drops (Or.inl rfl) (by decide) (by decide)
  refine iteInduction (fun _ => hdrop (by decide) (by decide)) fun _ => ?_
  refine iteInduction (fun _ => hdrop (by decide) (by decide)) fun _ => ?_
  refine iteInduction (fun _ => ?_) fun _ => ?_
  · split_ifs
    · exact .evil
    · exact hdrop (by decide) (by decide)
  exact iteInduction (fun _ => hdrop (by decide) (by decide)) fun _ => .onward (.refl a) le_rfl

/-- Words are merged to a word of the table, in the place of the first. -/
theorem syntaxMergeWords_spec (a b : Token) : ∃ merged, syntaxMergeWords signedChar T a b = some merged ∧
    ∀ st, merged = some st → st.pos = a.pos ∧ Live st := by
  unfold syntaxMergeWords
  have hnone : ∃ merged, (some none : Option (Option Token)) = some merged ∧
      ∀ st, merged = some st → st.pos = a.pos ∧ Live st := ⟨none, rfl, fun _ h => by cases h⟩
  simp only [isKeyword_eq, Option.bind_eq_bind, Option.bind_some]
  split
  · exact hnone
  · split
    · exact hnone
    · split
      · exact hnone
      · split
        · next htype =>
            refine ⟨_, rfl, fun st h => ?_⟩
            cases h
            exact ⟨rfl, htype, SqliState.typeOf_ne htype⟩
        · exact hnone

theorem twoTokens_spec (a b : Token) : ∃ outcome, twoTokens signedChar T a b = some outcome ∧ outcome.Two a b := by
  obtain ⟨merged, hmerged, hspec⟩ := syntaxMergeWords_spec signedChar T a b
  unfold twoTokens
  rw [hmerged]
  have hdrop : ∀ {left : Left}, ∃ outcome, some (Outcome.again a b 1 left) = some outcome ∧ outcome.Two a b :=
    ⟨_, rfl, .drops (Or.inr ⟨rfl, id⟩) (by decide) (by decide)⟩
  split
  · exact hdrop
  · split
    · exact hdrop
    · split
      · exact hdrop
      · split
        · exact hdrop
        · cases merged with
          | some st =>
              obtain ⟨hpos, hlive⟩ := hspec st rfl
              exact ⟨_, rfl, .drops (Or.inr ⟨hpos, fun _ => hlive⟩) (by decide) (by decide)⟩
          | none => exact ⟨_, rfl, twoTokensApart_spec signedChar a b⟩

theorem threeTokens_spec (a b c : Token) : Outcome.Three a b c (threeTokens signedChar a b c) := by
  have hb : ∀ {drop : ℕ}, 0 < drop → drop ≤ 3 → Outcome.Three a b c (.again a b drop .reset) :=
    fun hpos hle => .drops (Or.inl rfl) hpos hle
  have hc : ∀ {drop : ℕ}, 0 < drop → drop ≤ 3 → Outcome.Three a b c (.again a c drop .reset) :=
    fun hpos hle => .drops (Or.inr rfl) hpos hle
  unfold threeTokens
  refine iteInduction (fun _ => hb (by decide) (by decide)) fun _ => ?_
  refine iteInduction (fun _ => hb (by decide) (by decide)) fun _ => ?_
  refine iteInduction (fun _ => hb (by decide) (by decide)) fun _ => ?_
  refine iteInduction (fun _ => hb (by decide) (by decide)) fun _ => ?_
  refine iteInduction (fun _ => hb (by decide) (by decide)) fun _ => ?_
  refine iteInduction (fun _ => hb (by decide) (by decide)) fun _ => ?_
  refine iteInduction (fun _ => hb (by decide) (by decide)) fun _ => ?_
  refine iteInduction (fun _ => hc (by decide) (by decide)) fun _ => ?_
  refine iteInduction (fun _ => hc (by decide) (by decide)) fun _ => ?_
  refine iteInduction (fun _ => hc (by decide) (by decide)) fun _ => ?_
  refine iteInduction (fun _ => hc (by decide) (by decide)) fun _ => ?_
  refine iteInduction (fun _ => hb (by decide) (by decide)) fun _ => ?_
  refine iteInduction (fun _ => hc (by decide) (by decide)) fun _ => ?_
  refine iteInduction (fun h => ?_) fun _ => .onward (.refl a) le_rfl
  split_ifs
  · refine .onward (retyped_withType a (by decide)) ?_
    rw [h.1]
    exact le_rfl
  · exact .onward (.refl a) le_rfl

end Rules

/-! ### The invariant -/

theorem Left.move_le (n : ℕ) (left : Left) : left.move n ≤ n := by
  cases left with
  | keep => exact le_rfl
  | back => exact Nat.sub_le n 1
  | reset => exact Nat.zero_le n

namespace FoldState

/-- How many comments follow the tokens: one or none. -/
def comments (st : FoldState) : ℕ := st.lastComment.toList.length

/-- Where the tokens end: at the last comment, if it follows them. -/
def bound (st : FoldState) : ℕ :=
  match st.lastComment with
  | some c => c.pos
  | none => st.sf.pos

/-- What holds in front of every turn. -/
structure Inv (st : FoldState) : Prop where
  nonempty : 0 < st.sf.len
  le : st.sf.pos ≤ st.sf.len
  left_le : st.left ≤ st.pos
  pos_le : st.pos ≤ MAX_TOKENS + 1
  live : ∀ t ∈ st.toks, Live t
  order : st.toks.Pairwise fun t t' => t.pos ≤ t'.pos
  before : ∀ t ∈ st.toks, t.pos ≤ st.bound
  counted : st.pos + st.comments ≤ st.sf.tokens
  unfolded : st.sf.tokens = st.pos + st.comments → ∀ t ∈ st.toks, t.pos + t.val.length ≤ st.bound
  comment : ∀ c ∈ st.lastComment, c.type = .comment ∧ Placed st.sf.s 0 st.sf.pos c

theorem Inv.bound_le {st : FoldState} (inv : Inv st) : st.bound ≤ st.sf.pos := by
  have hcomment := inv.comment
  unfold bound
  cases hc : st.lastComment with
  | none => exact le_rfl
  | some c => exact (Nat.le_add_right _ _).trans (hcomment c hc).2.inside

theorem Inv.setLeft {st : FoldState} (inv : Inv st) {left : ℕ} (h : left ≤ st.pos) : Inv { st with left := left } :=
  { inv with left_le := h }

theorem exists_split {toks : List Token} {left : ℕ} {a b : Token} (ha : toks[left]? = some a)
    (hb : toks[left + 1]? = some b) : ∃ u w, toks = u ++ a :: b :: w ∧ u.length = left := by
  obtain ⟨hlt, rfl⟩ := List.getElem?_eq_some_iff.mp ha
  obtain ⟨hlt', rfl⟩ := List.getElem?_eq_some_iff.mp hb
  refine ⟨toks.take left, toks.drop (left + 2), ?_, by rw [List.length_take]; omega⟩
  conv_lhs => rw [← List.take_append_drop left toks, List.drop_eq_getElem_cons hlt, List.drop_eq_getElem_cons hlt']

theorem set_split (u w : List Token) (a b first second : Token) :
    ((u ++ a :: b :: w).set u.length first).set (u.length + 1) second = u ++ first :: second :: w := by
  rw [List.set_append_right _ _ le_rfl, Nat.sub_self, List.set_append_right _ _ (Nat.le_succ _)]
  rw [show u.length + 1 - u.length = 1 by omega]
  rfl

/-- A rule keeps the order of the tokens. -/
theorem pairwise_replaced {u w : List Token} {a b first second : Token}
    (h : (u ++ a :: b :: w).Pairwise fun t t' => t.pos ≤ t'.pos) (hfirst : a.pos ≤ first.pos)
    (hsecond : first.pos ≤ second.pos) (hw : ∀ t ∈ w, second.pos ≤ t.pos) :
    (u ++ first :: second :: w).Pairwise fun t t' => t.pos ≤ t'.pos := by
  rw [List.pairwise_append, List.pairwise_cons, List.pairwise_cons] at h ⊢
  obtain ⟨hu, ⟨-, -, hpw⟩, huw⟩ := h
  have ha : ∀ t ∈ u, t.pos ≤ first.pos := fun t ht => (huw t ht a List.mem_cons_self).trans hfirst
  refine ⟨hu, ⟨fun t ht => ?_, hw, hpw⟩, fun t ht t' ht' => ?_⟩
  · rcases List.mem_cons.mp ht with rfl | ht
    · exact hsecond
    · exact hsecond.trans (hw t ht)
  · rcases List.mem_cons.mp ht' with rfl | ht'
    · exact ha t ht
    · rcases List.mem_cons.mp ht' with rfl | ht'
      · exact (ha t ht).trans hsecond
      · exact huw t ht t' (List.mem_cons_of_mem _ (List.mem_cons_of_mem _ ht'))

theorem mem_replaced {u w : List Token} {a b first second t : Token} {n : ℕ}
    (h : t ∈ (u ++ first :: second :: w).take n) : t = first ∨ t = second ∨ t ∈ u ++ a :: b :: w := by
  rcases List.mem_append.mp (List.mem_of_mem_take h) with h | h
  · exact Or.inr (Or.inr (List.mem_append_left _ h))
  · rcases List.mem_cons.mp h with rfl | h
    · exact Or.inl rfl
    · rcases List.mem_cons.mp h with rfl | h
      · exact Or.inr (Or.inl rfl)
      · exact Or.inr (Or.inr (List.mem_append_right _ (List.mem_cons_of_mem _ (List.mem_cons_of_mem _ h))))

/-- What a rule puts in the place of the tokens `a` and `b`, where `w` are those behind. -/
structure Fits (st : FoldState) (a b : Token) (w : List Token) (first second : Token) (drop : ℕ) : Prop where
  start : a.pos ≤ first.pos
  order : first.pos ≤ second.pos
  behind : ∀ t ∈ w, second.pos ≤ t.pos
  bound : second.pos ≤ st.bound
  live : Live first ∧ Live second
  same : drop = 0 → first.pos = a.pos ∧ first.val = a.val ∧ second.pos = b.pos ∧ second.val = b.val

section Replace

variable {st : FoldState} {u w : List Token} {a b first second : Token} {drop : ℕ} {left : Left}

theorem replace_eq (htoks : st.toks = u ++ a :: b :: w) (hleft : u.length = st.left) (hdrop : drop ≤ st.pos) :
    st.replace first second drop left = some { st with
      toks := (u ++ first :: second :: w).take (st.pos - drop)
      left := left.move st.left } := by
  unfold replace
  rw [sizeSub_of_le hdrop, htoks, ← hleft, set_split]
  rfl

theorem Inv.replace (inv : Inv st) (htoks : st.toks = u ++ a :: b :: w) (fits : Fits st a b w first second drop)
    (hdrop : drop ≤ st.pos) (hmove : left.move st.left ≤ st.pos - drop) : Inv { st with
      toks := (u ++ first :: second :: w).take (st.pos - drop)
      left := left.move st.left } := by
  have hlength : (u ++ first :: second :: w).length = st.pos := by
    unfold pos
    rw [htoks]
    simp only [List.length_append, List.length_cons]
  have hpos : ((u ++ first :: second :: w).take (st.pos - drop)).length = st.pos - drop := by
    rw [List.length_take, hlength]
    omega
  have hlive := inv.live
  have horder := inv.order
  have hbefore := inv.before
  have hunfolded := inv.unfolded
  have hcounted := inv.counted
  rw [htoks] at hlive horder hbefore hunfolded
  refine ⟨inv.nonempty, inv.le, ?_, ?_, fun t ht => ?_, ?_, fun t ht => ?_, ?_, fun heq t ht => ?_, inv.comment⟩
  · exact hmove.trans_eq hpos.symm
  · exact hpos.trans_le ((Nat.sub_le _ _).trans inv.pos_le)
  · rcases mem_replaced ht with rfl | rfl | ht
    · exact fits.live.1
    · exact fits.live.2
    · exact hlive t ht
  · exact (pairwise_replaced horder fits.start fits.order fits.behind).sublist (List.take_sublist _ _)
  · rcases mem_replaced ht with rfl | rfl | ht
    · exact fits.order.trans fits.bound
    · exact fits.bound
    · exact hbefore t ht
  · refine le_trans (Nat.add_le_add_right ?_ _) hcounted
    exact hpos.trans_le (Nat.sub_le _ _)
  · have heq : st.sf.tokens = st.pos - drop + st.comments := heq.trans (congrArg (· + st.comments) hpos)
    have htwo : 2 ≤ st.pos := by
      rw [← hlength]
      simp only [List.length_append, List.length_cons]
      omega
    obtain rfl : drop = 0 := by omega
    obtain ⟨hfpos, hfval, hspos, hsval⟩ := fits.same rfl
    have hold := hunfolded (by omega)
    rcases mem_replaced ht with rfl | rfl | ht
    · rw [hfpos, hfval]
      exact hold a (List.mem_append_right _ List.mem_cons_self)
    · rw [hspos, hsval]
      exact hold b (List.mem_append_right _ (List.mem_cons_of_mem _ List.mem_cons_self))
    · exact hold t ht

end Replace

/-! ### The measure -/

/-- What is left to read, and the tokens that have been. -/
def work (st : FoldState) : ℕ := 2 * (st.sf.len - st.sf.pos) + st.pos

def weights (st : FoldState) : ℕ := (st.toks.map fun t => t.type.weight).sum

def ranks (st : FoldState) : ℕ :=
  ((st.toks[st.left]?).map fun t => t.type.rank).getD 0 +
    ((st.toks[st.left + 1]?).map fun t => t.type.rankSecond).getD 0

/-- What falls with every turn of the loop. -/
def measure (st : FoldState) : ℕ :=
  if st.more then ((st.work * 13 + st.weights) * 7 + (6 - st.left)) * 4 + st.ranks + 1 else 0

theorem weights_le {st : FoldState} (inv : Inv st) : st.weights ≤ 12 := by
  have hsum : st.weights ≤ (st.toks.map fun t => t.type.weight).length * 2 := by
    refine List.sum_le_card_nsmul _ 2 fun n hn => ?_
    obtain ⟨t, -, rfl⟩ := List.mem_map.mp hn
    exact t.type.weight_le
  rw [List.length_map] at hsum
  have hpos := inv.pos_le
  unfold pos MAX_TOKENS at hpos
  omega

theorem ranks_le (st : FoldState) : st.ranks ≤ 3 := by
  have hfirst : ((st.toks[st.left]?).map fun t => t.type.rank).getD 0 ≤ 2 := by
    cases st.toks[st.left]? with
    | none => exact Nat.zero_le _
    | some t => exact t.type.rank_le
  have hsecond : ((st.toks[st.left + 1]?).map fun t => t.type.rankSecond).getD 0 ≤ 1 := by
    cases st.toks[st.left + 1]? with
    | none => exact Nat.zero_le _
    | some t => exact t.type.rankSecond_le
  exact Nat.add_le_add hfirst hsecond

/-- The turn from `st` to `st'` gets ahead: less is left to read or to drop, or there is less to
rewrite, or `left` has moved on, or less can be rewritten there. -/
def Ahead (st st' : FoldState) : Prop :=
  st'.work < st.work ∨ st'.work ≤ st.work ∧ (st'.weights < st.weights ∨ st'.weights ≤ st.weights ∧
    (st.left < st'.left ∨ st.left = st'.left ∧ st'.ranks < st.ranks))

theorem measure_lt {st st' : FoldState} (inv' : Inv st') (hmore : st.more = true)
    (h : st'.more = true → st.Ahead st') : st'.measure < st.measure := by
  unfold measure
  rw [if_pos hmore]
  split_ifs with hmore'
  · have hweights := weights_le inv'
    have hranks := ranks_le st'
    have hleft := inv'.left_le.trans inv'.pos_le
    unfold MAX_TOKENS at hleft
    rcases h hmore' with h | ⟨hwork, h | ⟨hweight, h | ⟨hleft', h⟩⟩⟩
    all_goals omega
  · exact Nat.succ_pos _

theorem measure_lt_fuel {st : FoldState} (inv : Inv st) : st.measure < SqliState.foldFuel st.sf.len := by
  have hweights := weights_le inv
  have hranks := ranks_le st
  have hpos := inv.pos_le
  unfold measure SqliState.foldFuel work
  unfold MAX_TOKENS at hpos
  split_ifs <;> omega

/-! ### Reading tokens -/

theorem Inv.sublist {st : FoldState} (inv : Inv st) {toks : List Token} {left : ℕ} (h : List.Sublist toks st.toks)
    (hlt : toks.length < st.pos) (hleft : left ≤ toks.length) : Inv { st with toks := toks, left := left } where
  nonempty := inv.nonempty
  le := inv.le
  left_le := hleft
  pos_le := hlt.le.trans inv.pos_le
  live t ht := inv.live t (h.subset ht)
  order := inv.order.sublist h
  before t ht := inv.before t (h.subset ht)
  counted := (Nat.add_le_add_right hlt.le _).trans inv.counted
  unfolded heq := by
    have hcounted := inv.counted
    have heq : st.sf.tokens = toks.length + st.comments := heq
    omega
  comment := inv.comment

theorem fiveTokens_spec {st : FoldState} (inv : Inv st) :
    Inv st.fiveTokens ∧ st.fiveTokens.sf = st.sf ∧ st.fiveTokens.more = st.more ∧
      (st.fiveTokens = st ∨ st.fiveTokens.work < st.work) := by
  unfold fiveTokens
  split
  · next a b c d e rest htoks =>
      split
      · have hlt : (a :: rest.take 1).length < st.pos := by
          unfold pos
          rw [htoks]
          simp only [List.length_cons, List.length_take]
          omega
        have hsub : List.Sublist (a :: rest.take 1) st.toks := by
          rw [htoks]
          refine List.Sublist.cons_cons a ?_
          have hrest : List.Sublist rest (b :: c :: d :: e :: rest) := (List.suffix_append [b, c, d, e] rest).sublist
          exact (List.take_sublist 1 rest).trans hrest
        exact ⟨inv.sublist hsub hlt (Nat.zero_le _), rfl, rfl, Or.inr (Nat.add_lt_add_left hlt _)⟩
      · exact ⟨inv, rfl, rfl, Or.inl rfl⟩
  · exact ⟨inv, rfl, rfl, Or.inl rfl⟩

section Fetch

variable {st : FoldState} {sf : SqliState}

theorem Inv.push (inv : Inv st) (hpos : st.pos ≤ MAX_TOKENS) (called : Called st.sf true sf)
    (hcomment : sf.current.type ≠ .comment) :
    Inv { st with sf := sf, lastComment := none, toks := st.toks ++ [sf.current] } := by
  obtain ⟨hlt, htokens, placed⟩ := called.token rfl
  have hbound := inv.bound_le
  have hcounted := inv.counted
  have hlength : (st.toks ++ [sf.current]).length = st.pos + 1 := List.length_append
  have hlen : sf.len = st.sf.len := congrArg List.length called.s
  have hend := placed.inside
  refine ⟨hlen ▸ inv.nonempty, hlen ▸ called.le, ?_, ?_, fun t ht => ?_, ?_, fun t ht => ?_, ?_, fun heq t ht => ?_,
    fun c hc => by cases hc⟩
  · exact (inv.left_le.trans (Nat.le_succ _)).trans_eq hlength.symm
  · exact hlength.trans_le (Nat.succ_le_succ hpos)
  · rcases List.mem_append.mp ht with ht | ht
    · exact inv.live t ht
    · rw [List.mem_singleton.mp ht]
      exact ⟨placed.type, hcomment⟩
  · refine List.pairwise_append.mpr ⟨inv.order, List.pairwise_singleton _ _, fun t ht t' ht' => ?_⟩
    rw [List.mem_singleton.mp ht']
    exact ((inv.before t ht).trans hbound).trans placed.start
  · rcases List.mem_append.mp ht with ht | ht
    · exact ((inv.before t ht).trans hbound).trans hlt.le
    · rw [List.mem_singleton.mp ht]
      exact (Nat.le_add_right _ _).trans hend
  · rw [htokens]
    exact hlength.trans_le (Nat.succ_le_succ ((Nat.le_add_right _ _).trans hcounted))
  · have heq : st.sf.tokens + 1 = st.pos + 1 := by
      rw [← htokens, ← hlength]
      exact heq
    rcases List.mem_append.mp ht with ht | ht
    · exact ((inv.unfolded (by omega) t ht).trans hbound).trans hlt.le
    · rw [List.mem_singleton.mp ht]
      exact hend

theorem Inv.comments (inv : Inv st) (called : Called st.sf true sf) (hcomment : sf.current.type = .comment) :
    Inv { st with sf := sf, lastComment := some sf.current } := by
  obtain ⟨hlt, htokens, placed⟩ := called.token rfl
  have hbound := inv.bound_le
  have hcounted := inv.counted
  have hlen : sf.len = st.sf.len := congrArg List.length called.s
  have hstart := placed.start
  refine ⟨hlen ▸ inv.nonempty, hlen ▸ called.le, inv.left_le, inv.pos_le, inv.live, inv.order, fun t ht => ?_, ?_,
    fun heq t ht => ?_, fun c hc => ?_⟩
  · exact ((inv.before t ht).trans hbound).trans hstart
  · rw [htokens]
    exact Nat.succ_le_succ ((Nat.le_add_right _ _).trans hcounted)
  · have heq : st.sf.tokens + 1 = st.pos + 1 := htokens ▸ heq
    exact ((inv.unfolded (by omega) t ht).trans hbound).trans hstart
  · cases hc
    refine ⟨hcomment, ?_⟩
    rw [called.s]
    exact placed.mono (Nat.zero_le _) le_rfl

theorem Inv.ended (inv : Inv st) (called : Called st.sf false sf) : Inv { st with sf := sf, more := false } := by
  obtain ⟨hle, htokens, -⟩ := called.done rfl
  have hlen : sf.len = st.sf.len := congrArg List.length called.s
  have hbound : st.bound ≤ bound { st with sf := sf, more := false } := by
    unfold bound
    cases st.lastComment with
    | none => exact hle
    | some c => exact le_rfl
  refine ⟨hlen ▸ inv.nonempty, hlen ▸ called.le, inv.left_le, inv.pos_le, inv.live, inv.order,
    fun t ht => (inv.before t ht).trans hbound, htokens ▸ inv.counted,
    fun heq t ht => (inv.unfolded (htokens ▸ heq) t ht).trans hbound, fun c hc => ?_⟩
  obtain ⟨hc, placed⟩ := inv.comment c hc
  refine ⟨hc, ?_⟩
  rw [called.s]
  exact placed.mono le_rfl hle

/-- What the loop over the tokenizer leaves behind. -/
structure Fetched (want : ℕ) (st st' : FoldState) : Prop where
  s : st'.sf.s = st.sf.s
  left : st'.left = st.left
  toks : st.toks <+: st'.toks
  more : st'.more = true → st.more = true
  enough : st'.more = true → want ≤ st'.pos - st'.left ∨ MAX_TOKENS < st'.pos
  ahead : st'.more = true → st' = st ∨ st'.work < st.work

variable (signedChar : Bool) (T : KeywordTable)

/-- Nothing is read when the input has ended, or when there are tokens enough. -/
theorem fetch_done {want fuel : ℕ} (hle : st.left ≤ st.pos)
    (h : ¬(st.more = true ∧ st.pos ≤ MAX_TOKENS ∧ st.pos - st.left < want)) :
    st.fetch signedChar T want (fuel + 1) = some st := by
  unfold fetch andAlso
  split_ifs with hmore
  · rw [sizeSub_of_le hle]
    have hnot : ¬(st.pos - st.left < want) := fun hlt => h ⟨hmore.1, hmore.2, hlt⟩
    simp [hnot]
  · rfl

theorem exists_fetch (want : ℕ) : ∀ (fuel : ℕ) (st : FoldState), Inv st → st.sf.len - st.sf.pos + 1 < fuel →
    ∃ st', st.fetch signedChar T want fuel = some st' ∧ Inv st' ∧ Fetched want st st'
  | 0, _, _, hfuel => absurd hfuel (Nat.not_lt_zero _)
  | fuel + 1, st, inv, hfuel => by
      by_cases hread : st.more = true ∧ st.pos ≤ MAX_TOKENS ∧ st.pos - st.left < want
      · obtain ⟨hmore, hpos, hwant⟩ := hread
        obtain ⟨more, sf, hcall, called⟩ := exists_tokenize signedChar T inv.nonempty inv.le
        have hlen : sf.len = st.sf.len := congrArg List.length called.s
        unfold fetch andAlso
        rw [if_pos ⟨hmore, hpos⟩, sizeSub_of_le inv.left_le]
        simp only [Option.bind_eq_bind, Option.bind_some, hwant, decide_true, if_true, hcall]
        cases more with
        | false =>
            obtain ⟨fuel, rfl⟩ : ∃ n, fuel = n + 1 := ⟨fuel - 1, by omega⟩
            have hdone : fetch signedChar T want (fuel + 1) { st with sf := sf, more := false } =
                some { st with sf := sf, more := false } := fetch_done signedChar T inv.left_le (fun h => by cases h.1)
            exact ⟨_, hdone, inv.ended called, called.s, rfl, List.prefix_rfl, (fun h => by cases h),
              (fun h => by cases h), (fun h => by cases h)⟩
        | true =>
            obtain ⟨hlt, -, -⟩ := called.token rfl
            have hle := called.le
            simp only [Bool.not_true, Bool.false_eq_true, if_false]
            split_ifs with hcomment
            · obtain ⟨st', hrun, inv', fetched⟩ := exists_fetch want fuel _ (inv.comments called hcomment)
                (by simp only; omega)
              refine ⟨st', hrun, inv', fetched.s.trans called.s, fetched.left, fetched.toks, fun _ => hmore,
                fetched.enough,
                fun h => Or.inr ?_⟩
              have hwork : work { st with sf := sf, lastComment := some sf.current } < st.work := by
                unfold work pos
                simp only
                omega
              rcases fetched.ahead h with rfl | hahead
              · exact hwork
              · exact hahead.trans hwork
            · obtain ⟨st', hrun, inv', fetched⟩ := exists_fetch want fuel _ (inv.push hpos called hcomment)
                (by simp only; omega)
              refine ⟨st', hrun, inv', fetched.s.trans called.s, fetched.left,
                (List.prefix_append _ _).trans fetched.toks, fun _ => hmore, fetched.enough, fun h => Or.inr ?_⟩
              have hwork : work { st with sf := sf, lastComment := none, toks := st.toks ++ [sf.current] } <
                  st.work := by
                unfold work pos
                simp only [List.length_append, List.length_singleton]
                omega
              rcases fetched.ahead h with rfl | hahead
              · exact hwork
              · exact hahead.trans hwork
      · refine ⟨st, fetch_done signedChar T inv.left_le hread, inv, rfl, rfl, List.prefix_rfl, id, fun hmore => ?_,
          fun _ => Or.inl rfl⟩
        by_contra hnot
        exact hread ⟨hmore, by omega, by omega⟩

end Fetch

/-! ### One turn -/

section Turn

variable (signedChar : Bool) (T : KeywordTable) {st : FoldState}

theorem exists_two (inv : Inv st) (h : 2 ≤ st.pos - st.left) : ∃ u a b w, st.toks = u ++ a :: b :: w ∧
    u.length = st.left ∧ st.toks[st.left]? = some a ∧ st.toks[st.left + 1]? = some b ∧ Live a ∧ Live b ∧
    a.pos ≤ b.pos ∧ b.pos ≤ st.bound ∧ ∀ t ∈ w, b.pos ≤ t.pos := by
  have hlt : st.left + 1 < st.toks.length := by
    unfold pos at h
    omega
  have hlt' : st.left < st.toks.length := by omega
  have ha : st.toks[st.left]? = some st.toks[st.left] := List.getElem?_eq_getElem hlt'
  have hb : st.toks[st.left + 1]? = some st.toks[st.left + 1] := List.getElem?_eq_getElem hlt
  obtain ⟨u, w, htoks, hu⟩ := exists_split ha hb
  have horder := inv.order
  rw [htoks, List.pairwise_append, List.pairwise_cons, List.pairwise_cons] at horder
  obtain ⟨-, ⟨hab, hbw, -⟩, -⟩ := horder
  exact ⟨u, _, _, w, htoks, hu, ha, hb, inv.live _ (List.getElem_mem hlt'), inv.live _ (List.getElem_mem hlt),
    hab _ List.mem_cons_self, inv.before _ (List.getElem_mem hlt), hbw⟩

theorem weights_replaced {u w : List Token} {a b first second : Token} (htoks : st.toks = u ++ a :: b :: w)
    (n : ℕ) (hn : n = st.pos) (left : ℕ) :
    weights { st with toks := (u ++ first :: second :: w).take n, left := left } + (a.type.weight + b.type.weight) =
      st.weights + (first.type.weight + second.type.weight) := by
  have hlength : (u ++ first :: second :: w).length = n := by
    rw [hn]
    unfold pos
    rw [htoks]
    simp only [List.length_append, List.length_cons]
  unfold weights
  rw [htoks, List.take_of_length_le hlength.le]
  simp only [List.map_append, List.map_cons, List.sum_append, List.sum_cons]
  omega

theorem exists_dropped (inv : Inv st) (left : Left) {u w : List Token} {a b first second : Token} {drop : ℕ}
    (htoks : st.toks = u ++ a :: b :: w) (hu : u.length = st.left) (fits : Fits st a b w first second drop)
    (hpos : 0 < drop) (hdrop : drop ≤ st.pos) (hmove : left.move st.left ≤ st.pos - drop) :
    ∃ st', st.replace first second drop left = some st' ∧ Inv st' ∧ st'.sf = st.sf ∧ st'.more = st.more ∧
      st'.work < st.work := by
  refine ⟨_, replace_eq htoks hu hdrop, inv.replace htoks fits hdrop hmove, rfl, rfl, ?_⟩
  refine Nat.add_lt_add_left ?_ _
  refine (List.length_take_le _ _).trans_lt ?_
  omega

theorem exists_retyped (inv : Inv st) (left : Left) {u w : List Token} {a b first second : Token}
    (htoks : st.toks = u ++ a :: b :: w) (hu : u.length = st.left) (hfirst : Retyped a first)
    (hsecond : Retyped b second) (hlive : Live a ∧ Live b) (hab : a.pos ≤ b.pos) (hbound : b.pos ≤ st.bound)
    (hw : ∀ t ∈ w, b.pos ≤ t.pos) :
    ∃ st', st.replace first second 0 left = some st' ∧ Inv st' ∧ st'.sf = st.sf ∧ st'.more = st.more ∧
      st'.left = left.move st.left ∧ st'.work = st.work ∧
      st'.weights + (a.type.weight + b.type.weight) = st.weights + (first.type.weight + second.type.weight) ∧
      st'.toks = u ++ first :: second :: w := by
  have hlength : (u ++ first :: second :: w).length = st.pos := by
    unfold pos
    rw [htoks]
    simp only [List.length_append, List.length_cons]
  have fits : Fits st a b w first second 0 := {
    start := hfirst.pos.symm.le
    order := by rw [hfirst.pos, hsecond.pos]; exact hab
    behind := by rw [hsecond.pos]; exact hw
    bound := by rw [hsecond.pos]; exact hbound
    live := ⟨hfirst.live hlive.1, hsecond.live hlive.2⟩
    same := fun _ => ⟨hfirst.pos, hfirst.val, hsecond.pos, hsecond.val⟩ }
  have hmove : left.move st.left ≤ st.pos - 0 := (left.move_le _).trans inv.left_le
  refine ⟨_, replace_eq htoks hu (Nat.zero_le _), inv.replace htoks fits (Nat.zero_le _) hmove,
    rfl, rfl, rfl, ?_, ?_, ?_⟩
  · unfold work pos
    simp only [List.length_take, hlength]
    unfold pos
    omega
  · exact weights_replaced htoks _ (Nat.sub_zero _) _
  · exact List.take_of_length_le (hlength.le.trans_eq (Nat.sub_zero _).symm)

/-- The rules for three tokens drop some of them, or `left` moves on. -/
theorem exists_foldThree (inv : Inv st) (hleft : st.left < MAX_TOKENS) :
    ∃ st', st.foldThree signedChar T = some st' ∧ Inv st' ∧ st'.sf.s = st.sf.s ∧
      (st'.more = true → st.more = true ∧
        (st'.work < st.work ∨ st'.work ≤ st.work ∧ st'.weights ≤ st.weights ∧ st.left < st'.left)) := by
  obtain ⟨st1, hfetch, inv1, fetched⟩ := exists_fetch signedChar T 3 (st.sf.len + 2) st inv (by omega)
  have hleft1 := fetched.left
  unfold foldThree
  rw [hfetch]
  simp only [Option.bind_eq_bind, Option.bind_some, sizeSub_of_le inv1.left_le]
  split_ifs with hfew
  · refine ⟨_, rfl, inv1.setLeft le_rfl, fetched.s, fun hmore => ⟨fetched.more hmore, ?_⟩⟩
    have hfull : MAX_TOKENS < st1.pos := (fetched.enough hmore).resolve_left (by omega)
    rcases fetched.ahead hmore with rfl | hahead
    · exact Or.inr ⟨le_rfl, le_rfl, hleft.trans hfull⟩
    · exact Or.inl hahead
  · obtain ⟨u, a, b, w, htoks, hu, ha, hb, hla, hlb, hab, hbound, hbw⟩ := exists_two inv1 (by omega)
    obtain ⟨c, w', rfl⟩ : ∃ c w', w = c :: w' := by
      cases w with
      | cons c w' => exact ⟨c, w', rfl⟩
      | nil =>
          have hlength := congrArg List.length htoks
          simp only [List.length_append, List.length_cons, List.length_nil] at hlength
          unfold pos at hfew
          omega
    have hc : st1.toks[st1.left + 2]? = some c := by
      rw [htoks, List.getElem?_append_right (by omega), show st1.left + 2 - u.length = 2 by omega]
      rfl
    have horder := inv1.order
    have hlive := inv1.live
    have hbefore := inv1.before
    rw [htoks] at horder hlive hbefore
    have hcmem : c ∈ u ++ a :: b :: c :: w' := by simp
    have hcw : ∀ t ∈ c :: w', c.pos ≤ t.pos := by
      rw [List.pairwise_append, List.pairwise_cons, List.pairwise_cons, List.pairwise_cons] at horder
      intro t ht
      rcases List.mem_cons.mp ht with rfl | ht
      · exact le_rfl
      · exact horder.2.1.2.2.1 t ht
    have hspec := threeTokens_spec signedChar a b c
    simp only [ha, hb, hc, Option.bind_some]
    generalize threeTokens signedChar a b c = outcome at hspec
    cases hspec with
    | @drops second drop hsecond hpos hle =>
        have fits : Fits st1 a b (c :: w') a second drop := by
          rcases hsecond with rfl | rfl
          · exact ⟨le_rfl, hab, hbw, hbound, ⟨hla, hlb⟩, fun h => absurd h hpos.ne'⟩
          · exact ⟨le_rfl, hab.trans (hbw _ List.mem_cons_self), hcw, hbefore _ hcmem, ⟨hla, hlive _ hcmem⟩,
              fun h => absurd h hpos.ne'⟩
        obtain ⟨st', hreplace, inv', hsf, hmore', hwork⟩ :=
          exists_dropped inv1 .reset htoks hu fits hpos (by omega) (Nat.zero_le _)
        refine ⟨st', hreplace, inv', (congrArg SqliState.s hsf).trans fetched.s,
          fun hmore => ⟨fetched.more (hmore'.symm.trans hmore), Or.inl ?_⟩⟩
        rcases fetched.ahead (hmore'.symm.trans hmore) with rfl | hahead
        · exact hwork
        · exact hwork.trans hahead
    | @onward first hfirst hweight =>
        obtain ⟨st', hreplace, inv', hsf, hmore', hleft', hwork, hweights, htoks'⟩ :=
          exists_retyped inv1 .keep htoks hu hfirst (.refl b) ⟨hla, hlb⟩ hab hbound hbw
        have hleft' : st'.left = st1.left := hleft'
        simp only [hreplace, Option.bind_some]
        have hlength' : st'.left + 1 ≤ st'.pos := by
          unfold pos
          rw [htoks', List.length_append, List.length_cons, hu]
          omega
        refine ⟨_, rfl, inv'.setLeft hlength', (congrArg SqliState.s hsf).trans fetched.s,
          fun hmore => ⟨fetched.more (hmore'.symm.trans hmore), ?_⟩⟩
        have hmove : st.left < st'.left + 1 := by omega
        rcases fetched.ahead (hmore'.symm.trans hmore) with rfl | hahead
        · exact Or.inr ⟨hwork.le, by show st'.weights ≤ _; omega, hmove⟩
        · exact Or.inl (hwork.trans_lt hahead)

/-- What folding leaves behind: a few tokens in the order of the input.  Where a comment
follows a single token and no other call of the tokenizer was made, that token is as long as
what stands in front of the comment. -/
structure Folded (s : Bytes) (sf : SqliState) (toks : List Token) : Prop where
  input : sf.s = s
  live : ∀ t ∈ toks, t.type ≠ .none
  order : toks.Pairwise fun t t' => t.pos ≤ t'.pos
  inside : ∀ t ∈ toks, t.pos ≤ s.length
  short : toks.length ≤ MAX_TOKENS ∨ toks.length ≤ MAX_TOKENS + 1 ∧ ∃ t ∈ toks, t.type = .evil
  counted : toks.length ≤ sf.tokens
  plain : ∀ t t', toks = [t, t'] → t'.type = .comment → sf.tokens ≤ 2 → t'.char 0 ≠ chr '#' →
    t.val.length + 2 ≤ s.length

theorem folded_finish (inv : Inv st) : Folded st.sf.s st.sf st.finish := by
  have hbound := inv.bound_le
  have hle := inv.le
  have hall : List.Sublist st.finish (st.toks ++ st.lastComment.toList) := by
    unfold finish
    split_ifs
    · exact List.take_sublist _ _
    · exact (List.take_sublist _ _).trans (List.sublist_append_left _ _)
  have hcomment : ∀ c ∈ st.lastComment.toList, c.pos = st.bound ∧ c.type = .comment ∧ Placed st.sf.s 0 st.sf.pos c := by
    intro c hc
    have hlast := Option.mem_toList.mp hc
    refine ⟨?_, inv.comment c hlast⟩
    unfold bound
    rw [hlast]
  refine ⟨rfl, fun t ht => ?_, ?_, fun t ht => ?_, Or.inl ?_, ?_, fun t t' heq htype htokens hhash => ?_⟩
  · rcases List.mem_append.mp (hall.subset ht) with ht | ht
    · exact (inv.live t ht).1
    · rw [(hcomment t ht).2.1]
      decide
  · refine List.Pairwise.sublist hall (List.pairwise_append.mpr ⟨inv.order, ?_, fun t ht c hc => ?_⟩)
    · cases st.lastComment with
      | none => exact List.Pairwise.nil
      | some c => exact List.pairwise_singleton _ _
    · rw [(hcomment c hc).1]
      exact inv.before t ht
  · rcases List.mem_append.mp (hall.subset ht) with ht | ht
    · exact ((inv.before t ht).trans hbound).trans hle
    · rw [(hcomment t ht).1]
      exact hbound.trans hle
  · exact List.length_take_le _ _
  · refine le_trans hall.length_le ?_
    rw [List.length_append]
    exact inv.counted
  · have hlive : t' ∉ st.toks := fun h => (inv.live t' h).2 htype
    have hsub : List.Sublist [t, t'] (st.toks ++ st.lastComment.toList) := heq ▸ hall
    have hlast : t' ∈ st.lastComment.toList := by
      rcases List.mem_append.mp (hsub.subset (List.mem_cons_of_mem _ List.mem_cons_self)) with h | h
      · exact absurd h hlive
      · exact h
    obtain ⟨hpos, -, placed⟩ := hcomment t' hlast
    have hone : st.lastComment = some t' := Option.mem_toList.mp hlast
    have ht : t ∈ st.toks := by
      unfold finish at heq
      rw [hone] at heq
      cases htoks : st.toks with
      | nil =>
          rw [htoks] at heq
          unfold pos at heq
          rw [htoks] at heq
          cases heq
      | cons a rest =>
          have hhead := congrArg List.head? heq
          rw [List.head?_take, if_neg (by unfold MAX_TOKENS; omega)] at hhead
          split_ifs at hhead
          all_goals
            rw [htoks] at hhead
            cases hhead
            exact List.mem_cons_self
    have hcounted := inv.counted
    have hpos1 : 1 ≤ st.pos := List.length_pos_of_mem ht
    have hcomments : st.comments = 1 := by
      unfold comments
      rw [hone]
      rfl
    have hend := inv.unfolded (by omega) t ht
    have htwo : 2 ≤ t'.val.length := by
      refine (placed.comment htype).resolve_left fun h => hhash ?_
      unfold Token.char
      cases hval : t'.val with
      | nil => rw [hval] at h; cases h
      | cons c rest => rw [hval] at h; exact Option.some.inj h
    have hinside := placed.inside
    have hle' : st.sf.pos ≤ st.sf.s.length := hle
    omega

theorem folded_evil (inv : Inv st) {u w : List Token} {a b : Token} (htoks : st.toks = u ++ a :: b :: w)
    (hu : u.length = st.left) :
    Folded st.sf.s st.sf ((st.toks.set (st.left + 1) (b.withType .evil)).take (st.left + 2)) := by
  have hset : (st.toks.set (st.left + 1) (b.withType .evil)).take (st.left + 2) = u ++ [a, b.withType .evil] := by
    rw [htoks, ← hu, List.set_append_right _ _ (Nat.le_succ _), show u.length + 1 - u.length = 1 by omega,
      List.take_length_add_append]
    rfl
  have hsub : List.Sublist (u ++ [a, b]) st.toks := by
    rw [htoks]
    exact (List.Sublist.cons_cons a (List.Sublist.cons_cons b (List.nil_sublist w))).append_left u
  have hlength : (u ++ [a, b]).length ≤ st.pos := hsub.length_le
  have horder := inv.order.sublist hsub
  have hab : a.pos ≤ b.pos := by
    rw [List.pairwise_append, List.pairwise_cons] at horder
    exact horder.2.1.1 b List.mem_cons_self
  have hmem : ∀ t ∈ u ++ [a, b.withType .evil], t = b.withType .evil ∨ t ∈ st.toks := by
    intro t ht
    rcases List.mem_append.mp ht with ht | ht
    · exact Or.inr (hsub.subset (List.mem_append_left _ ht))
    · rcases List.mem_cons.mp ht with rfl | ht
      · exact Or.inr (hsub.subset (List.mem_append_right _ List.mem_cons_self))
      · exact Or.inl (List.mem_singleton.mp ht)
  have hbmem : b ∈ st.toks := hsub.subset (List.mem_append_right _ (List.mem_cons_of_mem _ List.mem_cons_self))
  have hbefore : ∀ t ∈ st.toks, t.pos ≤ st.sf.s.length := fun t ht =>
    ((inv.before t ht).trans inv.bound_le).trans inv.le
  rw [List.length_append] at hlength
  rw [hset]
  refine ⟨rfl, fun t ht => ?_, pairwise_replaced horder le_rfl hab (fun t ht => absurd ht List.not_mem_nil),
    fun t ht => ?_, Or.inr ⟨?_, b.withType .evil, ?_, rfl⟩, ?_, fun t t' heq htype => ?_⟩
  · rcases hmem t ht with rfl | ht
    · exact fun h => by cases h
    · exact (inv.live t ht).1
  · rcases hmem t ht with rfl | ht
    · exact hbefore b hbmem
    · exact hbefore t ht
  · rw [List.length_append]
    exact hlength.trans inv.pos_le
  · exact List.mem_append_right _ (List.mem_cons_of_mem _ List.mem_cons_self)
  · rw [List.length_append]
    exact hlength.trans ((Nat.le_add_right _ _).trans inv.counted)
  · have hlast := congrArg List.getLast? heq
    rw [List.getLast?_append] at hlast
    cases hlast
    cases htype

theorem ranks_eq {u w : List Token} {a b : Token} (htoks : st.toks = u ++ a :: b :: w) (hu : u.length = st.left) :
    st.ranks = a.type.rank + b.type.rankSecond := by
  unfold ranks
  rw [htoks, List.getElem?_append_right (by omega), List.getElem?_append_right (by omega), ← hu, Nat.sub_self,
    show u.length + 1 - u.length = 1 by omega]
  rfl

/-- The rules for two tokens end folding, or get ahead. -/
theorem exists_foldTwo (inv : Inv st) (hleft : st.left < MAX_TOKENS) {u w : List Token} {a b : Token}
    (htoks : st.toks = u ++ a :: b :: w) (hu : u.length = st.left) (hlive : Live a ∧ Live b) (hab : a.pos ≤ b.pos)
    (hbound : b.pos ≤ st.bound) (hbw : ∀ t ∈ w, b.pos ≤ t.pos) {outcome : Outcome} (hspec : outcome.Two a b) :
    (∃ st', st.foldTwo signedChar T b outcome = some (.inl st') ∧ Inv st' ∧ st'.sf.s = st.sf.s ∧
      (st'.more = true → st.more = true ∧ st.Ahead st')) ∨
    ∃ sf toks, st.foldTwo signedChar T b outcome = some (.inr (sf, toks)) ∧ Folded st.sf.s sf toks := by
  have htwo : st.left + 2 ≤ st.pos := by
    unfold pos
    rw [htoks, List.length_append, List.length_cons, List.length_cons]
    omega
  cases hspec with
  | @drops first drop left hfirst hpos hle =>
      have fits : Fits st a b w first b drop := by
        rcases hfirst with rfl | ⟨hfpos, hfirst⟩
        · exact ⟨hab, le_rfl, hbw, hbound, ⟨hlive.2, hlive.2⟩, fun h => absurd h hpos.ne'⟩
        · exact ⟨hfpos.symm.le, hfpos.trans_le hab, hbw, hbound, ⟨hfirst hlive.1, hlive.2⟩, fun h => absurd h hpos.ne'⟩
      have hmove : left.move st.left ≤ st.pos - drop := (left.move_le _).trans (by omega)
      obtain ⟨st', hreplace, inv', hsf, hmore, hwork⟩ := exists_dropped inv left htoks hu fits hpos (by omega) hmove
      exact Or.inl ⟨st', congrArg (Option.map Sum.inl) hreplace, inv', congrArg SqliState.s hsf,
        fun h => ⟨hmore.symm.trans h, Or.inl hwork⟩⟩
  | @resets first hfirst hweight =>
      obtain ⟨st', hreplace, inv', hsf, hmore, -, hwork, hweights, -⟩ :=
        exists_retyped inv .reset htoks hu hfirst (.refl b) hlive hab hbound hbw
      exact Or.inl ⟨st', congrArg (Option.map Sum.inl) hreplace, inv', congrArg SqliState.s hsf,
        fun h => ⟨hmore.symm.trans h, Or.inr ⟨hwork.le, Or.inl (by omega)⟩⟩⟩
  | @keeps first second hfirst hsecond hweight hrank =>
      obtain ⟨st', hreplace, inv', hsf, hmore, hleft', hwork, hweights, htoks'⟩ :=
        exists_retyped inv .keep htoks hu hfirst hsecond hlive hab hbound hbw
      refine Or.inl ⟨st', congrArg (Option.map Sum.inl) hreplace, inv', congrArg SqliState.s hsf, fun h =>
        ⟨hmore.symm.trans h, Or.inr ⟨hwork.le, Or.inr ⟨by omega, Or.inr ⟨hleft'.symm, ?_⟩⟩⟩⟩⟩
      rw [ranks_eq htoks hu, ranks_eq htoks' (hu.trans hleft'.symm)]
      exact hrank
  | @onward first hfirst hweight =>
      obtain ⟨st2, hreplace, inv2, hsf, hmore, hleft2, hwork, hweights, -⟩ :=
        exists_retyped inv .keep htoks hu hfirst (.refl b) hlive hab hbound hbw
      have hleft2 : st2.left = st.left := hleft2
      obtain ⟨st', hthree, inv', hs, hahead⟩ := exists_foldThree signedChar T inv2 (by omega)
      refine Or.inl ⟨st', ?_, inv', hs.trans (congrArg SqliState.s hsf), fun h => ?_⟩
      · unfold foldTwo
        simp only [hreplace, Option.bind_eq_bind, Option.bind_some, hthree, Option.map_some]
      · obtain ⟨hmore2, hahead⟩ := hahead h
        refine ⟨hmore.symm.trans hmore2, ?_⟩
        rcases hahead with hlt | ⟨hle, hweight', hmove⟩
        · exact Or.inl (by omega)
        · exact Or.inr ⟨by omega, Or.inr ⟨by omega, Or.inl (by omega)⟩⟩
  | @collates second hsecond hweight =>
      obtain ⟨st2, hreplace, inv2, hsf, hmore, hleft2, hwork, hweights, -⟩ :=
        exists_retyped inv .reset htoks hu (.refl a) hsecond hlive hab hbound hbw
      have hleft2 : st2.left = 0 := hleft2
      obtain ⟨st', hthree, inv', hs, hahead⟩ := exists_foldThree signedChar T inv2 (by rw [hleft2]; decide)
      refine Or.inl ⟨st', ?_, inv', hs.trans (congrArg SqliState.s hsf), fun h => ?_⟩
      · unfold foldTwo
        simp only [hreplace, Option.bind_eq_bind, Option.bind_some, hthree, Option.map_some]
      · obtain ⟨hmore2, hahead⟩ := hahead h
        refine ⟨hmore.symm.trans hmore2, ?_⟩
        rcases hahead with hlt | ⟨hle, hweight', -⟩
        · exact Or.inl (by omega)
        · exact Or.inr ⟨by omega, Or.inl (by omega)⟩
  | evil => exact Or.inr ⟨_, _, rfl, folded_evil inv htoks hu⟩

/-- **A turn of the loop.**  It never leaves the input or the tokens.  It ends folding, or keeps the
invariant, and the measure falls. -/
theorem exists_foldBody (inv : Inv st) :
    (∃ st', st.foldBody signedChar T = some (.inl st') ∧ Inv st' ∧ st'.sf.s = st.sf.s ∧ st'.measure < st.measure) ∨
      ∃ sf toks, st.foldBody signedChar T = some (.inr (sf, toks)) ∧ Folded st.sf.s sf toks := by
  obtain ⟨inv0, hsf0, hmore0, hahead0⟩ := fiveTokens_spec inv
  unfold foldBody
  simp only
  generalize st.fiveTokens = st0 at inv0 hsf0 hmore0 hahead0
  by_cases hend : (!st0.more || decide (MAX_TOKENS ≤ st0.left)) = true
  · rw [if_pos hend]
    exact Or.inr ⟨_, _, rfl, hsf0 ▸ folded_finish inv0⟩
  rw [if_neg hend]
  rw [Bool.or_eq_true, not_or, Bool.not_eq_true', Bool.not_eq_false, decide_eq_true_eq, not_le] at hend
  obtain ⟨hmore, hleft⟩ := hend
  obtain ⟨st1, hfetch, inv1, fetched⟩ := exists_fetch signedChar T 2 (st0.sf.len + 2) st0 inv0 (by omega)
  have hleft1 := fetched.left
  have hs : st1.sf.s = st.sf.s := fetched.s.trans (congrArg SqliState.s hsf0)
  have hmoreSt : st.more = true := hmore0.symm.trans hmore
  have hahead1 : st1.more = true → st1 = st ∨ st1.work < st.work := fun h => by
    rcases fetched.ahead h with rfl | hlt
    · exact hahead0
    · rcases hahead0 with rfl | hlt0
      · exact Or.inr hlt
      · exact Or.inr (hlt.trans hlt0)
  rw [hfetch]
  simp only [Option.bind_eq_bind, Option.bind_some, sizeSub_of_le inv1.left_le]
  by_cases hfew : st1.pos - st1.left < 2
  · rw [if_pos hfew]
    refine Or.inl ⟨_, rfl, inv1.setLeft le_rfl, hs, measure_lt (inv1.setLeft le_rfl) hmoreSt fun h => ?_⟩
    have henough := fetched.enough h
    unfold MAX_TOKENS at henough hleft
    omega
  rw [if_neg hfew]
  obtain ⟨u, a, b, w, htoks, hu, ha, hb, hla, hlb, hab, hbound, hbw⟩ := exists_two inv1 (by omega)
  obtain ⟨outcome, houtcome, hspec⟩ := twoTokens_spec signedChar T a b
  simp only [ha, hb, Option.bind_some, houtcome]
  rcases exists_foldTwo signedChar T inv1 (by omega) htoks hu ⟨hla, hlb⟩ hab hbound hbw hspec with
    ⟨st', hrun, inv', hs', hahead⟩ | ⟨sf, toks, hrun, folded⟩
  · refine Or.inl ⟨st', hrun, inv', hs'.trans hs, measure_lt inv' hmoreSt fun h => ?_⟩
    obtain ⟨hmore1, hahead⟩ := hahead h
    rcases hahead1 hmore1 with rfl | hlt
    · exact hahead
    · rcases hahead with hlt' | ⟨hle, -⟩
      · exact Or.inl (hlt'.trans hlt)
      · exact Or.inl (hle.trans_lt hlt)
  · exact Or.inr ⟨sf, toks, hrun, hs ▸ folded⟩

theorem exists_foldLoop : ∀ (fuel : ℕ) (st : FoldState), Inv st → st.measure < fuel →
    ∃ sf toks, st.foldLoop signedChar T fuel = some (sf, toks) ∧ Folded st.sf.s sf toks
  | 0, _, _, hfuel => absurd hfuel (Nat.not_lt_zero _)
  | fuel + 1, st, inv, hfuel => by
      unfold foldLoop
      rcases exists_foldBody signedChar T inv with ⟨st', hbody, inv', hs, hlt⟩ | ⟨sf, toks, hbody, folded⟩
      · rw [hbody]
        obtain ⟨sf, toks, hrun, folded⟩ := exists_foldLoop fuel st' inv' (by omega)
        exact ⟨sf, toks, hrun, hs ▸ folded⟩
      · rw [hbody]
        exact ⟨sf, toks, rfl, folded⟩

end Turn

end FoldState

/-! ### All of it -/

namespace SqliState

variable (signedChar : Bool) (T : KeywordTable)

/-- The first loop ends, at a token that is no comment or at the end of the input. -/
theorem exists_skipInitial : ∀ (fuel : ℕ) (sf : SqliState), 0 < sf.len → sf.pos ≤ sf.len → sf.len - sf.pos < fuel →
    ∃ more sf', sf.skipInitial signedChar T fuel = some (more, sf') ∧ sf'.s = sf.s ∧ (more = true →
      sf'.pos ≤ sf.len ∧ 1 ≤ sf'.tokens ∧ Placed sf.s 0 sf'.pos sf'.current ∧ sf'.current.type ≠ .comment)
  | 0, _, _, _, hfuel => absurd hfuel (Nat.not_lt_zero _)
  | fuel + 1, sf, hlen, hle, hfuel => by
      obtain ⟨more, sf1, hcall, called⟩ := exists_tokenize signedChar T hlen hle
      have hlen1 : sf1.len = sf.len := congrArg List.length called.s
      unfold skipInitial
      rw [hcall]
      simp only [Option.bind_eq_bind, Option.bind_some]
      split_ifs with hskip hmore
      · obtain ⟨hlt, -, -⟩ := called.token hmore
        have hle1 := called.le
        obtain ⟨more', sf', hrun, hs, hspec⟩ := exists_skipInitial fuel sf1 (by omega) (by omega) (by omega)
        rw [called.s, hlen1] at hspec
        exact ⟨more', sf', hrun, hs.trans called.s, hspec⟩
      · exact ⟨false, sf1, rfl, called.s, fun h => by cases h⟩
      · refine ⟨more, sf1, rfl, called.s, fun h => ?_⟩
        obtain ⟨-, htokens, placed⟩ := called.token h
        refine ⟨called.le, by omega, placed.mono (Nat.zero_le _) le_rfl, fun hcomment => hskip (Or.inl ?_)⟩
        rw [hcomment]
        exact List.mem_cons_self

theorem exists_fold {s : Bytes} (flags : Flags) (hs : s ≠ []) :
    ∃ sf toks, (init s flags).fold signedChar T = some (sf, toks) ∧ FoldState.Folded s sf toks := by
  have hlen : 0 < (init s flags).len := List.length_pos_iff.mpr hs
  obtain ⟨more, sf1, hskip, hs1, hspec⟩ := exists_skipInitial signedChar T ((init s flags).len + 2) (init s flags) hlen
    (Nat.zero_le _) (by omega)
  unfold fold
  rw [hskip]
  simp only [Option.bind_eq_bind, Option.bind_some]
  cases more with
  | false =>
      refine ⟨sf1, [], rfl, hs1, fun t ht => absurd ht List.not_mem_nil, List.Pairwise.nil,
        fun t ht => absurd ht List.not_mem_nil, Or.inl (Nat.zero_le _), Nat.zero_le _, fun t t' h => by cases h⟩
  | true =>
      obtain ⟨hle, htokens, placed, hcomment⟩ := hspec rfl
      have hlen1 : sf1.len = (init s flags).len := congrArg List.length hs1
      have inv : FoldState.Inv { sf := sf1, toks := [sf1.current], left := 0, more := true, lastComment := none } := {
        nonempty := by rw [hlen1]; exact hlen
        le := by rw [hlen1]; exact hle
        left_le := Nat.zero_le _
        pos_le := by show 1 ≤ MAX_TOKENS + 1; decide
        live := fun t ht => List.mem_singleton.mp ht ▸ ⟨placed.type, hcomment⟩
        order := List.pairwise_singleton _ _
        before := fun t ht => by
          rw [List.mem_singleton.mp ht]
          exact (Nat.le_add_right _ _).trans placed.inside
        counted := htokens
        unfolded := fun _ t ht => List.mem_singleton.mp ht ▸ placed.inside
        comment := fun c hc => by cases hc }
      obtain ⟨sf, toks, hrun, folded⟩ := FoldState.exists_foldLoop signedChar T (foldFuel sf1.len) _ inv
        (FoldState.measure_lt_fuel inv)
      refine ⟨sf, toks, hrun, ?_⟩
      have hinput : sf1.s = s := hs1
      rw [← hinput]
      exact folded

end SqliState

end PurpleWolf.Sqli
