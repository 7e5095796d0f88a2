import PurpleWolf.Core.TokenBuckets

/-! # The slab limiter computes the reference limiter

`Represents T s l` relates a state of `LruTokenBuckets` to a reference list `l`; it is the
invariant of the data structure.  Each list operation is first described by its effect on
the links (`IntrusiveList.Links`), with the buckets untouched; `check_represents` composes
them into one simulation step, and `run_represents` is the simulation over whole runs. -/

namespace PurpleWolf.Reputation

open PurpleWolf.IntrusiveList

variable {Ip : Type}

/-- The part of a slot that is not a link. -/
def Node.data (n : Node Ip) : Option Ip × ℚ × ℕ := (n.ip, n.tokens, n.lastRefill)

/-- The bucket held in a slot that belongs to an IP. -/
def Node.bucket (n : Node Ip) : Option (Bucket Ip) := n.ip.map (⟨·, n.tokens, n.lastRefill⟩)

namespace LruTokenBuckets

variable (T : Target)

/-- The links threaded through the slab; a slot outside the slab has none. -/
def links (s : LruTokenBuckets Ip) : Links ℕ where
  next i := (s.slab[i]?.map Node.next).getD (NIL T)
  prev i := (s.slab[i]?.map Node.prev).getD (NIL T)
  head := s.head
  tail := s.tail

/-- `s'` differs from `s` in links only. -/
structure SameBuckets (s s' : LruTokenBuckets Ip) : Prop where
  data : s'.slab.map Node.data = s.slab.map Node.data
  index : s'.index = s.index
  cap : s'.cap = s.cap
  quota : s'.quotaPerSec = s.quotaPerSec

variable {T} {s s' s'' : LruTokenBuckets Ip}

theorem SameBuckets.trans (h : SameBuckets s s') (h' : SameBuckets s' s'') : SameBuckets s s'' :=
  ⟨h'.data.trans h.data, h'.index.trans h.index, h'.cap.trans h.cap, h'.quota.trans h.quota⟩

theorem SameBuckets.length (h : SameBuckets s s') : s'.slab.length = s.slab.length := by
  simpa using congrArg List.length h.data

/-! ### Effect of the operations on the links -/

theorem modifyNode_eq {slot : ℕ} (f : Node Ip → Node Ip) (h : slot < s.slab.length) :
    s.modifyNode slot f = some { s with slab := s.slab.modify slot f } := by
  simp [modifyNode, h]

theorem links_modify {slot : ℕ} {n : Node Ip} (f : Node Ip → Node Ip) (hn : s.slab[slot]? = some n) :
    links T { s with slab := s.slab.modify slot f } =
      { links T s with
        next := Function.update (links T s).next slot (f n).next
        prev := Function.update (links T s).prev slot (f n).prev } := by
  have h : ∀ (g : Node Ip → ℕ) (i : ℕ), (((s.slab.modify slot f)[i]?).map g).getD (NIL T) =
      Function.update (fun i => (s.slab[i]?.map g).getD (NIL T)) slot (g (f n)) i := by
    intro g i
    rw [List.getElem?_modify]
    by_cases hi : slot = i
    · subst hi; simp [hn]
    · simp [hi, Function.update_of_ne (Ne.symm hi)]
  simp only [links]
  congr 1 <;> funext i <;> exact h _ i

theorem sameBuckets_modify {slot : ℕ} (f : Node Ip → Node Ip) (hf : ∀ n, (f n).data = n.data) :
    SameBuckets s { s with slab := s.slab.modify slot f } := by
  refine ⟨?_, rfl, rfl, rfl⟩
  apply List.ext_getElem?
  intro i
  simp only [List.getElem?_map, List.getElem?_modify]
  cases s.slab[i]? with
  | none => simp
  | some n => by_cases hi : slot = i <;> simp [hi, hf]

theorem setNext_spec {slot : ℕ} (v : ℕ) (h : slot < s.slab.length) :
    ∃ s', s.modifyNode slot (fun m => { m with next := v }) = some s' ∧
      links T s' = { links T s with next := Function.update (links T s).next slot v } ∧
      SameBuckets s s' := by
  have hn := List.getElem?_eq_getElem h
  refine ⟨_, modifyNode_eq _ h, ?_, sameBuckets_modify _ (fun _ => rfl)⟩
  have hp : s.slab[slot].prev = (links T s).prev slot := by simp [links, hn]
  rw [links_modify _ hn, hp, Function.update_eq_self]

theorem setPrev_spec {slot : ℕ} (v : ℕ) (h : slot < s.slab.length) :
    ∃ s', s.modifyNode slot (fun m => { m with prev := v }) = some s' ∧
      links T s' = { links T s with prev := Function.update (links T s).prev slot v } ∧
      SameBuckets s s' := by
  have hn := List.getElem?_eq_getElem h
  refine ⟨_, modifyNode_eq _ h, ?_, sameBuckets_modify _ (fun _ => rfl)⟩
  have hx : s.slab[slot].next = (links T s).next slot := by simp [links, hn]
  rw [links_modify _ hn, hx, Function.update_eq_self]

theorem unlink_spec {slot : ℕ} (hs : slot < s.slab.length)
    (hp : (links T s).prev slot ≠ NIL T → (links T s).prev slot < s.slab.length)
    (hx : (links T s).next slot ≠ NIL T → (links T s).next slot < s.slab.length) :
    ∃ s', s.unlink T slot = some s' ∧ links T s' = (links T s).unlink (NIL T) slot ∧
      SameBuckets s s' := by
  have hn := List.getElem?_eq_getElem hs
  have hpe : (links T s).prev slot = s.slab[slot].prev := by simp [links, hn]
  have hxe : (links T s).next slot = s.slab[slot].next := by simp [links, hn]
  rw [hpe] at hp
  rw [hxe] at hx
  obtain ⟨s₁, h₁, l₁, b₁⟩ : ∃ s₁, (if s.slab[slot].prev ≠ NIL T then
      s.modifyNode s.slab[slot].prev (fun m => { m with next := s.slab[slot].next })
      else some { s with head := s.slab[slot].next }) = some s₁ ∧
      links T s₁ = { links T s with
        next := ((links T s).unlink (NIL T) slot).next
        head := ((links T s).unlink (NIL T) slot).head } ∧ SameBuckets s s₁ := by
    by_cases hc : s.slab[slot].prev = NIL T
    · refine ⟨{ s with head := s.slab[slot].next }, by simp [hc], ?_, ⟨rfl, rfl, rfl, rfl⟩⟩
      simp only [Links.unlink, hpe, hxe, hc, if_true]
      rfl
    · obtain ⟨s₁, h₁, l₁, b₁⟩ := setNext_spec (T := T) s.slab[slot].next (hp hc)
      exact ⟨s₁, by simp [hc, h₁], by simp [l₁, Links.unlink, hpe, hxe, hc], b₁⟩
  obtain ⟨s₂, h₂, l₂, b₂⟩ : ∃ s₂, (if s.slab[slot].next ≠ NIL T then
      s₁.modifyNode s.slab[slot].next (fun m => { m with prev := s.slab[slot].prev })
      else some { s₁ with tail := s.slab[slot].prev }) = some s₂ ∧
      links T s₂ = { links T s₁ with
        prev := ((links T s).unlink (NIL T) slot).prev
        tail := ((links T s).unlink (NIL T) slot).tail } ∧ SameBuckets s₁ s₂ := by
    by_cases hc : s.slab[slot].next = NIL T
    · refine ⟨{ s₁ with tail := s.slab[slot].prev }, by simp [hc], ?_, ⟨rfl, rfl, rfl, rfl⟩⟩
      have : (links T s₁).prev = (links T s).prev := by rw [l₁]
      simp only [Links.unlink, hpe, hxe, hc, if_true, ← this]
      rfl
    · obtain ⟨s₂, h₂, l₂, b₂⟩ := setPrev_spec (T := T) s.slab[slot].prev (b₁.length ▸ hx hc)
      exact ⟨s₂, by simp [hc, h₂], by simp [l₂, l₁, Links.unlink, hpe, hxe, hc], b₂⟩
  refine ⟨s₂, ?_, ?_, b₁.trans b₂⟩
  · simp only [unlink, hn, Option.bind_eq_bind, Option.bind_some, h₁, h₂]
  · rw [l₂, l₁]

theorem pushFront_spec {slot : ℕ} (hs : slot < s.slab.length)
    (hh : s.head ≠ NIL T → s.head < s.slab.length) :
    ∃ s', s.pushFront T slot = some s' ∧ links T s' = (links T s).pushFront (NIL T) slot ∧
      SameBuckets s s' := by
  have hn := List.getElem?_eq_getElem hs
  let s₁ : LruTokenBuckets Ip :=
    { s with slab := s.slab.modify slot (fun n => { n with prev := NIL T, next := s.head }) }
  have b₁ : SameBuckets s s₁ := sameBuckets_modify _ (fun _ => rfl)
  have l₁ : links T s₁ = _ := links_modify _ hn
  obtain ⟨s₂, h₂, l₂, b₂⟩ : ∃ s₂, (if s.head ≠ NIL T then
      s₁.modifyNode s.head (fun n => { n with prev := slot }) else some s₁) = some s₂ ∧
      links T s₂ = { links T s₁ with
        prev := if s.head = NIL T then (links T s₁).prev
          else Function.update (links T s₁).prev s.head slot } ∧ SameBuckets s₁ s₂ := by
    by_cases hc : s.head = NIL T
    · exact ⟨s₁, by simp [hc], by simp [hc], ⟨rfl, rfl, rfl, rfl⟩⟩
    · obtain ⟨s₂, h₂, l₂, b₂⟩ := setPrev_spec (T := T) slot (b₁.length ▸ hh hc)
      exact ⟨s₂, by simp [hc, h₂], by simp [hc, l₂], b₂⟩
  have ht : s₂.tail = s.tail := by
    have : (links T s₂).tail = (links T s).tail := by rw [l₂, l₁]
    exact this
  refine ⟨if s₂.tail = NIL T then { s₂ with head := slot, tail := slot } else { s₂ with head := slot },
    ?_, ?_, ?_⟩
  · simp only [pushFront, modifyNode_eq _ hs, Option.bind_eq_bind, Option.bind_some]
    rw [h₂]
    simp only [Option.bind_some]
  · have e : links T s₂ = { (links T s).pushFront (NIL T) slot with
        head := (links T s₂).head, tail := (links T s₂).tail } := by
      rw [l₂, l₁]
      rfl
    rw [ht]
    split_ifs with hc
    · show ({ links T s₂ with head := slot, tail := slot } : Links ℕ) = _
      rw [e]
      simp [Links.pushFront, links, hc]
    · show ({ links T s₂ with head := slot, tail := s.tail } : Links ℕ) = _
      rw [e]
      simp [Links.pushFront, links, hc]
  · split_ifs <;> exact b₁.trans ⟨b₂.data, b₂.index, b₂.cap, b₂.quota⟩

/-! ### The slots and their buckets -/

/-- The IP a slot belongs to. -/
def ipAt (s : LruTokenBuckets Ip) (slot : ℕ) : Option Ip := s.slab[slot]?.bind Node.ip

/-- The bucket held in a slot. -/
def bucketAt (s : LruTokenBuckets Ip) (slot : ℕ) : Option (Bucket Ip) := s.slab[slot]?.bind Node.bucket

theorem SameBuckets.getElem?_data (h : SameBuckets s s') (i : ℕ) :
    s'.slab[i]?.map Node.data = s.slab[i]?.map Node.data := by
  rw [← List.getElem?_map, ← List.getElem?_map, h.data]

theorem SameBuckets.ipAt (h : SameBuckets s s') : s'.ipAt = s.ipAt := by
  funext i
  have e : ∀ t : LruTokenBuckets Ip, t.ipAt i = (t.slab[i]?.map Node.data).bind (·.1) := by
    intro t
    cases ht : t.slab[i]? <;> simp [LruTokenBuckets.ipAt, ht, Node.data]
  rw [e, e, h.getElem?_data]

theorem SameBuckets.bucketAt (h : SameBuckets s s') : s'.bucketAt = s.bucketAt := by
  funext i
  have e : ∀ t : LruTokenBuckets Ip, t.bucketAt i =
      (t.slab[i]?.map Node.data).bind (fun d => d.1.map (⟨·, d.2.1, d.2.2⟩)) := by
    intro t
    cases ht : t.slab[i]? <;> simp [LruTokenBuckets.bucketAt, ht, Node.data, Node.bucket]
  rw [e, e, h.getElem?_data]

theorem bucketAt_ip {slot : ℕ} {b : Bucket Ip} (h : s.bucketAt slot = some b) : s.ipAt slot = some b.ip := by
  unfold bucketAt at h
  cases hn : s.slab[slot]? with
  | none => simp [hn] at h
  | some n =>
      simp only [hn, Option.bind_some, Node.bucket, Option.map_eq_some_iff] at h
      obtain ⟨ip, hip, rfl⟩ := h
      simp [ipAt, hn, hip]

theorem lt_of_bucketAt {slot : ℕ} {b : Bucket Ip} (h : s.bucketAt slot = some b) :
    slot < s.slab.length := by
  by_contra hc
  rw [bucketAt, List.getElem?_eq_none (by omega)] at h
  simp at h

theorem lt_of_ipAt {slot : ℕ} {ip : Ip} (h : s.ipAt slot = some ip) : slot < s.slab.length := by
  by_contra hc
  rw [ipAt, List.getElem?_eq_none (by omega)] at h
  simp at h

theorem slot_modify {slot : ℕ} {n : Node Ip} (f : Node Ip → Node Ip) (hn : s.slab[slot]? = some n)
    (i : ℕ) {β : Type} (g : Node Ip → Option β) :
    ((s.slab.modify slot f)[i]?).bind g = if i = slot then g (f n) else (s.slab[i]?).bind g := by
  rw [List.getElem?_modify]
  by_cases hi : slot = i
  · subst hi; simp [hn]
  · simp [hi, Ne.symm hi]

/-! ### The invariant -/

/-- The slots met by following `next` from `head`. -/
def recency (T : Target) (s : LruTokenBuckets Ip) : List ℕ :=
  (links T s).walk (NIL T) s.slab.length s.head

/-- The list threads `order`, every slot of the slab once, and the index is exact outside
`free`, the slots that are detached. -/
structure Threaded (T : Target) (s : LruTokenBuckets Ip) (free order : List ℕ) (l : Recency Ip) :
    Prop where
  linked : Linked (NIL T) (links T s) order
  slots : (free ++ order).Perm (List.range s.slab.length)
  len_le : s.slab.length ≤ s.cap
  cap_pos : 1 ≤ s.cap
  cap_le : s.cap ≤ NIL T
  buckets : order.map s.bucketAt = l.map some
  index : ∀ ip slot, s.index ip = some slot ↔ slot ∉ free ∧ s.ipAt slot = some ip

/-- `s` is a slab representation of the reference list `l`. -/
def Represents (T : Target) (s : LruTokenBuckets Ip) (l : Recency Ip) : Prop :=
  ∃ order, Threaded T s [] order l

namespace Threaded

variable {free order : List ℕ} {l : Recency Ip}

theorem lt_of_mem (h : Threaded T s free order l) {slot : ℕ} (hm : slot ∈ free ++ order) :
    slot < s.slab.length :=
  List.mem_range.mp (h.slots.mem_iff.mp hm)

theorem mem_of_lt (h : Threaded T s [] order l) {slot : ℕ} (hm : slot < s.slab.length) :
    slot ∈ order := by
  have := h.slots.mem_iff.mpr (List.mem_range.mpr hm)
  simpa using this

theorem slot_ne_nil (h : Threaded T s free order l) {slot : ℕ} (hm : slot ∈ free ++ order) :
    slot ≠ NIL T := by
  have := h.lt_of_mem hm
  have := h.len_le
  have := h.cap_le
  omega

theorem next_lt (h : Threaded T s free order l) {slot : ℕ} (hm : slot ∈ order)
    (hne : (links T s).next slot ≠ NIL T) : (links T s).next slot < s.slab.length := by
  obtain ⟨xs, ys, rfl⟩ := List.append_of_mem hm
  have hn := h.linked.next_eq xs slot ys rfl
  rw [hn] at hne ⊢
  have := Linked.head?_getD_mem hne
  exact h.lt_of_mem (by simp [this])

theorem prev_lt (h : Threaded T s free order l) {slot : ℕ} (hm : slot ∈ order)
    (hne : (links T s).prev slot ≠ NIL T) : (links T s).prev slot < s.slab.length := by
  obtain ⟨xs, ys, rfl⟩ := List.append_of_mem hm
  have hn := h.linked.prev_eq xs slot ys rfl
  rw [hn] at hne ⊢
  have := Linked.getLast?_getD_mem hne
  exact h.lt_of_mem (by simp [this])

theorem order_length (h : Threaded T s [] order l) : order.length = s.slab.length := by
  simpa using h.slots.length_eq

theorem length_eq (h : Threaded T s [] order l) : l.length = s.slab.length := by
  have := congrArg List.length h.buckets
  simp only [List.length_map] at this
  rw [← this, h.order_length]

theorem recency_eq (h : Threaded T s [] order l) : recency T s = order :=
  h.linked.walk_eq h.order_length.le

/-- An IP is tracked by the reference list exactly when some slot belongs to it. -/
theorem mem_iff (h : Threaded T s free order l) (b : Bucket Ip) :
    b ∈ l ↔ ∃ slot ∈ order, s.bucketAt slot = some b := by
  have : some b ∈ l.map some ↔ some b ∈ order.map s.bucketAt := by rw [h.buckets]
  simpa using this

/-- A slot of the list splits the reference list at its bucket. -/
theorem split {slot : ℕ} {xs ys : List ℕ} (h : Threaded T s free (xs ++ slot :: ys) l) :
    ∃ lx b ly, l = lx ++ b :: ly ∧ xs.map s.bucketAt = lx.map some ∧ s.bucketAt slot = some b ∧
      ys.map s.bucketAt = ly.map some := by
  have hbk := h.buckets
  rw [List.map_append, List.map_cons] at hbk
  obtain ⟨lx, ly', rfl, hlx, hly'⟩ := List.map_eq_append_iff.mp hbk.symm
  obtain ⟨b, ly, rfl, hb, hly⟩ := List.map_eq_cons_iff.mp hly'
  exact ⟨lx, b, ly, rfl, hlx.symm, hb.symm, hly.symm⟩

end Threaded

/-! ### Moving a known slot to the front -/

theorem head_lt {order : List ℕ} (h : Linked (NIL T) (links T s) order)
    (hlt : ∀ i ∈ order, i < s.slab.length) (hne : s.head ≠ NIL T) : s.head < s.slab.length := by
  have hh : s.head = order.head?.getD (NIL T) := h.head_eq
  rw [hh] at hne ⊢
  exact hlt _ (Linked.head?_getD_mem hne)

theorem unlink_linked {slot : ℕ} (xs ys : List ℕ) {l : Recency Ip}
    (h : Threaded T s [] (xs ++ slot :: ys) l) :
    ∃ s', s.unlink T slot = some s' ∧ Linked (NIL T) (links T s') (xs ++ ys) ∧ SameBuckets s s' := by
  have hm : slot ∈ xs ++ slot :: ys := by simp
  obtain ⟨s', hs', hl, hb⟩ := unlink_spec (h.lt_of_mem (by simp)) (h.prev_lt hm) (h.next_lt hm)
  exact ⟨s', hs', hl ▸ h.linked.unlink, hb⟩

theorem touch_linked {slot : ℕ} {xs ys : List ℕ} {l : Recency Ip}
    (h : Threaded T s [] (xs ++ slot :: ys) l) :
    ∃ s', s.touch T slot = some s' ∧ Linked (NIL T) (links T s') (slot :: (xs ++ ys)) ∧
      SameBuckets s s' := by
  have hnd := h.linked.nodup
  have hnil : slot ≠ NIL T := h.slot_ne_nil (by simp)
  by_cases hc : s.head = slot
  · have hxs : xs = [] := by
      have hh : s.head = _ := h.linked.head_eq
      cases xs with
      | nil => rfl
      | cons x xs =>
          have : slot = x := by simpa [hc] using hh
          subst this
          simp at hnd
    subst hxs
    exact ⟨s, by simp [touch, hc], by simpa using h.linked, ⟨rfl, rfl, rfl, rfl⟩⟩
  · obtain ⟨s₁, h₁, l₁, b₁⟩ := unlink_linked xs ys h
    have hlt : ∀ i ∈ xs ++ ys, i < s₁.slab.length := by
      intro i hi
      rw [b₁.length]
      rcases List.mem_append.mp hi with hi | hi <;> exact h.lt_of_mem (by simp [hi])
    have hs₁ : slot < s₁.slab.length := by
      rw [b₁.length]
      exact h.lt_of_mem (by simp)
    obtain ⟨s₂, h₂, l₂, b₂⟩ := pushFront_spec hs₁ (head_lt l₁ hlt)
    refine ⟨s₂, by simp [touch, hc, h₁, h₂], ?_, b₁.trans b₂⟩
    rw [l₂]
    refine l₁.pushFront ?_ hnil
    rw [List.nodup_middle] at hnd
    exact (List.nodup_cons.mp hnd).1

/-! ### Acquiring a slot for a new IP -/

/-- Growing the slab: the blank node is not linked yet. -/
theorem grow_threaded {order : List ℕ} {l : Recency Ip} (h : Threaded T s [] order l)
    (hlt : s.slab.length < s.cap) :
    Threaded T { s with slab := s.slab ++ [⟨none, 0, 0, NIL T, NIL T⟩] } [s.slab.length] order l := by
  have hget : ∀ {β : Type} (d : β) (g : Node Ip → β) (i : ℕ), g ⟨none, 0, 0, NIL T, NIL T⟩ = d →
      ((s.slab ++ [⟨none, 0, 0, NIL T, NIL T⟩])[i]?).elim d g = (s.slab[i]?).elim d g := by
    intro β d g i hg
    rcases Nat.lt_trichotomy i s.slab.length with hi | rfl | hi
    · rw [List.getElem?_append_left hi]
    · simp [hg]
    · rw [List.getElem?_eq_none (by simp; omega), List.getElem?_eq_none (by omega)]
  have hbind : ∀ {β : Type} (o : Option (Node Ip)) (g : Node Ip → Option β), o.bind g = o.elim none g := by
    intro β o g; cases o <;> rfl
  have hmap : ∀ (o : Option (Node Ip)) (g : Node Ip → ℕ), (o.map g).getD (NIL T) = o.elim (NIL T) g := by
    intro o g; cases o <;> rfl
  have hlink : links T { s with slab := s.slab ++ [⟨none, 0, 0, NIL T, NIL T⟩] } = links T s := by
    simp only [links, hmap]
    congr 1 <;> funext i <;> exact hget (NIL T) _ i rfl
  refine ⟨hlink ▸ h.linked, ?_, ?_, h.cap_pos, h.cap_le, ?_, ?_⟩
  · have := h.slots
    simp only [List.nil_append] at this
    simp only [List.length_append, List.length_singleton, List.range_succ]
    exact (this.cons _).trans (List.perm_append_singleton _ _).symm
  · simpa using hlt
  · rw [← h.buckets]
    apply List.map_congr_left
    intro i _
    simp only [bucketAt, hbind]
    exact hget none Node.bucket i rfl
  · intro ip slot
    have hi : ipAt { s with slab := s.slab ++ [⟨none, 0, 0, NIL T, NIL T⟩] } slot = s.ipAt slot := by
      simp only [ipAt, hbind]
      exact hget none Node.ip slot rfl
    rw [hi, h.index ip slot]
    constructor
    · rintro ⟨_, hip⟩
      have := lt_of_ipAt hip
      exact ⟨by simp; omega, hip⟩
    · rintro ⟨_, hip⟩
      exact ⟨List.not_mem_nil, hip⟩

theorem links_modify_data {slot : ℕ} {n : Node Ip} (f : Node Ip → Node Ip) (hn : s.slab[slot]? = some n)
    (hnext : (f n).next = n.next) (hprev : (f n).prev = n.prev) :
    links T { s with slab := s.slab.modify slot f } = links T s := by
  have hx : n.next = (links T s).next slot := by simp [links, hn]
  have hp : n.prev = (links T s).prev slot := by simp [links, hn]
  rw [links_modify f hn, hnext, hprev, hx, hp, Function.update_eq_self, Function.update_eq_self]

variable [DecidableEq Ip]

/-- What becomes of an evicted slot: it is blank, and its IP is no longer indexed. -/
def forget (s : LruTokenBuckets Ip) (slot : ℕ) (ip : Ip) : LruTokenBuckets Ip :=
  { s with
    slab := s.slab.modify slot (fun n => { n with ip := none })
    index := Function.update s.index ip none }

theorem forget_slot {slot : ℕ} {n : Node Ip} (hn : s.slab[slot]? = some n) (ip : Ip) {i : ℕ} (hi : i ≠ slot)
    {β : Type} (g : Node Ip → Option β) : ((s.forget slot ip).slab[i]?).bind g = (s.slab[i]?).bind g :=
  (slot_modify _ hn i g).trans (if_neg hi)

theorem forget_index {slot : ℕ} {ip : Ip} (hip : s.ipAt slot = some ip)
    (hexact : ∀ k i, s.index k = some i ↔ s.ipAt i = some k) (k : Ip) (i : ℕ) :
    (s.forget slot ip).index k = some i ↔ i ∉ [slot] ∧ (s.forget slot ip).ipAt i = some k := by
  obtain ⟨n, hn, hnip⟩ := Option.bind_eq_some_iff.mp hip
  have hindexed : s.index ip = some slot := (hexact ip slot).mpr hip
  rw [List.mem_singleton, show (s.forget slot ip).index = Function.update s.index ip none from rfl]
  by_cases hi : i = slot
  · subst hi
    simp only [not_true_eq_false, false_and, iff_false]
    by_cases hk : k = ip
    · rw [hk, Function.update_self]
      exact Option.some_ne_none i ∘ Eq.symm
    · rw [Function.update_of_ne hk, hexact, hip]
      exact fun e => hk (Option.some.inj e).symm
  · have hother : (s.forget slot ip).ipAt i = s.ipAt i := forget_slot hn ip hi Node.ip
    rw [hother, ← hexact]
    by_cases hk : k = ip
    · rw [hk, Function.update_self, hindexed]
      simp [Ne.symm hi]
    · rw [Function.update_of_ne hk]
      simp [hi]

theorem forget_untracked {k : Ip} (hk : s.index k = none) (slot : ℕ) (ip : Ip) :
    (s.forget slot ip).index k = none := by
  by_cases h : k = ip
  · rw [h]
    exact Function.update_self ..
  · exact (Function.update_of_ne h _ _).trans hk

/-- Evicting the tail of a non-empty list: the victim's slot comes back detached, its IP
is no longer indexed, and the reference list loses its last bucket. -/
theorem evictTail_threaded {order : List ℕ} {l : Recency Ip} (h : Threaded T s [] order l)
    (hne : order ≠ []) :
    ∃ s' victim order', s.evictTail T = some (s', victim) ∧ Threaded T s' [victim] order' l.dropLast ∧
      s'.slab.length = s.slab.length ∧ s'.cap = s.cap ∧ s'.quotaPerSec = s.quotaPerSec ∧
      ∀ ip, s.index ip = none → s'.index ip = none := by
  obtain ⟨xs, v, rfl⟩ := List.eq_nil_or_concat order |>.resolve_left hne
  rw [List.concat_eq_append] at h
  have hv : s.tail = v := by
    have : s.tail = _ := h.linked.tail_eq
    simpa using this
  obtain ⟨s₁, h₁, l₁, b₁⟩ := unlink_linked xs [] h
  rw [List.append_nil] at l₁
  obtain ⟨lx, b, ly, rfl, hlx, hb, hly⟩ := h.split
  obtain rfl : ly = [] := List.map_eq_nil_iff.mp hly.symm
  have hip : s₁.ipAt v = some b.ip := by
    rw [b₁.ipAt]
    exact bucketAt_ip hb
  obtain ⟨n, hn, hnip⟩ := Option.bind_eq_some_iff.mp hip
  have hvx : v ∉ xs := fun hm => (List.nodup_append.mp h.linked.nodup).2.2 v hm v (by simp) rfl
  refine ⟨s₁.forget v b.ip, v, xs, ?_, ⟨?_, ?_, ?_, ?_, ?_, ?_, ?_⟩, ?_, b₁.cap, b₁.quota, ?_⟩
  · have hg : v ≠ NIL T := h.slot_ne_nil (by simp)
    have hvlt : v < s₁.slab.length := lt_of_ipAt hip
    simp only [evictTail, hv, guard, ne_eq, hg, not_false_eq_true, if_true, Option.pure_def,
      Option.bind_eq_bind, Option.bind_some, h₁, hn, hnip, modifyNode_eq _ hvlt, forget]
  · have hlinks : links T (s₁.forget v b.ip) = links T s₁ := links_modify_data _ hn rfl rfl
    rw [hlinks]
    exact l₁
  · have hslots := h.slots
    simp only [List.nil_append] at hslots
    simp only [forget, List.length_modify, b₁.length]
    exact (List.perm_append_singleton v xs).symm.trans hslots
  · simpa [forget, b₁.length, b₁.cap] using h.len_le
  · simpa [forget, b₁.cap] using h.cap_pos
  · simpa [forget, b₁.cap] using h.cap_le
  · rw [List.dropLast_concat, ← hlx, ← b₁.bucketAt]
    apply List.map_congr_left
    intro i hi
    exact forget_slot hn b.ip (fun e => hvx (e ▸ hi)) Node.bucket
  · apply forget_index hip
    intro k i
    rw [b₁.index, b₁.ipAt, h.index]
    simp
  · simp [forget, b₁.length]
  · intro k hk
    apply forget_untracked
    rw [b₁.index, hk]

/-- A detached slot is handed out, and the reference list makes room. -/
theorem acquireSlot_threaded {l : Recency Ip} {order : List ℕ} (h : Threaded T s [] order l) :
    ∃ s' slot order', s.acquireSlot T = some (s', slot) ∧
      Threaded T s' [slot] order' (if l.length < s.cap then l else l.dropLast) ∧
      s'.cap = s.cap ∧ s'.quotaPerSec = s.quotaPerSec ∧ ∀ ip, s.index ip = none → s'.index ip = none := by
  have hlen := h.length_eq
  by_cases hc : s.slab.length < s.cap
  · refine ⟨{ s with slab := s.slab ++ [⟨none, 0, 0, NIL T, NIL T⟩] }, s.slab.length, order,
      by rw [acquireSlot, if_pos hc], ?_, rfl, rfl, fun ip hi => hi⟩
    rw [if_pos (by omega)]
    exact grow_threaded h hc
  · have hne : order ≠ [] := by
      rintro rfl
      have hlo := h.order_length
      have hcp := h.cap_pos
      rw [List.length_nil] at hlo
      omega
    obtain ⟨s', v, order', h₁, h₂, -, h₄, h₅, h₆⟩ := evictTail_threaded h hne
    refine ⟨s', v, order', by simp [acquireSlot, hc, h₁], ?_, h₄, h₅, h₆⟩
    rw [if_neg (by omega)]
    exact h₂

/-! ### One call -/

/-- Where a known IP sits in the slab order and in the reference list. -/
theorem known_split {l : Recency Ip} {order : List ℕ} (h : Threaded T s [] order l) {ip : Ip} {slot : ℕ}
    (hi : s.index ip = some slot) :
    ∃ xs ys lx b ly, order = xs ++ slot :: ys ∧ s.bucketAt slot = some b ∧ b.ip = ip ∧
      (xs ++ ys).map s.bucketAt = (lx ++ ly).map some ∧ l.find? (fun b => b.ip = ip) = some b ∧
      l.filter (fun c => c.ip ≠ ip) = lx ++ ly := by
  have hip : s.ipAt slot = some ip := ((h.index ip slot).mp hi).2
  obtain ⟨xs, ys, rfl⟩ := List.append_of_mem (h.mem_of_lt (lt_of_ipAt hip))
  obtain ⟨lx, b, ly, rfl, hlx, hb, hly⟩ := h.split
  have hbip : b.ip = ip := Option.some.inj ((bucketAt_ip hb).symm.trans hip)
  have hother : ∀ (zs : List ℕ) (lz : List (Bucket Ip)), zs.map s.bucketAt = lz.map some →
      slot ∉ zs → ∀ c ∈ lz, c.ip ≠ ip := by
    intro zs lz hz hn c hc he
    have : some c ∈ zs.map s.bucketAt := by rw [hz]; exact List.mem_map_of_mem hc
    obtain ⟨i, hi', hbi⟩ := List.mem_map.mp this
    have hii := bucketAt_ip hbi
    rw [he] at hii
    have hidx := (h.index ip i).mpr ⟨List.not_mem_nil, hii⟩
    rw [hi] at hidx
    exact hn (Option.some.inj hidx ▸ hi')
  have hnd := h.linked.nodup
  rw [List.nodup_middle] at hnd
  have hxy := (List.nodup_cons.mp hnd).1
  have hx := hother xs lx hlx (fun hm => hxy (List.mem_append_left _ hm))
  have hy := hother ys ly hly (fun hm => hxy (List.mem_append_right _ hm))
  refine ⟨xs, ys, lx, b, ly, rfl, hb, hbip, ?_, ?_, ?_⟩
  · rw [List.map_append, List.map_append, hlx, hly]
  · rw [List.find?_append, List.find?_eq_none.mpr (fun c hc => by simpa using hx c hc)]
    simp [hbip]
  · rw [List.filter_append, List.filter_cons_of_neg (by simp [hbip]),
      List.filter_eq_self.mpr (fun c hc => by simpa using hx c hc),
      List.filter_eq_self.mpr (fun c hc => by simpa using hy c hc)]

omit [DecidableEq Ip] in
theorem front_threaded {slot : ℕ} {rest : List ℕ} {b : Bucket Ip} {l : Recency Ip} {n : Node Ip}
    (h : Threaded T s [] (slot :: rest) (b :: l)) (hn : s.slab[slot]? = some n) (f : Node Ip → Node Ip)
    (hnext : (f n).next = n.next) (hprev : (f n).prev = n.prev) (hip : (f n).ip = n.ip) :
    Threaded T { s with slab := s.slab.modify slot f } [] (slot :: rest)
      (⟨b.ip, (f n).tokens, (f n).lastRefill⟩ :: l) := by
  have hbk := h.buckets
  rw [List.map_cons, List.map_cons, List.cons.injEq] at hbk
  have hnip : n.ip = some b.ip := by simpa [ipAt, hn] using bucketAt_ip hbk.1
  have hrest : slot ∉ rest := (List.nodup_cons.mp h.linked.nodup).1
  refine ⟨?_, ?_, ?_, h.cap_pos, h.cap_le, ?_, ?_⟩
  · rw [links_modify_data f hn hnext hprev]
    exact h.linked
  · simpa using h.slots
  · simpa using h.len_le
  · rw [List.map_cons, List.map_cons, ← hbk.2]
    congr 1
    · apply (slot_modify f hn slot Node.bucket).trans
      simp [Node.bucket, hip, hnip]
    · apply List.map_congr_left
      intro i hm
      have hne : i ≠ slot := fun e => hrest (e ▸ hm)
      exact (slot_modify f hn i Node.bucket).trans (if_neg hne)
  · intro ip i
    have : ipAt { s with slab := s.slab.modify slot f } i = s.ipAt i := by
      apply (slot_modify f hn i Node.ip).trans
      split_ifs with he
      · rw [he, ipAt, hn, Option.bind_some, hip]
      · rfl
    rw [this]
    exact h.index ip i

omit [DecidableEq Ip] in
theorem front_node {slot : ℕ} {rest : List ℕ} {b : Bucket Ip} {l : Recency Ip}
    (h : Threaded T s [] (slot :: rest) (b :: l)) :
    ∃ n, s.slab[slot]? = some n ∧ n.tokens = b.tokens ∧ n.lastRefill = b.lastRefill := by
  have hbk := h.buckets
  rw [List.map_cons, List.map_cons, List.cons.injEq] at hbk
  have hlt := lt_of_bucketAt hbk.1
  refine ⟨s.slab[slot], List.getElem?_eq_getElem hlt, ?_⟩
  have hb : (s.slab[slot]).bucket = some b := by
    have := hbk.1
    rwa [bucketAt, List.getElem?_eq_getElem hlt, Option.bind_some] at this
  simp only [Node.bucket, Option.map_eq_some_iff] at hb
  obtain ⟨ip, -, rfl⟩ := hb
  exact ⟨rfl, rfl⟩

theorem touch_threaded {l : Recency Ip} {order : List ℕ} (h : Threaded T s [] order l) {ip : Ip} {slot : ℕ}
    (hi : s.index ip = some slot) :
    ∃ s' rest b, s.touch T slot = some s' ∧ l.find? (fun b => b.ip = ip) = some b ∧
      Threaded T s' [] (slot :: rest) (b :: l.filter (fun c => c.ip ≠ ip)) ∧
      s'.cap = s.cap ∧ s'.quotaPerSec = s.quotaPerSec := by
  obtain ⟨xs, ys, lx, b, ly, rfl, hb, -, hrest, hfind, hfilter⟩ := known_split h hi
  obtain ⟨s₁, h₁, l₁, b₁⟩ := touch_linked h
  refine ⟨s₁, xs ++ ys, b, h₁, hfind, ⟨l₁, ?_, ?_, ?_, ?_, ?_, ?_⟩, b₁.cap, b₁.quota⟩
  · simpa [b₁.length] using List.perm_middle.symm.trans h.slots
  · simpa [b₁.length, b₁.cap] using h.len_le
  · simpa [b₁.cap] using h.cap_pos
  · simpa [b₁.cap] using h.cap_le
  · rw [hfilter, b₁.bucketAt, List.map_cons, List.map_cons, hrest, hb]
  · intro ip' i
    rw [b₁.index, b₁.ipAt]
    exact h.index ip' i

/-- Filling a detached slot with the bucket of an untracked IP and linking it in front. -/
theorem insert_threaded {l : Recency Ip} {order : List ℕ} {slot : ℕ} (h : Threaded T s [slot] order l)
    {ip : Ip} (hi : s.index ip = none) (tokens : ℚ) (now : ℕ) :
    ∃ s₁ s₂, s.modifyNode slot (fun n => { n with ip := some ip, tokens := tokens, lastRefill := now }) =
        some s₁ ∧
      pushFront T { s₁ with index := Function.update s₁.index ip (some slot) } slot = some s₂ ∧
      Threaded T s₂ [] (slot :: order) (⟨ip, tokens, now⟩ :: l) ∧
      s₂.cap = s.cap ∧ s₂.quotaPerSec = s.quotaPerSec := by
  let f : Node Ip → Node Ip := fun n => { n with ip := some ip, tokens := tokens, lastRefill := now }
  have hslot : slot < s.slab.length := h.lt_of_mem (by simp)
  have hn := List.getElem?_eq_getElem hslot
  have hnd : slot ∉ order := by
    have : ([slot] ++ order).Nodup := h.slots.nodup_iff.mpr List.nodup_range
    exact (List.nodup_cons.mp this).1
  let s₁ : LruTokenBuckets Ip :=
    { s with slab := s.slab.modify slot f, index := Function.update s.index ip (some slot) }
  have hl₁ : links T s₁ = links T s := links_modify_data f hn rfl rfl
  have hlen : s₁.slab.length = s.slab.length := by simp [s₁]
  have hlinked : Linked (NIL T) (links T s₁) order := hl₁ ▸ h.linked
  obtain ⟨s₂, h₂, l₂, b₂⟩ := pushFront_spec (T := T) (s := s₁) (hlen ▸ hslot)
    (head_lt hlinked (fun i hm => by rw [hlen]; exact h.lt_of_mem (by simp [hm])))
  have hget : ∀ {β : Type} (g : Node Ip → Option β) (i : ℕ),
      (s₁.slab[i]?).bind g = if i = slot then g (f s.slab[slot]) else (s.slab[i]?).bind g :=
    fun g i => slot_modify f hn i g
  refine ⟨{ s with slab := s.slab.modify slot f }, s₂, modifyNode_eq f hslot, h₂,
    ⟨?_, ?_, ?_, ?_, ?_, ?_, ?_⟩, b₂.cap, b₂.quota⟩
  · rw [l₂]
    exact hlinked.pushFront hnd (h.slot_ne_nil (by simp))
  · simpa [b₂.length, hlen] using h.slots
  · simpa [b₂.length, hlen, b₂.cap, s₁] using h.len_le
  · simpa [b₂.cap, s₁] using h.cap_pos
  · simpa [b₂.cap, s₁] using h.cap_le
  · rw [b₂.bucketAt, List.map_cons, List.map_cons, ← h.buckets]
    congr 1
    · apply (hget Node.bucket slot).trans
      simp [f, Node.bucket]
    · apply List.map_congr_left
      intro i hm
      have hne : i ≠ slot := fun e => hnd (e ▸ hm)
      exact (hget Node.bucket i).trans (if_neg hne)
  · intro ip' i
    have hat : s₁.ipAt i = if i = slot then some ip else s.ipAt i := hget Node.ip i
    have hidx := h.index ip' i
    rw [b₂.index, b₂.ipAt, hat]
    simp only [s₁, List.not_mem_nil, not_false_eq_true, true_and]
    by_cases hs : i = slot
    · subst hs
      rw [if_pos rfl]
      by_cases hp : ip' = ip
      · subst hp; simp
      · rw [Function.update_of_ne hp]
        simp only [List.mem_singleton, not_true_eq_false, false_and, iff_false] at hidx
        simp [hidx, Ne.symm hp]
    · rw [if_neg hs]
      simp only [List.mem_singleton, hs, not_false_eq_true, true_and] at hidx
      by_cases hp : ip' = ip
      · subst hp
        rw [← hidx, Function.update_self, hi]
        simp [Ne.symm hs]
      · rw [Function.update_of_ne hp, hidx]

/-- One call: the slab answers like the reference list and represents its successor. -/
theorem check_represents {l : Recency Ip} (h : Represents T s l) (now : ℕ) (ip : Ip) :
    ∃ s', s.check T now ip = some (s', (Recency.check s.cap s.quotaPerSec l now ip).2) ∧
      Represents T s' (Recency.check s.cap s.quotaPerSec l now ip).1 ∧
      s'.cap = s.cap ∧ s'.quotaPerSec = s.quotaPerSec := by
  obtain ⟨order, h⟩ := h
  cases hi : s.index ip with
  | some slot =>
      obtain ⟨s₁, rest, b, h₁, hfind, t₁, hcap, hquota⟩ := touch_threaded h hi
      obtain ⟨n, hn, hnt, hnr⟩ := front_node t₁
      have hslot : slot < s₁.slab.length := t₁.lt_of_mem (by simp)
      let b' := ((b.refill s.quotaPerSec now).spend).1
      let f : Node Ip → Node Ip := fun m => { m with tokens := b'.tokens, lastRefill := now }
      refine ⟨{ s₁ with slab := s₁.slab.modify slot f }, ?_, ⟨slot :: rest, ?_⟩, hcap, hquota⟩
      · simp only [check, hi, h₁, hn, Option.bind_eq_bind, Option.bind_some, modifyNode_eq _ hslot,
          Recency.check, hfind, hquota, hnt, hnr]
        rfl
      · simp only [Recency.check, hfind]
        exact front_threaded t₁ hn f rfl rfl rfl
  | none =>
      have hfind : l.find? (fun b => b.ip = ip) = none := by
        rw [List.find?_eq_none]
        intro b hb
        obtain ⟨i, -, hbi⟩ := (h.mem_iff b).mp hb
        have := (h.index b.ip i).mpr ⟨List.not_mem_nil, bucketAt_ip hbi⟩
        simp only [decide_eq_true_eq]
        rintro rfl
        rw [hi] at this
        cases this
      obtain ⟨s₁, slot, order₁, h₁, t₁, hcap₁, hquota₁, hi₁⟩ := acquireSlot_threaded h
      obtain ⟨s₂, s₃, h₂, h₃, t₃, hcap₃, hquota₃⟩ := insert_threaded t₁ (hi₁ ip hi) s.quotaPerSec now
      obtain ⟨n, hn, hnt, hnr⟩ := front_node t₃
      have hslot : slot < s₃.slab.length := t₃.lt_of_mem (by simp)
      let b' := ((Bucket.fresh s.quotaPerSec now ip).spend).1
      let f : Node Ip → Node Ip := fun m => { m with tokens := b'.tokens }
      refine ⟨{ s₃ with slab := s₃.slab.modify slot f }, ?_, ⟨slot :: order₁, ?_⟩, hcap₃.trans hcap₁,
        hquota₃.trans hquota₁⟩
      · simp only [check, hi, h₁, Option.bind_eq_bind, Option.bind_some, hquota₁, h₂, h₃, hn,
          modifyNode_eq _ hslot, Recency.check, hfind, hnt]
        rfl
      · have := front_threaded t₃ hn f rfl rfl rfl
        simp only [Recency.check, hfind]
        rwa [show (f n).lastRefill = now from hnr] at this

/-! ### Whole runs -/

theorem run_represents : ∀ (calls : List (ℕ × Ip)) (s : LruTokenBuckets Ip) (l : Recency Ip),
    Represents T s l →
    ∃ s', s.run T calls = some (s', (Recency.run s.cap s.quotaPerSec l calls).2) ∧
      Represents T s' (Recency.run s.cap s.quotaPerSec l calls).1 ∧
      s'.cap = s.cap ∧ s'.quotaPerSec = s.quotaPerSec
  | [], s, _, h => ⟨s, rfl, h, rfl, rfl⟩
  | (now, ip) :: calls, s, l, h => by
      obtain ⟨s₁, h₁, r₁, hcap₁, hquota₁⟩ := check_represents h now ip
      obtain ⟨s₂, h₂, r₂, hcap₂, hquota₂⟩ := run_represents calls s₁ _ r₁
      rw [hcap₁, hquota₁] at h₂ r₂
      refine ⟨s₂, ?_, r₂, hcap₂.trans hcap₁, hquota₂.trans hquota₁⟩
      simp only [run, h₁, h₂, Option.bind_eq_bind, Option.bind_some]
      rfl

omit [DecidableEq Ip] in
theorem new_represents (T : Target) (quota : ℕ) (cap : T.Usize) :
    Represents T (new T quota cap : LruTokenBuckets Ip) [] := by
  refine ⟨[], Linked.empty rfl rfl, ?_, ?_, ?_, ?_, rfl, ?_⟩
  · simp [new]
  · simp [new]
  · simp [new]
  · have := cap.2
    have := T.one_le
    simp only [new, NIL]
    omega
  · intro ip slot
    simp [new, ipAt]

/-! ### The layout of a reachable state -/

/-- What a state representing `l` looks like from outside. -/
structure Layout (T : Target) (s : LruTokenBuckets Ip) (l : Recency Ip) : Prop where
  /-- The index tracks exactly the IPs of the reference list. -/
  tracked : ∀ ip, (∃ slot, s.index ip = some slot) ↔ ∃ b ∈ l, b.ip = ip
  index_lt : ∀ ip slot, s.index ip = some slot → slot < s.slab.length
  index_inj : ∀ ip ip' slot, s.index ip = some slot → s.index ip' = some slot → ip = ip'
  own_key : ∀ ip slot, s.index ip = some slot → s.ipAt slot = some ip
  len_le : s.slab.length ≤ s.cap
  /-- The slots met from `head` on hold the buckets of the reference list, in its order. -/
  buckets : (recency T s).map s.bucketAt = l.map some
  visits : (recency T s).Perm (List.range s.slab.length)
  ends_at : s.tail = (recency T s).getLast?.getD (NIL T)
  tail_next : (links T s).next s.tail = NIL T
  prev_next : ∀ slot < s.slab.length, (links T s).next slot ≠ NIL T →
    (links T s).prev ((links T s).next slot) = slot
  next_prev : ∀ slot < s.slab.length, (links T s).prev slot ≠ NIL T →
    (links T s).next ((links T s).prev slot) = slot

omit [DecidableEq Ip] in
theorem Represents.layout {l : Recency Ip} (h : Represents T s l) : Layout T s l := by
  obtain ⟨order, h⟩ := h
  have hrec := h.recency_eq
  have hidx : ∀ ip slot, s.index ip = some slot ↔ s.ipAt slot = some ip := by
    intro ip slot
    rw [h.index]
    simp
  refine ⟨?_, ?_, ?_, ?_, h.len_le, ?_, ?_, ?_, ?_, ?_, ?_⟩
  · intro ip
    constructor
    · rintro ⟨slot, hs⟩
      have hip := (hidx ip slot).mp hs
      have hm := h.mem_of_lt (lt_of_ipAt hip)
      have : s.bucketAt slot ∈ l.map some := h.buckets ▸ List.mem_map_of_mem hm
      obtain ⟨b, hb, hbe⟩ := List.mem_map.mp this
      have hbip := bucketAt_ip hbe.symm
      exact ⟨b, hb, Option.some.inj (hbip.symm.trans hip)⟩
    · rintro ⟨b, hb, rfl⟩
      obtain ⟨slot, -, hs⟩ := (h.mem_iff b).mp hb
      exact ⟨slot, (hidx _ _).mpr (bucketAt_ip hs)⟩
  · intro ip slot hs
    exact lt_of_ipAt ((hidx ip slot).mp hs)
  · intro ip ip' slot hs hs'
    have := (hidx ip slot).mp hs
    rw [(hidx ip' slot).mp hs'] at this
    exact (Option.some.inj this).symm
  · intro ip slot hs
    exact (hidx ip slot).mp hs
  · rw [hrec, h.buckets]
  · rw [hrec]
    simpa using h.slots
  · rw [hrec]
    exact h.linked.tail_eq
  · rcases List.eq_nil_or_concat order with rfl | ⟨xs, a, rfl⟩
    · have : s.slab.length = 0 := by simpa using h.order_length.symm
      simp [links, List.length_eq_zero_iff.mp this]
    · rw [List.concat_eq_append] at h
      have ht : s.tail = a := by
        have : s.tail = _ := h.linked.tail_eq
        simpa using this
      rw [ht]
      exact h.linked.next_eq xs a [] rfl
  · intro slot hs
    exact h.linked.prev_next (h.mem_of_lt hs)
  · intro slot hs
    exact h.linked.next_prev (h.mem_of_lt hs)

omit [DecidableEq Ip] in
theorem Represents.length_le {l : Recency Ip} (h : Represents T s l) : l.length ≤ s.cap := by
  obtain ⟨order, h⟩ := h
  have := h.length_eq
  have := h.len_le
  omega

/-- **The limiter is the reference limiter**: from `new`, every sequence of calls runs
without a panic, gives the answers of the reference list, and leaves a well-formed slab
holding exactly its buckets. -/
theorem run_simulates_recency (T : Target) (quotaPerSec : ℕ) (cap : T.Usize) (calls : List (ℕ × Ip)) :
    ∃ s answers, run T (new T quotaPerSec cap) calls = some (s, answers) ∧
      answers = (Recency.run (max cap.1 1) (max quotaPerSec 1) [] calls).2 ∧
      Layout T s (Recency.run (max cap.1 1) (max quotaPerSec 1) [] calls).1 ∧
      s.cap = max cap.1 1 ∧
      (Recency.run (max cap.1 1) (max quotaPerSec 1) [] calls).1.length ≤ max cap.1 1 := by
  obtain ⟨s, hrun, hrep, hcap, -⟩ :=
    run_represents calls (new T quotaPerSec cap : LruTokenBuckets Ip) [] (new_represents T quotaPerSec cap)
  refine ⟨s, _, hrun, rfl, hrep.layout, hcap, ?_⟩
  have := hrep.length_le
  rwa [hcap] at this

end LruTokenBuckets
end PurpleWolf.Reputation
