import PurpleWolf.Lib.Recency
import PurpleWolf.Relay.HttpEnricher

/-! # The cache of an HTTP enricher over its life (`enrichers/http.rs`)

The cache keeps its entries in a map and the order of their use in a queue; a key leaves both on
three ways (an expired entry that is looked up, the sweep of a `put`, the eviction when the
cache is full).  `Synced` says that the two hold the same keys, and each operation has a lemma
that says what it does to the entries and that it keeps them synced.

A `Trace` follows a cache and notes the entries that were put and the keys that were found;
`Kept` is what holds between the notes and the cache, and `trace_kept` that it holds after any
operations at any times. -/

namespace PurpleWolf.Relay.Cache

open Recency

theorem nodup_erase_concat {lru : List Str} (h : lru.Nodup) (value : Str) : (lru.erase value ++ [value]).Nodup := by
  rw [List.nodup_append]
  refine ⟨h.erase value, List.nodup_singleton value, ?_⟩
  intro k hk k' hk' heq
  rw [List.mem_singleton.mp hk'] at heq
  exact h.not_mem_erase (heq ▸ hk)

/-- The map and the queue hold the same keys. -/
structure Synced (c : Cache) : Prop where
  mem_iff : ∀ k, k ∈ c.entries ↔ k ∈ c.lru
  nodup : c.lru.Nodup

namespace Synced

variable {c : Cache}

theorem length_eq (h : Synced c) : c.entries.keys.length = c.lru.length := by
  apply List.Perm.length_eq
  rw [List.perm_ext_iff_of_nodup c.entries.keys_nodup h.nodup]
  intro k
  rw [← AList.mem_keys]
  exact h.mem_iff k

theorem remove (h : Synced c) (value : Str) : Synced (c.remove value) where
  mem_iff k := by
    unfold Cache.remove removeLruKey
    rw [AList.mem_erase, h.nodup.mem_erase_iff, h.mem_iff]
  nodup := h.nodup.erase value

theorem touch (h : Synced c) {value : Str} (hmem : value ∈ c.entries) : Synced (c.touch value) where
  mem_iff k := by
    unfold Cache.touch removeLruKey
    rw [List.mem_append, List.mem_singleton, h.nodup.mem_erase_iff, h.mem_iff]
    by_cases hk : k = value
    · simp [hk, (h.mem_iff value).mp hmem]
    · simp [hk]
  nodup := nodup_erase_concat h.nodup value

end Synced

/-! ### Taking entries out -/

/-- Some keys of `c` have gone, from the map and from the queue. -/
structure Shrinks (c c' : Cache) : Prop where
  synced : c'.Synced
  sublist : c'.lru.Sublist c.lru
  capacity_eq : c'.capacity = c.capacity
  lookup : ∀ {k e}, c'.entries.lookup k = some e → c.entries.lookup k = some e

namespace Shrinks

variable {c c' c'' : Cache}

theorem refl (h : Synced c) : Shrinks c c := ⟨h, List.Sublist.refl _, rfl, id⟩

theorem trans (h : Shrinks c c') (h' : Shrinks c' c'') : Shrinks c c'' where
  synced := h'.synced
  sublist := h'.sublist.trans h.sublist
  capacity_eq := h'.capacity_eq.trans h.capacity_eq
  lookup hlookup := h.lookup (h'.lookup hlookup)

end Shrinks

theorem lookup_remove (c : Cache) (value k : Str) :
    (c.remove value).entries.lookup k = if k = value then none else c.entries.lookup k := by
  unfold remove
  split_ifs with hk
  · rw [hk, AList.lookup_erase]
  · exact AList.lookup_erase_ne hk

theorem shrinks_remove {c : Cache} (h : Synced c) (value : Str) : Shrinks c (c.remove value) where
  synced := h.remove value
  sublist := List.erase_sublist
  capacity_eq := rfl
  lookup {k e} hlookup := by
    rw [lookup_remove] at hlookup
    split_ifs at hlookup
    exact hlookup

theorem shrinks_foldl_remove : ∀ (ks : List Str) {c : Cache}, Synced c → Shrinks c (ks.foldl remove c)
  | [], _, h => Shrinks.refl h
  | value :: ks, _, h => (shrinks_remove h value).trans (shrinks_foldl_remove ks (h.remove value))

theorem lookup_foldl_remove (k : Str) : ∀ (ks : List Str) (c : Cache),
    (ks.foldl remove c).entries.lookup k = if k ∈ ks then none else c.entries.lookup k
  | [], _ => rfl
  | value :: ks, c => by
      rw [List.foldl_cons, lookup_foldl_remove k ks, lookup_remove]
      by_cases hk : k ∈ ks
      · simp [hk]
      · simp [hk]

theorem mem_expired {c : Cache} {now : ℕ} {k : Str} :
    k ∈ (c.entries.entries.filter (fun e => now ≥ e.2.expiresAt)).map (fun e => e.1) ↔
      ∃ e, c.entries.lookup k = some e ∧ e.expiresAt ≤ now := by
  rw [List.mem_map]
  constructor
  · rintro ⟨⟨k, e⟩, hmem, rfl⟩
    rw [List.mem_filter, decide_eq_true_eq] at hmem
    exact ⟨e, AList.mem_lookup_iff.mpr hmem.1, hmem.2⟩
  · rintro ⟨e, hlookup, hle⟩
    refine ⟨⟨k, e⟩, ?_, rfl⟩
    rw [List.mem_filter, decide_eq_true_eq]
    exact ⟨AList.mem_lookup_iff.mp hlookup, hle⟩

theorem shrinks_evictExpired {c : Cache} (h : Synced c) (now : ℕ) : Shrinks c (c.evictExpired now) :=
  shrinks_foldl_remove _ h

theorem lookup_evictExpired {c : Cache} {now : ℕ} {k : Str} {e : CacheEntry} (hlookup : c.entries.lookup k = some e)
    (hlt : now < e.expiresAt) : (c.evictExpired now).entries.lookup k = some e := by
  unfold evictExpired
  rw [lookup_foldl_remove, if_neg, hlookup]
  rw [mem_expired]
  rintro ⟨e', he', hle⟩
  rw [hlookup] at he'
  cases he'
  omega

/-! ### Making room -/

theorem makeRoom_of_lt {capacity : ℕ} {entries : AList (fun _ : Str => CacheEntry)} (lru : List Str)
    (h : entries.keys.length < capacity) : makeRoom capacity entries lru = (entries, lru) := by
  cases lru with
  | nil => rfl
  | cons oldest lru => rw [makeRoom, if_neg (Nat.not_le.mpr h)]

/-- A full cache loses its oldest entry, which makes room. -/
theorem makeRoom_of_full {c : Cache} (h : Synced c) {capacity : ℕ} (hcap : 0 < capacity)
    (hfull : c.lru.length = capacity) :
    ∃ oldest lru, c.lru = oldest :: lru ∧ makeRoom capacity c.entries c.lru = (c.entries.erase oldest, lru) := by
  obtain ⟨oldest, lru, hlru⟩ := List.exists_cons_of_length_pos (show 0 < c.lru.length by omega)
  have hroom : (c.entries.erase oldest).keys.length < capacity := by
    have herased : (c.entries.erase oldest).keys.length = (c.lru.erase oldest).length := (h.remove oldest).length_eq
    rw [hlru, List.erase_cons_head] at herased
    rw [hlru, List.length_cons] at hfull
    omega
  refine ⟨oldest, lru, hlru, ?_⟩
  rw [hlru, makeRoom, if_pos (h.length_eq.trans hfull).ge, makeRoom_of_lt lru hroom]

/-- The cache after the loop of `put`. -/
def withRoom (c : Cache) : Cache :=
  { c with
    entries := (makeRoom c.capacity c.entries c.lru).1
    lru := (makeRoom c.capacity c.entries c.lru).2 }

/-- In a cache that is not over its capacity, the loop ends with room, and it takes out the
oldest key at most. -/
theorem withRoom_spec {c : Cache} (h : Synced c) (hcap : 0 < c.capacity) (hle : c.lru.length ≤ c.capacity) :
    Shrinks c c.withRoom ∧ c.withRoom.lru.length < c.capacity ∧
      ∀ {k e}, c.entries.lookup k = some e →
        c.withRoom.entries.lookup k = some e ∨ c.lru.length = c.capacity ∧ c.lru.head? = some k := by
  obtain hlt | hfull := Nat.lt_or_eq_of_le hle
  · have hroom : c.withRoom = c := by
      unfold withRoom
      rw [makeRoom_of_lt c.lru (h.length_eq.trans_lt hlt)]
    rw [hroom]
    exact ⟨Shrinks.refl h, hlt, Or.inl⟩
  · obtain ⟨oldest, lru, hlru, heq⟩ := makeRoom_of_full h hcap hfull
    have hroom : c.withRoom = c.remove oldest := by
      unfold withRoom remove removeLruKey
      rw [heq, hlru, List.erase_cons_head]
    have hlength : c.withRoom.lru.length < c.capacity := by
      have hrest : c.withRoom.lru = lru := by
        unfold withRoom
        rw [heq]
      rw [hlru, List.length_cons] at hfull
      rw [hrest]
      omega
    refine ⟨hroom ▸ shrinks_remove h oldest, hlength, ?_⟩
    intro k e hlookup
    rw [hroom, lookup_remove]
    split_ifs with hk
    · right
      rw [hlru, hk]
      exact ⟨hlru ▸ hfull, rfl⟩
    · exact Or.inl hlookup

/-! ### Keeping an answer -/

/-- An entry for `value`, which is now the newest key. -/
def store (c : Cache) (value : Str) (e : CacheEntry) : Cache :=
  { c with entries := c.entries.insert value e }.touch value

theorem lookup_store (c : Cache) (value k : Str) (e : CacheEntry) :
    (c.store value e).entries.lookup k = if k = value then some e else c.entries.lookup k := by
  unfold store touch
  split_ifs with hk
  · rw [hk, AList.lookup_insert]
  · exact AList.lookup_insert_ne hk

theorem mem_store {c : Cache} {value k : Str} {e' : CacheEntry} (e : CacheEntry)
    (h : k = value ∨ c.entries.lookup k = some e') : k ∈ (c.store value e).entries := by
  rw [← AList.lookup_isSome, lookup_store]
  split_ifs with hk
  · rfl
  · exact Option.isSome_of_eq_some (h.resolve_left hk)

theorem Synced.store {c : Cache} (h : Synced c) (value : Str) (e : CacheEntry) : Synced (c.store value e) where
  mem_iff k := by
    unfold Cache.store Cache.touch removeLruKey
    rw [AList.mem_insert, List.mem_append, List.mem_singleton, h.nodup.mem_erase_iff, h.mem_iff]
    by_cases hk : k = value
    · simp [hk]
    · simp [hk]
  nodup := nodup_erase_concat h.nodup value

theorem put_of_present {c : Cache} {value : Str} {labels : Labels} {expiresAt now : ℕ} (hcap : c.capacity ≠ 0)
    (h : value ∈ (c.evictExpired now).entries) :
    c.put value labels expiresAt now = (c.evictExpired now).store value ⟨labels, expiresAt⟩ := by
  unfold put
  rw [if_neg hcap]
  exact if_pos (AList.lookup_isSome.mpr h)

theorem put_of_absent {c : Cache} {value : Str} {labels : Labels} {expiresAt now : ℕ} (hcap : c.capacity ≠ 0)
    (h : value ∉ (c.evictExpired now).entries) (hnew : value ∉ (c.evictExpired now).withRoom.lru) :
    c.put value labels expiresAt now = (c.evictExpired now).withRoom.store value ⟨labels, expiresAt⟩ := by
  unfold put store touch removeLruKey
  rw [if_neg hcap, List.erase_of_not_mem hnew]
  exact if_neg (fun hsome => h (AList.lookup_isSome.mp hsome))

/-! ### The operations -/

inductive Op where
  | get (value : Str) (now : ℕ)
  | put (value : Str) (labels : Labels) (expiresAt now : ℕ)

/-- What the clock reads during an operation. -/
def Op.now : Op → ℕ
  | get _ now => now
  | put _ _ _ now => now

/-- The cache after an operation. -/
def apply (c : Cache) : Op → Cache
  | .get value now => (c.get value now).2
  | .put value labels expiresAt now => c.put value labels expiresAt now

/-- What is noted of an operation: an entry that was put, or a key whose labels were found. -/
inductive Event where
  | put (value : Str) (labels : Labels) (expiresAt : ℕ)
  | hit (value : Str)

/-- The key that was touched. -/
def Event.key : Event → Str
  | put value _ _ => value
  | hit value => value

def events (c : Cache) : Op → List Event
  | .get value now => if (c.get value now).1.isSome then [.hit value] else []
  | .put value labels expiresAt _ => [.put value labels expiresAt]

/-- The labels and the expiry that were put for a key. -/
def Event.putOf (v : Str) : Event → Option (Labels × ℕ)
  | put value labels expiresAt => if value = v then some (labels, expiresAt) else none
  | hit _ => none

/-- What was put last for a key. -/
def lastPut (v : Str) (hist : List Event) : Option (Labels × ℕ) := (hist.filterMap (Event.putOf v)).getLast?

/-- A cache and what has happened to it. -/
structure Trace where
  cache : Cache
  hist : List Event

def Trace.step (s : Trace) (op : Op) : Trace := ⟨s.cache.apply op, s.hist ++ s.cache.events op⟩

/-- A new cache after some operations. -/
def trace (capacity : ℕ) (ops : List Op) : Trace := ops.foldl Trace.step ⟨⟨∅, [], capacity⟩, []⟩

/-! ### What holds of a trace -/

theorem lastPut_concat_put (v value : Str) (labels : Labels) (expiresAt : ℕ) (hist : List Event) :
    lastPut v (hist ++ [.put value labels expiresAt]) =
      if v = value then some (labels, expiresAt) else lastPut v hist := by
  unfold lastPut
  rw [List.filterMap_append]
  split_ifs with hv
  · simp [Event.putOf, hv]
  · simp [Event.putOf, Ne.symm hv]

theorem lastPut_concat_hit (v value : Str) (hist : List Event) :
    lastPut v (hist ++ [.hit value]) = lastPut v hist := by
  unfold lastPut
  rw [List.filterMap_append]
  simp [Event.putOf]

theorem lookup_cases (c : Cache) (value : Str) (now : ℕ) :
    c.entries.lookup value = none ∨
      (∃ e, c.entries.lookup value = some e ∧ e.expiresAt ≤ now) ∨
      ∃ e, c.entries.lookup value = some e ∧ now < e.expiresAt := by
  cases hlookup : c.entries.lookup value with
  | none => exact Or.inl rfl
  | some e =>
      obtain hlt | hle := Nat.lt_or_ge now e.expiresAt
      · exact Or.inr (Or.inr ⟨e, rfl, hlt⟩)
      · exact Or.inr (Or.inl ⟨e, rfl, hle⟩)

section get

variable {c : Cache} {value : Str} {now : ℕ} {e : CacheEntry}

theorem get_of_miss (h : c.entries.lookup value = none) : c.get value now = (none, c) := by
  unfold get
  rw [h]

theorem get_of_expired (h : c.entries.lookup value = some e) (hexpired : e.expiresAt ≤ now) :
    c.get value now = (none, c.remove value) := by
  unfold get
  rw [h]
  exact if_pos hexpired

theorem get_of_live (h : c.entries.lookup value = some e) (hlive : now < e.expiresAt) :
    c.get value now = (some e.labels, c.touch value) := by
  unfold get
  rw [h]
  exact if_neg (Nat.not_le.mpr hlive)

theorem lookup_get {v : Str} (h : c.entries.lookup v = some e) (hlive : now < e.expiresAt) :
    (c.get value now).2.entries.lookup v = some e := by
  obtain hmiss | ⟨e', he', hexpired⟩ | ⟨e', he', hlive'⟩ := c.lookup_cases value now
  · rw [get_of_miss hmiss]
    exact h
  · rw [get_of_expired he' hexpired, lookup_remove, if_neg]
    · exact h
    · rintro rfl
      rw [he'] at h
      cases h
      omega
  · rw [get_of_live he' hlive']
    exact h

end get

/-- The notes fit the cache. -/
structure Kept (capacity : ℕ) (s : Trace) : Prop where
  synced : s.cache.Synced
  capacity_eq : s.cache.capacity = capacity
  length_le : s.cache.lru.length ≤ capacity
  put : ∀ {k e}, s.cache.entries.lookup k = some e → lastPut k s.hist = some (e.labels, e.expiresAt)
  ordered : Ordered s.cache.lru (s.hist.map Event.key)

namespace Kept

variable {capacity : ℕ} {c c' : Cache} {hist : List Event}

theorem shrink (h : Kept capacity ⟨c, hist⟩) (hshrinks : Shrinks c c') : Kept capacity ⟨c', hist⟩ where
  synced := hshrinks.synced
  capacity_eq := hshrinks.capacity_eq.trans h.capacity_eq
  length_le := hshrinks.sublist.length_le.trans h.length_le
  put hlookup := h.put (hshrinks.lookup hlookup)
  ordered := h.ordered.sublist hshrinks.sublist

theorem withRoom_spec (h : Kept capacity ⟨c, hist⟩) (hcap : capacity ≠ 0) :
    Shrinks c c.withRoom ∧ c.withRoom.lru.length < capacity ∧
      ∀ {k e}, c.entries.lookup k = some e →
        c.withRoom.entries.lookup k = some e ∨ c.lru.length = capacity ∧ c.lru.head? = some k := by
  have hcapacity : c.capacity = capacity := h.capacity_eq
  subst hcapacity
  exact Cache.withRoom_spec h.synced (Nat.pos_of_ne_zero hcap) h.length_le

/-- A key is put in its place if it has one, or if there is room for it. -/
theorem store (h : Kept capacity ⟨c, hist⟩) {value : Str} (labels : Labels) (expiresAt : ℕ)
    (hroom : value ∈ c.lru ∨ c.lru.length < capacity) :
    Kept capacity ⟨c.store value ⟨labels, expiresAt⟩, hist ++ [.put value labels expiresAt]⟩ where
  synced := h.synced.store value _
  capacity_eq := h.capacity_eq
  length_le := by
    have hle : c.lru.length ≤ capacity := h.length_le
    change (c.lru.erase value ++ [value]).length ≤ capacity
    rw [List.length_append, List.length_singleton, List.length_erase]
    split_ifs with hmem
    · have hpos := List.length_pos_of_mem hmem
      omega
    · have hlt := hroom.resolve_left hmem
      omega
  put {k e} hlookup := by
    rw [lookup_store] at hlookup
    rw [lastPut_concat_put]
    split_ifs at hlookup ⊢ with hk
    · cases hlookup
      rfl
    · exact h.put hlookup
  ordered := by
    rw [List.map_append]
    exact (h.ordered.sublist List.erase_sublist).concat h.synced.nodup.not_mem_erase

theorem touch (h : Kept capacity ⟨c, hist⟩) {value : Str} (hmem : value ∈ c.entries) :
    Kept capacity ⟨c.touch value, hist ++ [.hit value]⟩ where
  synced := h.synced.touch hmem
  capacity_eq := h.capacity_eq
  length_le := by
    have hle : c.lru.length ≤ capacity := h.length_le
    have hlru : value ∈ c.lru := (h.synced.mem_iff value).mp hmem
    have hpos := List.length_pos_of_mem hlru
    change (c.lru.erase value ++ [value]).length ≤ capacity
    rw [List.length_append, List.length_singleton, List.length_erase_of_mem hlru]
    omega
  put hlookup := by
    rw [lastPut_concat_hit]
    exact h.put hlookup
  ordered := by
    rw [List.map_append]
    exact (h.ordered.sublist List.erase_sublist).concat h.synced.nodup.not_mem_erase

theorem of_capacity_zero (h : Kept capacity ⟨c, hist⟩) (hcap : capacity = 0) (hist' : List Event) :
    Kept capacity ⟨c, hist'⟩ := by
  have hlru : c.lru = [] := List.length_eq_zero_iff.mp (Nat.le_zero.mp (hcap ▸ h.length_le))
  refine ⟨h.synced, h.capacity_eq, h.length_le, ?_, ?_⟩
  · intro k e hlookup
    have hmem : k ∈ c.lru := (h.synced.mem_iff k).mp (AList.lookup_isSome.mp (Option.isSome_of_eq_some hlookup))
    rw [hlru] at hmem
    cases hmem
  · change Ordered c.lru (hist'.map Event.key)
    rw [hlru]
    exact List.Pairwise.nil

/-- What a `get` finds moves to the end of the queue; what has expired goes. -/
theorem get (h : Kept capacity ⟨c, hist⟩) (value : Str) (now : ℕ) :
    Kept capacity (Trace.step ⟨c, hist⟩ (.get value now)) := by
  unfold Trace.step apply events
  obtain hmiss | ⟨e, hlookup, hexpired⟩ | ⟨e, hlookup, hlive⟩ := c.lookup_cases value now
  · simp only [get_of_miss hmiss, Option.isSome_none, Bool.false_eq_true, if_false, List.append_nil]
    exact h
  · simp only [get_of_expired hlookup hexpired, Option.isSome_none, Bool.false_eq_true, if_false, List.append_nil]
    exact h.shrink (shrinks_remove h.synced value)
  · simp only [get_of_live hlookup hlive, Option.isSome_some, if_true]
    exact h.touch (AList.lookup_isSome.mp (Option.isSome_of_eq_some hlookup))

/-- A `put` sweeps, makes room for a new key, and stores the entry. -/
theorem put_step (h : Kept capacity ⟨c, hist⟩) (value : Str) (labels : Labels) (expiresAt now : ℕ) :
    Kept capacity (Trace.step ⟨c, hist⟩ (.put value labels expiresAt now)) := by
  have hcapacity : c.capacity = capacity := h.capacity_eq
  subst hcapacity
  change Kept c.capacity ⟨c.put value labels expiresAt now, hist ++ [.put value labels expiresAt]⟩
  by_cases hcap : c.capacity = 0
  · have hput : c.put value labels expiresAt now = c := if_pos hcap
    rw [hput]
    exact h.of_capacity_zero hcap _
  · have hswept := h.shrink (shrinks_evictExpired h.synced now)
    by_cases hmem : value ∈ (c.evictExpired now).entries
    · rw [put_of_present hcap hmem]
      exact hswept.store labels expiresAt (Or.inl ((hswept.synced.mem_iff value).mp hmem))
    · obtain ⟨hshrinks, hroom, -⟩ := hswept.withRoom_spec hcap
      rw [put_of_absent hcap hmem (fun hlru => hmem ((hswept.synced.mem_iff value).mpr (hshrinks.sublist.subset hlru)))]
      exact (hswept.shrink hshrinks).store labels expiresAt (Or.inr hroom)

theorem step {s : Trace} (h : Kept capacity s) : ∀ op, Kept capacity (s.step op)
  | .get value now => h.get value now
  | .put value labels expiresAt now => h.put_step value labels expiresAt now

/-- An entry that has not expired only gives way to a new key, in a full cache of which it is
the oldest. -/
theorem lookup_put (h : Kept capacity ⟨c, hist⟩) {value v : Str} {labels : Labels} {expiresAt now : ℕ} {e : CacheEntry}
    (hlookup : c.entries.lookup v = some e) (hlive : now < e.expiresAt) :
    v ∈ (c.put value labels expiresAt now).entries ∨
      value ∉ (c.evictExpired now).lru ∧ (c.evictExpired now).lru.length = capacity ∧
        (c.evictExpired now).lru.head? = some v := by
  have hcapacity : c.capacity = capacity := h.capacity_eq
  subst hcapacity
  by_cases hcap : c.capacity = 0
  · have hput : c.put value labels expiresAt now = c := if_pos hcap
    rw [hput]
    exact Or.inl (AList.lookup_isSome.mp (Option.isSome_of_eq_some hlookup))
  have hswept := h.shrink (shrinks_evictExpired h.synced now)
  have hlookup' := lookup_evictExpired hlookup hlive
  by_cases hmem : value ∈ (c.evictExpired now).entries
  · rw [put_of_present hcap hmem]
    exact Or.inl (mem_store _ (Or.inr hlookup'))
  · have hnew : value ∉ (c.evictExpired now).lru := fun hlru => hmem ((hswept.synced.mem_iff value).mpr hlru)
    obtain ⟨hshrinks, -, hkeep⟩ := hswept.withRoom_spec hcap
    rw [put_of_absent hcap hmem (fun hlru => hnew (hshrinks.sublist.subset hlru))]
    obtain hkept | hfull := hkeep hlookup'
    · exact Or.inl (mem_store _ (Or.inr hkept))
    · exact Or.inr ⟨hnew, hfull⟩

/-- When an entry that has not expired is lost, as many other keys as the capacity says were
touched since it was. -/
theorem touched_of_lost {s : Trace} (h : Kept capacity s) {op : Op} {v : Str} {e : CacheEntry}
    (hlookup : s.cache.entries.lookup v = some e) (hlive : op.now < e.expiresAt)
    (hlost : v ∉ (s.cache.apply op).entries) :
    capacity ≤ (since v ((s.step op).hist.map Event.key)).toFinset.card := by
  cases op with
  | get value now => exact absurd (AList.lookup_isSome.mp (Option.isSome_of_eq_some (lookup_get hlookup hlive))) hlost
  | put value labels expiresAt now =>
      change now < e.expiresAt at hlive
      obtain ⟨hnew, hfull, hhead⟩ := (h.lookup_put hlookup hlive).resolve_left hlost
      have hswept := h.shrink (shrinks_evictExpired h.synced now)
      have hordered : Ordered (s.cache.evictExpired now).lru (s.hist.map Event.key) := hswept.ordered
      have hnodup : (s.cache.evictExpired now).lru.Nodup := hswept.synced.nodup
      obtain ⟨lru, hlru⟩ := List.head?_eq_some_iff.mp hhead
      rw [hlru] at hnew hfull hordered hnodup
      rw [← hfull]
      unfold Trace.step events
      rw [List.map_append]
      exact hordered.length_le_card hnodup hnew

end Kept

/-- **The notes fit the cache after any operations.** -/
theorem trace_kept (capacity : ℕ) (ops : List Op) : Kept capacity (trace capacity ops) := by
  induction ops using List.reverseRecOn with
  | nil =>
      have hsynced : Synced ⟨∅, [], capacity⟩ := by
        refine ⟨?_, List.nodup_nil⟩
        intro k
        exact iff_of_false (AList.notMem_empty k) List.not_mem_nil
      refine ⟨hsynced, rfl, Nat.zero_le capacity, ?_, List.Pairwise.nil⟩
      intro k e hlookup
      cases hlookup
  | append_singleton ops op ih =>
      unfold trace at ih ⊢
      rw [List.foldl_append]
      exact ih.step op

/-- **The cache of an HTTP enricher over any operations**: the map and the queue hold the same
keys, at most as many as the capacity; the loop of `put` ends because there is room again;
`get` returns what was put last, if it has not expired; and an entry that has not expired is lost
only after as many other keys were touched as the capacity says. -/
theorem trace_spec (capacity : ℕ) (ops : List Op) :
    let s := trace capacity ops
    (∀ k, k ∈ s.cache.entries ↔ k ∈ s.cache.lru) ∧ s.cache.lru.Nodup ∧ s.cache.entries.keys.length ≤ capacity ∧
      (∀ now, capacity ≠ 0 →
        (makeRoom s.cache.capacity (s.cache.evictExpired now).entries (s.cache.evictExpired now).lru).1.keys.length
          < s.cache.capacity) ∧
      (∀ v now labels, (s.cache.get v now).1 = some labels →
        ∃ expiresAt, lastPut v s.hist = some (labels, expiresAt) ∧ now < expiresAt) ∧
      ∀ op v e, s.cache.entries.lookup v = some e → op.now < e.expiresAt → v ∉ (s.cache.apply op).entries →
        capacity ≤ (since v ((s.step op).hist.map Event.key)).toFinset.card := by
  intro s
  have h : Kept capacity s := trace_kept capacity ops
  refine ⟨h.synced.mem_iff, h.synced.nodup, h.synced.length_eq.trans_le h.length_le, ?_, ?_, ?_⟩
  · intro now hcap
    have hswept := h.shrink (shrinks_evictExpired h.synced now)
    obtain ⟨hshrinks, hroom, -⟩ := hswept.withRoom_spec hcap
    have hcapacity : s.cache.capacity = capacity := h.capacity_eq
    calc (makeRoom s.cache.capacity (s.cache.evictExpired now).entries (s.cache.evictExpired now).lru).1.keys.length
        = (s.cache.evictExpired now).withRoom.entries.keys.length := by
          unfold withRoom
          rw [(shrinks_evictExpired h.synced now).capacity_eq]
      _ = (s.cache.evictExpired now).withRoom.lru.length := hshrinks.synced.length_eq
      _ < capacity := hroom
      _ = s.cache.capacity := hcapacity.symm
  · intro v now labels hget
    obtain hmiss | ⟨e, he, hexpired⟩ | ⟨e, he, hlive⟩ := s.cache.lookup_cases v now
    · rw [get_of_miss hmiss] at hget
      cases hget
    · rw [get_of_expired he hexpired] at hget
      cases hget
    · rw [get_of_live he hlive] at hget
      cases hget
      exact ⟨e.expiresAt, h.put he, hlive⟩
  · intro op v e hlookup hlive hlost
    exact h.touched_of_lost hlookup hlive hlost

end PurpleWolf.Relay.Cache
