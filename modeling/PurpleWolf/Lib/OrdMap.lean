import Mathlib.Data.List.AList
import Mathlib.Order.Lattice
import Mathlib.Tactic

/-! # Maps in the order of their keys

A map kept as the list of its entries, the keys increasing, so that two maps with the same
entries are equal (`ext_entries`).

* **Building.**  `ofList` inserts one entry after the other, so that the last one for a key
  counts; the entries of a map give the map back (`ofList_entries`).
* **Parts.**  `filter` keeps the entries with some keys. -/

namespace PurpleWolf

variable {κ β : Type} [LinearOrder κ]

/-- The keys increase. -/
def Increasing (entries : List (κ × β)) : Prop := entries.Pairwise (fun a b => a.1 < b.1)

/-- Sets the value of a key. -/
def insertEntry (k : κ) (v : β) : List (κ × β) → List (κ × β)
  | [] => [(k, v)]
  | (k', v') :: entries =>
      if k < k' then (k, v) :: (k', v') :: entries
      else if k = k' then (k, v) :: entries
      else (k', v') :: insertEntry k v entries

theorem mem_insertEntry {k : κ} {v : β} {e : κ × β} : ∀ {entries : List (κ × β)}, e ∈ insertEntry k v entries →
    e = (k, v) ∨ e ∈ entries
  | [], h => Or.inl (List.mem_singleton.mp h)
  | (k', v') :: entries, h => by
      unfold insertEntry at h
      split_ifs at h
      · exact List.mem_cons.mp h
      · rcases List.mem_cons.mp h with h | h
        · exact Or.inl h
        · exact Or.inr (List.mem_cons_of_mem _ h)
      · rcases List.mem_cons.mp h with h | h
        · exact Or.inr (h ▸ List.mem_cons_self)
        · exact (mem_insertEntry h).imp_right (List.mem_cons_of_mem _)

theorem increasing_insertEntry (k : κ) (v : β) : ∀ {entries : List (κ × β)}, Increasing entries →
    Increasing (insertEntry k v entries)
  | [], _ => List.pairwise_singleton _ _
  | (k', v') :: entries, h => by
      obtain ⟨hhead, htail⟩ := List.pairwise_cons.mp h
      unfold insertEntry
      split_ifs with hlt heq
      · refine List.pairwise_cons.mpr ⟨fun e he => ?_, h⟩
        rcases List.mem_cons.mp he with rfl | he
        · exact hlt
        · exact hlt.trans (hhead e he)
      · exact List.pairwise_cons.mpr ⟨fun e he => heq ▸ hhead e he, htail⟩
      · refine List.pairwise_cons.mpr ⟨fun e he => ?_, increasing_insertEntry k v htail⟩
        rcases mem_insertEntry he with rfl | he
        · exact lt_of_le_of_ne (not_lt.mp hlt) (Ne.symm heq)
        · exact hhead e he

theorem insertEntry_of_forall_lt (k : κ) (v : β) : ∀ {entries : List (κ × β)}, (∀ e ∈ entries, e.1 < k) →
    insertEntry k v entries = entries ++ [(k, v)]
  | [], _ => rfl
  | (k', v') :: entries, h => by
      have hlt : k' < k := h (k', v') List.mem_cons_self
      unfold insertEntry
      rw [if_neg hlt.not_gt, if_neg hlt.ne', insertEntry_of_forall_lt k v fun e he => h e (List.mem_cons_of_mem _ he)]
      rfl

/-- A map: the list of its entries, the keys increasing. -/
structure OrdMap (κ β : Type) [LinearOrder κ] where
  entries : List (κ × β)
  increasing : Increasing entries

namespace OrdMap

theorem ext_entries {m m' : OrdMap κ β} (h : m.entries = m'.entries) : m = m' := by
  obtain ⟨entries, _⟩ := m
  obtain ⟨entries', _⟩ := m'
  obtain rfl : entries = entries' := h
  rfl

def empty : OrdMap κ β := ⟨[], List.Pairwise.nil⟩

def keys (m : OrdMap κ β) : List κ := m.entries.map Prod.fst

def insert (k : κ) (v : β) (m : OrdMap κ β) : OrdMap κ β :=
  ⟨insertEntry k v m.entries, increasing_insertEntry k v m.increasing⟩

/-- The entries with some keys. -/
def filter (p : κ → Bool) (m : OrdMap κ β) : OrdMap κ β :=
  ⟨m.entries.filter (fun e => p e.1), m.increasing.filter _⟩

/-- One entry after the other is inserted. -/
def ofList (entries : List (κ × β)) : OrdMap κ β := entries.foldl (fun m e => m.insert e.1 e.2) empty

theorem ofList_entries (m : OrdMap κ β) : ofList m.entries = m := by
  have hfold : ∀ (es : List (κ × β)) (m : OrdMap κ β), Increasing (m.entries ++ es) →
      (es.foldl (fun m e => m.insert e.1 e.2) m).entries = m.entries ++ es := by
    intro es
    induction es with
    | nil => exact fun m _ => (List.append_nil _).symm
    | cons e es ih =>
        intro m h
        have hlast : ∀ e' ∈ m.entries, e'.1 < e.1 := fun e' he' =>
          (List.pairwise_append.mp h).2.2 e' he' e List.mem_cons_self
        have hinsert : (m.insert e.1 e.2).entries = m.entries ++ [e] := insertEntry_of_forall_lt e.1 e.2 hlast
        rw [List.foldl_cons, ih, hinsert, List.append_assoc]
        · rfl
        · rw [hinsert, List.append_assoc]
          exact h
  exact ext_entries (hfold m.entries empty m.increasing)

theorem nodup_keys (m : OrdMap κ β) : m.keys.Nodup := by
  refine List.pairwise_map.mpr (m.increasing.imp fun h => ?_)
  exact h.ne

theorem filter_eq_self {m : OrdMap κ β} {p : κ → Bool} (h : ∀ k ∈ m.keys, p k = true) : m.filter p = m :=
  ext_entries (List.filter_eq_self.mpr fun e he => h e.1 (List.mem_map_of_mem he))

/-- The same map as an association list without an order. -/
def toAList (m : OrdMap κ β) : AList (fun _ : κ => β) where
  entries := m.entries.map fun e => ⟨e.1, e.2⟩
  nodupKeys := by
    unfold List.NodupKeys List.keys
    rw [List.map_map]
    exact m.nodup_keys

end OrdMap

end PurpleWolf
