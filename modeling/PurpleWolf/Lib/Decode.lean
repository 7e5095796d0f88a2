import PurpleWolf.Lib.Json
import PurpleWolf.Lib.OrdMap
import Mathlib.Data.Char
import Mathlib.Data.List.Lex

/-! # Decoders of JSON documents

What a derived deserializer does with a JSON document: a `Decoder` gives the value that a
document stands for, if it stands for one.

* **Records.**  A record is an object with known names, none of them twice, or an array of
  values in the order of the names (`struct`); a field is required, or has a default.
* **Spelling.**  A `Spelling` says which strings may stand for a boolean and for a number, and
  `Respelled` relates a document to those in which some of its scalars are so written.  A
  decoder that `Keeps` a spelling reads them alike; each combinator keeps what its parts keep. -/

namespace PurpleWolf.Json

/-- A partial function from documents. -/
abbrev Decoder (α : Type) := Json → Option α

namespace Decoder

variable {α β : Type}

/-! ### Scalars -/

def string : Decoder (List Char) := asStr

def boolean : Decoder Bool
  | bool b => some b
  | _ => none

/-- The numbers below `bound`. -/
def unsigned (bound : ℕ) : Decoder ℕ
  | num n => if 0 ≤ n ∧ n.toNat < bound then some n.toNat else none
  | _ => none

/-- A variant without data: its name, or an object with its name and `null`. -/
def variant (names : List (List Char × α)) : Decoder α
  | str s => names.lookup s
  | obj [(k, null)] => names.lookup k
  | _ => none

/-! ### Composite values -/

/-- `null` for a value that is absent. -/
def nullable (d : Decoder α) : Decoder (Option α)
  | null => some none
  | v => (d v).map some

def array (d : Decoder α) : Decoder (List α)
  | arr items => items.mapM d
  | _ => none

/-- The members of an object, by their names; of several with one name the last. -/
def object (d : Decoder α) : Decoder (OrdMap (List Char) α)
  | obj members => (members.mapM fun m => (d m.2).map fun a => (m.1, a)).map OrdMap.ofList
  | _ => none

/-- The fields of a record, each with its name. -/
abbrev Fields := List (List Char × Json)

def record (names : List (List Char)) : Decoder Fields
  | obj members =>
      if (members.map Prod.fst).all names.contains ∧ (members.map Prod.fst).Nodup then some members else none
  | arr items => if items.length ≤ names.length then some (names.zip items) else none
  | _ => none

/-- What is read from the fields of a record. -/
def struct (names : List (List Char)) (f : Fields → Option α) : Decoder α := fun v => (record names v).bind f

def required (d : Decoder α) (k : List Char) (fields : Fields) : Option α := (fields.lookup k).bind d

def optional (d : Decoder α) (k : List Char) (default : α) (fields : Fields) : Option α :=
  match fields.lookup k with
  | some v => d v
  | none => some default

end Decoder

/-! ### Spelling -/

/-- The strings that stand for a scalar. -/
structure Spelling where
  ofBool : Bool → List Char → Prop
  ofNum : ℤ → List Char → Prop

/-- The same document, with strings for some of its booleans and numbers. -/
inductive Respelled (S : Spelling) : Json → Json → Prop where
  | same (v : Json) : Respelled S v v
  | bool {b : Bool} {s : List Char} (h : S.ofBool b s) : Respelled S (bool b) (str s)
  | num {n : ℤ} {s : List Char} (h : S.ofNum n s) : Respelled S (num n) (str s)
  | arr {items items' : List Json} (h : List.Forall₂ (Respelled S) items items') : Respelled S (arr items) (arr items')
  | obj {members members' : List (List Char × Json)}
      (hkeys : members.map Prod.fst = members'.map Prod.fst)
      (hvalues : List.Forall₂ (Respelled S) (members.map Prod.snd) (members'.map Prod.snd)) :
      Respelled S (obj members) (obj members')

namespace Decoder

variable {α β : Type} {S : Spelling}

/-- What is decoded from a document is decoded from every other spelling of it. -/
def Keeps (S : Spelling) (d : Decoder α) : Prop :=
  ∀ ⦃v w : Json⦄ ⦃a : α⦄, Respelled S v w → d v = some a → d w = some a

/-- Fields that are respelled one by one. -/
abbrev RespelledFields (S : Spelling) : Fields → Fields → Prop :=
  List.Forall₂ fun m m' => m.1 = m'.1 ∧ Respelled S m.2 m'.2

theorem respelledFields : ∀ {fields fields' : Fields}, fields.map Prod.fst = fields'.map Prod.fst →
    List.Forall₂ (Respelled S) (fields.map Prod.snd) (fields'.map Prod.snd) → RespelledFields S fields fields'
  | [], [], _, _ => .nil
  | [], _ :: _, hkeys, _ => nomatch hkeys
  | _ :: _, [], hkeys, _ => nomatch hkeys
  | _ :: _, _ :: _, hkeys, .cons hvw hvalues =>
      .cons ⟨(List.cons.inj hkeys).1, hvw⟩ (respelledFields (List.cons.inj hkeys).2 hvalues)

/-- The same for what is read from the fields of a record. -/
def KeepsFields (S : Spelling) (f : Fields → Option α) : Prop :=
  ∀ ⦃fields fields' : Fields⦄ ⦃a : α⦄, RespelledFields S fields fields' → f fields = some a → f fields' = some a

/-- Where neither booleans nor numbers are read, strings in their places make no difference. -/
theorem keeps_of_forall {d : Decoder α} (hbool : ∀ b, d (bool b) = none) (hnum : ∀ n, d (num n) = none)
    (harr : ∀ {items items' : List Json} {a : α}, List.Forall₂ (Respelled S) items items' →
      d (arr items) = some a → d (arr items') = some a)
    (hobj : ∀ {members members' : Fields} {a : α}, RespelledFields S members members' →
      d (obj members) = some a → d (obj members') = some a) : Keeps S d := by
  intro v w a hvw hv
  cases hvw with
  | same => exact hv
  | bool h =>
      rw [hbool] at hv
      cases hv
  | num h =>
      rw [hnum] at hv
      cases hv
  | arr h => exact harr h hv
  | obj hkeys hvalues => exact hobj (respelledFields hkeys hvalues) hv

theorem keeps_string : Keeps S string :=
  keeps_of_forall (fun _ => rfl) (fun _ => rfl) (fun _ h => nomatch h) (fun _ h => nomatch h)

theorem keeps_variant (names : List (List Char × α)) : Keeps S (variant names) := by
  refine keeps_of_forall (fun _ => rfl) (fun _ => rfl) (fun _ h => by simp [variant] at h) fun hmembers h => ?_
  cases hmembers with
  | nil => exact h
  | @cons m m' members members' hm hmembers =>
      obtain ⟨k, v⟩ := m
      obtain ⟨k', v'⟩ := m'
      obtain ⟨rfl, hv⟩ : k = k' ∧ Respelled S v v' := hm
      cases v with
      | null =>
          cases hv
          cases hmembers with
          | nil => exact h
          | cons => simp [variant] at h
      | _ => simp [variant] at h

theorem keeps_nullable {d : Decoder α} (hd : Keeps S d) : Keeps S (nullable d) := by
  intro v w a hvw hv
  have hsome : ∀ {u : Json}, u ≠ null → nullable d u = (d u).map some := by
    intro u hu
    cases u with
    | null => exact absurd rfl hu
    | _ => rfl
  by_cases hnull : v = null
  · subst hnull
    cases hvw
    exact hv
  · have hw : w ≠ null := by
      rintro rfl
      cases hvw
      exact hnull rfl
    rw [hsome hnull] at hv
    obtain ⟨b, hb, rfl⟩ := Option.map_eq_some_iff.mp hv
    rw [hsome hw, hd hvw hb]
    rfl

theorem keeps_mapM {d : β → Option α} {r : β → β → Prop} (hd : ∀ x y a, r x y → d x = some a → d y = some a) :
    ∀ {xs ys : List β} {as : List α}, List.Forall₂ r xs ys → xs.mapM d = some as → ys.mapM d = some as
  | [], [], _, .nil, h => h
  | x :: xs, y :: ys, as, .cons hxy hxys, h => by
      rw [List.mapM_cons] at h ⊢
      obtain ⟨a, ha, h⟩ := Option.bind_eq_some_iff.mp h
      obtain ⟨as', has', h⟩ := Option.bind_eq_some_iff.mp h
      rw [hd x y a hxy ha]
      exact Option.bind_eq_some_iff.mpr ⟨a, rfl, Option.bind_eq_some_iff.mpr ⟨as', keeps_mapM hd hxys has', h⟩⟩

theorem keeps_array {d : Decoder α} (hd : Keeps S d) : Keeps S (array d) :=
  keeps_of_forall (fun _ => rfl) (fun _ => rfl) (fun hitems h => keeps_mapM (fun _ _ _ hvw hv => hd hvw hv) hitems h)
    (fun _ h => nomatch h)

theorem keeps_object {d : Decoder α} (hd : Keeps S d) : Keeps S (object d) := by
  refine keeps_of_forall (fun _ => rfl) (fun _ => rfl) (fun _ h => nomatch h) fun hmembers h => ?_
  obtain ⟨entries, hentries, rfl⟩ := Option.map_eq_some_iff.mp h
  refine Option.map_eq_some_iff.mpr ⟨entries, keeps_mapM (fun m m' e hm he => ?_) hmembers hentries, rfl⟩
  obtain ⟨a, ha, rfl⟩ := Option.map_eq_some_iff.mp he
  rw [hd hm.2 ha, hm.1]
  rfl

/-! ### Records -/

theorem respelledFields_zip {items items' : List Json} (h : List.Forall₂ (Respelled S) items items') :
    ∀ names : List (List Char), RespelledFields S (names.zip items) (names.zip items')
  | [] => .nil
  | k :: names => by
      cases h with
      | nil => exact .nil
      | cons hvw h => exact .cons ⟨rfl, hvw⟩ (respelledFields_zip h names)

theorem keeps_struct {names : List (List Char)} {f : Fields → Option α} (hf : KeepsFields S f) :
    Keeps S (struct names f) := by
  refine keeps_of_forall (fun _ => rfl) (fun _ => rfl) (fun {items items' a} hitems h => ?_)
    (fun {members members' a} hmembers h => ?_)
  · obtain ⟨fields, hfields, h⟩ := Option.bind_eq_some_iff.mp h
    simp only [struct, record, ← hitems.length_eq] at hfields ⊢
    split_ifs at hfields ⊢
    cases hfields
    exact hf (respelledFields_zip hitems names) h
  · have hkeys : members'.map Prod.fst = members.map Prod.fst := by
      clear h
      induction hmembers with
      | nil => rfl
      | cons hm _ ih => rw [List.map_cons, List.map_cons, ih, hm.1]
    obtain ⟨fields, hfields, h⟩ := Option.bind_eq_some_iff.mp h
    simp only [struct, record, hkeys] at hfields ⊢
    split_ifs at hfields ⊢
    cases hfields
    exact hf hmembers h

theorem lookup_respelled {k : List Char} : ∀ {fields fields' : Fields}, RespelledFields S fields fields' →
    Option.Rel (Respelled S) (fields.lookup k) (fields'.lookup k)
  | [], [], .nil => .none
  | (k', v) :: fields, (k'', w) :: fields', .cons hm hfields => by
      obtain ⟨rfl, hvw⟩ : k' = k'' ∧ Respelled S v w := hm
      rw [List.lookup_cons, List.lookup_cons]
      cases k == k' with
      | true => exact .some hvw
      | false => exact lookup_respelled hfields

theorem keepsFields_required {d : Decoder α} (hd : Keeps S d) (k : List Char) : KeepsFields S (required d k) := by
  intro fields fields' a hfields h
  have hlookup := lookup_respelled (k := k) hfields
  unfold required at h ⊢
  generalize fields.lookup k = v at hlookup h
  generalize fields'.lookup k = w at hlookup ⊢
  cases hlookup with
  | some hvw => exact hd hvw h
  | none => exact h

theorem keepsFields_optional {d : Decoder α} (hd : Keeps S d) (k : List Char) (default : α) :
    KeepsFields S (optional d k default) := by
  intro fields fields' a hfields h
  have hlookup := lookup_respelled (k := k) hfields
  unfold optional at h ⊢
  generalize fields.lookup k = v at hlookup h
  generalize fields'.lookup k = w at hlookup ⊢
  cases hlookup with
  | some hvw => exact hd hvw h
  | none => exact h

theorem keepsFields_bind {f : Fields → Option α} {g : α → Fields → Option β} (hf : KeepsFields S f)
    (hg : ∀ a, KeepsFields S (g a)) : KeepsFields S (fun fields => (f fields).bind fun a => g a fields) := by
  intro fields fields' b hfields h
  obtain ⟨a, ha, h⟩ := Option.bind_eq_some_iff.mp h
  exact Option.bind_eq_some_iff.mpr ⟨a, hf hfields ha, hg a hfields h⟩

theorem keepsFields_some (a : α) : KeepsFields S (fun _ => some a) := fun _ _ _ _ h => h

/-! ### What is decoded -/

/-- What holds of the default and of all values that are decoded holds of the field. -/
theorem of_optional (P : α → Prop) {d : Decoder α} {k : List Char} {default : α} {fields : Fields} {a : α}
    (ha : optional d k default fields = some a) (hd : ∀ v a, d v = some a → P a) (hdefault : P default) : P a := by
  unfold optional at ha
  split at ha
  · exact hd _ _ ha
  · cases ha
    exact hdefault

/-! ### Encoders -/

/-- What `encode` writes is read back. -/
def Reads (d : Decoder α) (encode : α → Json) (a : α) : Prop := d (encode a) = some a

theorem struct_obj {names : List (List Char)} {members : Fields} {f : Fields → Option α}
    (hnames : names.Nodup) (hkeys : members.map Prod.fst = names) : struct names f (obj members) = f members := by
  have hrecord : record names (obj members) = some members := by
    refine if_pos ⟨?_, hkeys ▸ hnames⟩
    rw [hkeys]
    exact List.all_eq_true.mpr fun k hk => List.contains_iff_mem.mpr hk
  unfold struct
  rw [hrecord, Option.bind_some]

theorem reads_required {d : Decoder α} {k : List Char} {fields : Fields} {v : Json} {a : α}
    (hv : fields.lookup k = some v) (ha : d v = some a) : required d k fields = some a := by
  unfold required
  rw [hv, Option.bind_some, ha]

theorem reads_optional {d : Decoder α} {k : List Char} {default : α} {fields : Fields} {v : Json} {a : α}
    (hv : fields.lookup k = some v) (ha : d v = some a) : optional d k default fields = some a := by
  unfold optional
  rw [hv]
  exact ha

theorem reads_bind {x : Option α} {f : α → Option β} {a : α} {b : β} (hx : x = some a) (hf : f a = some b) :
    (x.bind f) = some b := Option.bind_eq_some_iff.mpr ⟨a, hx, hf⟩

theorem reads_mapM {d : β → Option α} {encode : α → β} : ∀ {as : List α}, (∀ a ∈ as, d (encode a) = some a) →
    (as.map encode).mapM d = some as
  | [], _ => rfl
  | a :: as, h => by
      rw [List.map_cons, List.mapM_cons, h a List.mem_cons_self, reads_mapM fun a ha => h a (List.mem_cons_of_mem _ ha)]
      rfl

theorem reads_array {d : Decoder α} {encode : α → Json} {as : List α} (h : ∀ a ∈ as, Reads d encode a) :
    array d (arr (as.map encode)) = some as := reads_mapM h

theorem reads_object {d : Decoder α} {encode : α → Json} {m : OrdMap (List Char) α}
    (h : ∀ e ∈ m.entries, Reads d encode e.2) :
    object d (obj (m.entries.map fun e => (e.1, encode e.2))) = some m := by
  have hentries : (m.entries.map fun e => (e.1, encode e.2)).mapM (fun m => (d m.2).map fun a => (m.1, a)) =
      some m.entries := by
    refine reads_mapM fun e he => ?_
    have hvalue : d (encode e.2) = some e.2 := h e he
    simp only [hvalue, Option.map_some]
  change Option.map OrdMap.ofList _ = _
  rw [hentries, Option.map_some, OrdMap.ofList_entries]

end Decoder

end PurpleWolf.Json
