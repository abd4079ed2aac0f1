import Inlay.Proofs.Catalog.Operations
import Inlay.Proofs.Catalog.Replacing
import Mathlib.Data.List.InsertIdx

/-!
# Maps from names as rows with positions

A map from names can be kept as a row of its values and a dictionary of positions, which says for
every key where its value stands in the row.  A lookup then reads the dictionary and one place of the
row, and compares no names.  Taking a value out moves all values behind it, so their positions
are changed in place.

`Table` is this form of a map.  Its operations read the row where the dictionary points to, and
give up where that is outside of the row.  They never do, and a table is at all times the map
that the same operations make: `Table.run_tabulated`.  `Stores` is the invariant, and each operation
keeps it.
-/

namespace Inlay
namespace NameMap

variable {α : Type}

/-! ## Entries by their place -/

section Places

variable {es : List (String × α)} {i : Nat} {k : String} {v : α}

/-- With no key listed twice, the key of an entry does not come before it. -/
theorem exists_split (hnodup : (es.map (·.1)).Nodup) (h : es[i]? = some (k, v)) :
    ∃ front back, es = front ++ (k, v) :: back ∧ front.length = i ∧ k ∉ front.map (·.1) := by
  obtain ⟨hi, hget⟩ := List.getElem?_eq_some_iff.mp h
  have hsplit : es = es.take i ++ (k, v) :: es.drop (i + 1) := by
    rw [← hget, ← List.drop_eq_getElem_cons hi, List.take_append_drop]
  refine ⟨es.take i, es.drop (i + 1), hsplit, List.length_take_of_le (Nat.le_of_lt hi), fun hmem => ?_⟩
  rw [hsplit, List.map_append, List.map_cons] at hnodup
  exact (List.nodup_append.mp hnodup).2.2 k hmem k List.mem_cons_self rfl

theorem lookup_of_getElem? (hnodup : (es.map (·.1)).Nodup) (h : es[i]? = some (k, v)) :
    es.lookup k = some v := by
  obtain ⟨front, back, rfl, -, hnew⟩ := exists_split hnodup h
  refine List.lookup_eq_some_iff.mpr ⟨front, back, rfl, fun e he => bne_iff_ne.mpr fun heq => ?_⟩
  exact hnew (heq ▸ List.mem_map_of_mem he)

theorem values_modify (hnodup : (es.map (·.1)).Nodup) (h : es[i]? = some (k, v)) (f : α → α) :
    (modify k f es).map (·.2) = (es.map (·.2)).set i (f v) := by
  obtain ⟨front, back, rfl, rfl, hnew⟩ := exists_split hnodup h
  have hhere : modify k f ((k, v) :: back) = (k, f v) :: back := if_pos (beq_self_eq_true k)
  rw [modify_append_of_notMem hnew, hhere, List.map_append, List.map_append, List.map_cons,
    List.map_cons, List.set_append_right _ _ (by simp), List.length_map, Nat.sub_self,
    List.set_cons_zero]

theorem eraseP_eq_eraseIdx (hnodup : (es.map (·.1)).Nodup) (h : es[i]? = some (k, v)) :
    es.eraseP (fun e => e.1 == k) = es.eraseIdx i := by
  obtain ⟨front, back, rfl, rfl, hnew⟩ := exists_split hnodup h
  have hfront : ∀ e ∈ front, ¬(e.1 == k) = true := fun e he heq =>
    hnew (beq_iff_eq.mp heq ▸ List.mem_map_of_mem he)
  have hhere : ((k, v) :: back).eraseP (fun e => e.1 == k) = back :=
    List.eraseP_cons_of_pos (beq_self_eq_true k)
  rw [List.eraseP_append_right _ hfront, hhere, List.eraseIdx_append_of_length_le (Nat.le_refl _),
    Nat.sub_self, List.eraseIdx_cons_zero]

end Places

/-! ## Keys by their place -/

section Keys

variable {ks : List String} {a k : String} {i j : Nat}

theorem getElem?_concat_iff :
    (ks ++ [a])[i]? = some k ↔ ks[i]? = some k ∨ i = ks.length ∧ a = k := by
  rcases Nat.lt_trichotomy i ks.length with h | rfl | h
  · simp [List.getElem?_append_left h, Nat.ne_of_lt h]
  · simp
  · have hout : ks[i]? = none := List.getElem?_eq_none (Nat.le_of_lt h)
    have hout' : (ks ++ [a])[i]? = none := List.getElem?_eq_none (by simp; omega)
    simp [hout, hout', Nat.ne_of_gt h]

/-- The keys behind one that is taken out move up by one place. -/
theorem getElem?_eraseIdx_iff (hnodup : ks.Nodup) (ha : ks[i]? = some a) :
    (ks.eraseIdx i)[j]? = some k ↔
      a ≠ k ∧ ∃ p, ks[p]? = some k ∧ (if i < p then p - 1 else p) = j := by
  have hi : i < ks.length := (List.getElem?_eq_some_iff.mp ha).1
  have hother : ∀ p, ks[p]? = some k → (a ≠ k ↔ i ≠ p) := by
    intro p hp
    rw [Ne, Ne, ← List.getElem?_inj hi hnodup, ha, hp, Option.some_inj]
  rw [List.getElem?_eraseIdx]
  constructor
  · intro h
    split at h
    · next hlt => exact ⟨(hother j h).mpr (Nat.ne_of_gt hlt), j, h, if_neg (by omega)⟩
    · next hge => exact ⟨(hother (j + 1) h).mpr (by omega), j + 1, h, if_pos (by omega)⟩
  · rintro ⟨hne, p, hp, hj⟩
    have hip := (hother p hp).mp hne
    split at hj
    · next hlt => rwa [if_neg (by omega), ← hj, Nat.sub_add_cancel (by omega)]
    · next hge => rwa [if_pos (by omega), ← hj]

end Keys

theorem remove_of_notMem {m : NameMap α} {name : String} (h : lowerName name ∉ m.keys) :
    (m.remove name).2 = m := by
  have hnone : ∀ e ∈ m.entries, ¬(e.1 == lowerName name) = true := fun e he heq =>
    h (beq_iff_eq.mp heq ▸ List.mem_map_of_mem he)
  show ({ entries := m.entries.eraseP fun e => e.1 == lowerName name } : NameMap α) = m
  rw [List.eraseP_of_forall_not hnone]

end NameMap

open NameMap

/-! ## Tables -/

/-- Values in a row, and where the value of each key stands in it. -/
structure Table (α : Type) where
  items : List α := []
  positions : Std.HashMap String Nat := ∅

namespace Table

variable {α : Type}

section Operations

variable [Named α]

/-! The answers are `none` where a position lies outside of the row. -/

def push (t : Table α) (v : α) : Table α :=
  { items := t.items ++ [v], positions := t.positions.insert (key v) t.items.length }

def insertMerge? (t : Table α) (v : α) : Option (Table α) :=
  match t.positions[key v]? with
  | some i => (t.items[i]?).map fun old => { t with items := t.items.set i (Named.merge old v) }
  | none => some (t.push v)

def insertIfAbsent (t : Table α) (v : α) : Table α :=
  if t.positions.contains (key v) then t else t.push v

/-- Insert a value in the place of the value of its name, which is the first part of the answer. -/
def insertReplace? (t : Table α) (v : α) : Option (Option α × Table α) :=
  match t.positions[key v]? with
  | some i => (t.items[i]?).map fun old => (some old, { t with items := t.items.set i v })
  | none => some (none, t.push v)

/-- Take out the value at a place. -/
def removeAt (t : Table α) (k : String) (i : Nat) : Table α :=
  { items := t.items.eraseIdx i
    positions := (t.positions.erase k).map fun _ p => if i < p then p - 1 else p }

/-- Remove the value with a name, which is the first part of the answer. -/
def remove? (t : Table α) (name : String) : Option (Option α × Table α) :=
  match t.positions[lowerName name]? with
  | some i => (t.items[i]?).map fun old => (some old, t.removeAt (lowerName name) i)
  | none => some (none, t)

def get? (t : Table α) (name : String) : Option (Option α) :=
  match t.positions[lowerName name]? with
  | some i => (t.items[i]?).map some
  | none => some none

def contains (t : Table α) (name : String) : Bool := t.positions.contains (lowerName name)

def names (t : Table α) : List String := t.items.map Named.name

def operate? (t : Table α) : Operation α → Option (Table α)
  | .merge v => t.insertMerge? v
  | .fill v => some (t.insertIfAbsent v)
  | .replace v => (t.insertReplace? v).map (·.2)
  | .remove name => (t.remove? name).map (·.2)

/-- The table that operations make, one after the other. -/
def run? (ops : List (Operation α)) : Option (Table α) := ops.foldlM operate? {}

end Operations

/-! ## Tables and maps -/

/-- The table is a map: the same values in the same order, and each key at the place where the map
has it. -/
structure Stores (t : Table α) (m : NameMap α) : Prop where
  items : t.items = m.values
  positions : ∀ (k : String) (i : Nat), t.positions[k]? = some i ↔ m.keys[i]? = some k

namespace Stores

variable {t : Table α} {m : NameMap α} {k : String} {i : Nat} {v : α}

theorem empty : ({} : Table α).Stores NameMap.empty :=
  ⟨rfl, fun k i => by simp [NameMap.empty, keys]⟩

/-- Where a position points to, the row has the value of the key. -/
theorem exists_value (h : t.Stores m) (hk : t.positions[k]? = some i) :
    ∃ v, m.entries[i]? = some (k, v) ∧ t.items[i]? = some v := by
  have hkeys := (h.positions k i).mp hk
  rw [keys, List.getElem?_map, Option.map_eq_some_iff] at hkeys
  obtain ⟨⟨k', v⟩, hentry, rfl⟩ := hkeys
  refine ⟨v, hentry, ?_⟩
  rw [h.items, values, List.getElem?_map, hentry]
  rfl

theorem positions_eq_none_iff (h : t.Stores m) : t.positions[k]? = none ↔ k ∉ m.keys := by
  rw [Option.eq_none_iff_forall_ne_some, List.mem_iff_getElem?, not_exists]
  exact forall_congr' fun i => not_congr (h.positions k i)

theorem find?_eq_none (h : t.Stores m) (hk : t.positions[k]? = none) : m.find? k = none := by
  rw [← Option.not_isSome_iff_eq_none, find?_isSome_iff]
  exact h.positions_eq_none_iff.mp hk

theorem contains_iff (h : t.Stores m) (k : String) : t.positions.contains k = (m.find? k).isSome := by
  rw [Bool.eq_iff_iff, Std.HashMap.contains_iff_mem, Std.HashMap.mem_iff_isSome_getElem?,
    find?_isSome_iff, ← Option.ne_none_iff_isSome, Ne, h.positions_eq_none_iff, not_not]

/-- A value in the place of another one of its key. -/
theorem set (h : t.Stores m) (hnodup : m.keys.Nodup) (hentry : m.entries[i]? = some (k, v))
    (f : α → α) :
    { t with items := t.items.set i (f v) }.Stores { entries := modify k f m.entries } := by
  constructor
  · show t.items.set i (f v) = (modify k f m.entries).map (·.2)
    rw [values_modify hnodup hentry, h.items]
    rfl
  · intro k' j
    show t.positions[k']? = some j ↔ ((modify k f m.entries).map (·.1))[j]? = some k'
    rw [map_fst_modify]
    exact h.positions k' j

/-- The values behind the one that is taken out move up by one place, and so do their positions. -/
theorem removeAt (h : t.Stores m) (hnodup : m.keys.Nodup) (hentry : m.entries[i]? = some (k, v)) :
    (t.removeAt k i).Stores { entries := m.entries.eraseP fun e => e.1 == k } := by
  have hkey : m.keys[i]? = some k := by
    rw [keys, List.getElem?_map, hentry]
    rfl
  have herase := eraseP_eq_eraseIdx hnodup hentry
  constructor
  · show t.items.eraseIdx i = (m.entries.eraseP fun e => e.1 == k).map (·.2)
    rw [herase, ← List.eraseIdx_map, h.items]
    rfl
  · intro k' j
    show ((t.positions.erase k).map fun _ p => if i < p then p - 1 else p)[k']? = some j ↔
      ((m.entries.eraseP fun e => e.1 == k).map (·.1))[j]? = some k'
    have hkeys : (m.entries.eraseIdx i).map (·.1) = m.keys.eraseIdx i :=
      (List.eraseIdx_map _ _ _).symm
    rw [herase, hkeys, getElem?_eraseIdx_iff hnodup hkey, Std.HashMap.getElem?_map,
      Std.HashMap.getElem?_erase]
    by_cases hk : k = k'
    · simp [hk]
    · simp [hk, h.positions]

end Stores

/-! ### Operations -/

namespace Stores

variable [Named α] {t : Table α} {m : NameMap α}

/-- A value at the end of the row. -/
theorem push (h : t.Stores m) {v : α} (hnew : key v ∉ m.keys) :
    (t.push v).Stores { entries := m.entries ++ [(key v, v)] } := by
  constructor
  · show t.items ++ [v] = (m.entries ++ [(key v, v)]).map (·.2)
    rw [h.items, values, List.map_append]
    rfl
  · intro k i
    have hlength : t.items.length = m.keys.length := by
      rw [h.items, values, keys, List.length_map, List.length_map]
    have hkeys : (m.entries ++ [(key v, v)]).map (·.1) = m.keys ++ [key v] := List.map_append
    show (t.positions.insert (key v) t.items.length)[k]? = some i ↔
      ((m.entries ++ [(key v, v)]).map (·.1))[i]? = some k
    rw [Std.HashMap.getElem?_insert, hlength, hkeys, getElem?_concat_iff]
    by_cases hk : key v = k
    · subst hk
      have hnone : ¬m.keys[i]? = some (key v) := fun hi => hnew (List.mem_of_getElem? hi)
      simp [hnone, eq_comm]
    · simp [hk, h.positions]

theorem get? (h : t.Stores m) (hm : m.Indexed) (name : String) :
    t.get? name = some (m.get? name) := by
  rw [Table.get?, NameMap.get?]
  split
  · next i hk =>
    obtain ⟨v, hentry, hitem⟩ := h.exists_value hk
    have hfind : m.find? (lowerName name) = some v := lookup_of_getElem? hm.nodup hentry
    rw [hitem, hfind, Option.map_some]
  · next hk => rw [h.find?_eq_none hk]

theorem insertMerge (h : t.Stores m) (hm : m.Indexed) (v : α) :
    ∃ t', t.insertMerge? v = some t' ∧ t'.Stores (m.insertMerge v) := by
  rw [insertMerge?, NameMap.insertMerge]
  split
  · next i hk =>
    obtain ⟨old, hentry, hitem⟩ := h.exists_value hk
    have hfind : m.find? (key v) = some old := lookup_of_getElem? hm.nodup hentry
    rw [hitem, if_pos (by rw [hfind, Option.isSome_some])]
    exact ⟨_, rfl, h.set hm.nodup hentry (Named.merge · v)⟩
  · next hk =>
    rw [if_neg (by rw [h.find?_eq_none hk, Option.isSome_none]; exact Bool.false_ne_true)]
    exact ⟨_, rfl, h.push (h.positions_eq_none_iff.mp hk)⟩

theorem insertIfAbsent (h : t.Stores m) (v : α) :
    (t.insertIfAbsent v).Stores (m.insertIfAbsent v) := by
  rw [Table.insertIfAbsent, NameMap.insertIfAbsent, h.contains_iff]
  split
  · exact h
  · next hnone => exact h.push fun hmem => hnone ((find?_isSome_iff m _).mpr hmem)

/-- The value that is replaced is the one that a lookup has found. -/
theorem insertReplace (h : t.Stores m) (hm : m.Indexed) (v : α) :
    ∃ t', t.insertReplace? v = some (m.get? (Named.name v), t') ∧ t'.Stores (m.insertReplace v).2 := by
  rw [insertReplace?, NameMap.get?]
  split
  · next i hk =>
    obtain ⟨old, hentry, hitem⟩ := h.exists_value hk
    have hfind : m.find? (key v) = some old := lookup_of_getElem? hm.nodup hentry
    have hmem : key v ∈ m.keys := (find?_isSome_iff m _).mp (by rw [hfind, Option.isSome_some])
    rw [hitem, insertReplace_of_mem hmem, ← key, hfind]
    exact ⟨_, rfl, h.set hm.nodup hentry fun _ => v⟩
  · next hk =>
    have hnew := h.positions_eq_none_iff.mp hk
    rw [insertReplace_of_notMem hnew, ← key, h.find?_eq_none hk]
    exact ⟨_, rfl, h.push hnew⟩

theorem remove (h : t.Stores m) (hm : m.Indexed) (name : String) :
    ∃ t', t.remove? name = some (m.get? name, t') ∧ t'.Stores (m.remove name).2 := by
  rw [remove?, NameMap.get?]
  split
  · next i hk =>
    obtain ⟨old, hentry, hitem⟩ := h.exists_value hk
    have hfind : m.find? (lowerName name) = some old := lookup_of_getElem? hm.nodup hentry
    rw [hitem, hfind]
    exact ⟨_, rfl, h.removeAt hm.nodup hentry⟩
  · next hk =>
    have hsame : (m.remove name).2 = m := remove_of_notMem (h.positions_eq_none_iff.mp hk)
    rw [h.find?_eq_none hk, hsame]
    exact ⟨t, rfl, h⟩

theorem operate (h : t.Stores m) (hm : m.Indexed) (o : Operation α) :
    ∃ t', t.operate? o = some t' ∧ t'.Stores (m.operate o) := by
  cases o with
  | merge v => exact h.insertMerge hm v
  | fill v => exact ⟨_, rfl, h.insertIfAbsent v⟩
  | replace v =>
    obtain ⟨t', ht', hstores⟩ := h.insertReplace hm v
    exact ⟨t', by rw [operate?, ht', Option.map_some], hstores⟩
  | remove name =>
    obtain ⟨t', ht', hstores⟩ := h.remove hm name
    exact ⟨t', by rw [operate?, ht', Option.map_some], hstores⟩

end Stores

theorem run_stores [Named α] [LawfulNamed α] (ops : List (Operation α)) :
    ∃ t, run? ops = some t ∧ t.Stores (NameMap.run ops) := by
  induction ops using List.reverseRecOn with
  | nil => exact ⟨{}, rfl, .empty⟩
  | append_singleton ops o ih =>
    obtain ⟨t, ht, hstores⟩ := ih
    obtain ⟨t', ht', hstores'⟩ := hstores.operate (indexed_run ops) o
    rw [run?] at ht
    refine ⟨t', ?_, ?_⟩
    · rw [run?, List.foldlM_append, ht]
      show (t.operate? o).bind some = some t'
      rw [ht', Option.bind_some]
    · rw [run_concat]
      exact hstores'

/-! ### Runs -/

/-- What a table is, behind the operations that have made it. -/
structure Tabulates [Named α] (t : Table α) (ops : List (Operation α)) : Prop where
  items : t.items = (run ops).values
  positions : ∀ (k : String) (i : Nat), t.positions[k]? = some i ↔ (t.items.map key)[i]? = some k
  get? : ∀ name, t.get? name = some (t.items.find? fun v => sameName (Named.name v) name)
  contains : ∀ name, t.contains name = t.items.any fun v => sameName (Named.name v) name
  ordered : (t.items.map key).Pairwise fun k k' =>
    ∀ i j, EntersAt ops k i → EntersAt ops k' j → i < j
  enters : ∀ k, k ∈ t.items.map key ↔ ∃ i, EntersAt ops k i
  found : ∀ name, t.get? name = some (stored ops (lowerName name))
  replaced : ∀ v, ∃ t', t.insertReplace? v = some (stored ops (key v), t')
  removed : ∀ name, ∃ t', t.remove? name = some (stored ops (lowerName name), t')

theorem Stores.tabulates [Named α] [LawfulNamed α] {t : Table α} {ops : List (Operation α)}
    (h : t.Stores (run ops)) : t.Tabulates ops := by
  have hindexed := indexed_run ops
  have hfollows := run_follows ops
  have hkeys : t.items.map key = (run ops).keys := by
    rw [h.items, hindexed.keys_eq]
  have hget : ∀ name, (run ops).get? name = stored ops (lowerName name) := fun name =>
    find?_run ops (lowerName name)
  refine ⟨h.items, ?_, fun name => ?_, fun name => ?_, ?_, fun k => ?_, fun name => ?_, fun v => ?_,
    fun name => ?_⟩
  · rw [hkeys]
    exact h.positions
  · rw [h.get? hindexed, h.items, hindexed.get?_eq_find?]
  · rw [Table.contains, h.contains_iff, ← NameMap.get?, h.items, hindexed.get?_eq_find?,
      Bool.eq_iff_iff, List.find?_isSome, List.any_eq_true]
  · rw [hkeys]
    exact hfollows.ordered
  · rw [hkeys, hfollows.isIn]
    exact ⟨IsIn.exists_entersAt, fun ⟨i, hi⟩ => hi.isIn⟩
  · rw [h.get? hindexed, hget]
  · obtain ⟨t', ht', -⟩ := h.insertReplace hindexed v
    exact ⟨t', by rw [ht', hget]; rfl⟩
  · obtain ⟨t', ht', -⟩ := h.remove hindexed name
    exact ⟨t', by rw [ht', hget]⟩

/-- Tables never read outside of their row, and hold what the map holds that the same operations
make.  A position is that of the one value with the key, lookups find what a search through the row
finds, and the values stand in the order in which their keys came in. -/
theorem run_tabulated [Named α] [LawfulNamed α] (ops : List (Operation α)) :
    ∃ t, run? ops = some t ∧ t.Tabulates ops ∧
      (∀ name, t.get? name = some ((run ops).get? name)) ∧
      (∀ name, t.contains name = (run ops).contains name) ∧
      t.names = (run ops).names ∧
      ∀ v, ((run ops).insertReplace v).1 = stored ops (key v) := by
  obtain ⟨t, ht, h⟩ := run_stores ops
  refine ⟨t, ht, h.tabulates, h.get? (indexed_run ops), fun name => h.contains_iff _, ?_, fun v => ?_⟩
  · rw [Table.names, h.items, NameMap.names]
  · rw [insertReplace_fst, find?_run]

/-- A key that is removed comes in anew, in another case, behind a value that was put in after it. -/
theorem run_tabulated_of_reinserted :
    let ops : List (Operation Descriptor) :=
      [.merge { name := "Alpha" }, .replace { name := "beta" }, .merge { name := "BETA" },
        .remove "ALPHA", .fill { name := "alpha" }]
    LawfulNamed Descriptor ∧
      ∃ t, run? ops = some t ∧ t.names = ["beta", "alpha"] ∧ t.positions["alpha"]? = some 1 := by
  intro ops
  obtain ⟨t, ht, htab, -, -, hnames, -⟩ := run_tabulated ops
  have hkeys : t.items.map key = ["beta", "alpha"] := by
    rw [htab.items]
    decide +kernel
  refine ⟨inferInstance, t, ht, hnames.trans (by decide +kernel), ?_⟩
  rw [htab.positions, hkeys]
  rfl

end Table
end Inlay
