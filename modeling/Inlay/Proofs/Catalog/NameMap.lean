import Inlay.Catalog.NameMap
import Mathlib.Data.List.Nodup

/-!
# Keys of maps from names

What each operation of a map does to its keys, and to the value that is found
under a key.  An operation on one name leaves every other key alone, whatever
the map looks like.  Under its own key it does what its name says as long as no
key is listed twice, which `Indexed` states and every operation keeps.
-/

namespace Inlay

/-! ## Lists without repetition -/

theorem eraseDups_of_nodup {α : Type} [BEq α] [LawfulBEq α] {l : List α} (h : l.Nodup) :
    l.eraseDups = l := by
  induction l with
  | nil => rfl
  | cons a rest ih =>
    obtain ⟨ha, hrest⟩ := List.nodup_cons.mp h
    have hkeep : rest.filter (fun b => !b == a) = rest := by
      refine List.filter_eq_self.mpr fun b hb => ?_
      have hne : b ≠ a := fun heq => ha (heq ▸ hb)
      rw [beq_eq_false_iff_ne.mpr hne, Bool.not_false]
    rw [List.eraseDups_cons, hkeep, ih hrest]

theorem filter_eraseDups {α : Type} [BEq α] [LawfulBEq α] (p : α → Bool) (l : List α) :
    l.eraseDups.filter p = (l.filter p).eraseDups := by
  -- Not by induction on the list: the duplicates of the head are dropped before the tail
  -- is looked at.
  match l with
  | [] => rfl
  | a :: rest =>
    have hlt : (rest.filter fun b => !b == a).length < rest.length + 1 :=
      Nat.lt_succ_of_le (List.length_filter_le _ rest)
    have hrest := filter_eraseDups p (rest.filter fun b => !b == a)
    rw [List.filter_filter] at hrest
    rw [List.eraseDups_cons, List.filter_cons, List.filter_cons, hrest]
    split
    · rw [List.eraseDups_cons, List.filter_filter]
      congr 2
      exact List.filter_congr fun b _ => Bool.and_comm _ _
    · next hpa =>
      congr 1
      refine List.filter_congr fun b _ => ?_
      by_cases hb : b = a
      · rw [hb, Bool.eq_false_iff.mpr hpa, Bool.false_and]
      · rw [beq_eq_false_iff_ne.mpr hb, Bool.not_false, Bool.and_true]
termination_by l.length

theorem nodup_eraseDups {α : Type} [BEq α] [LawfulBEq α] (l : List α) : l.eraseDups.Nodup := by
  match l with
  | [] => exact List.nodup_nil
  | a :: rest =>
    have hlt : (rest.filter fun b => !b == a).length < rest.length + 1 :=
      Nat.lt_succ_of_le (List.length_filter_le _ rest)
    rw [List.eraseDups_cons, List.nodup_cons, List.mem_eraseDups, List.mem_filter]
    refine ⟨fun h => ?_, nodup_eraseDups _⟩
    rw [beq_self_eq_true, Bool.not_true] at h
    exact Bool.false_ne_true h.2
termination_by l.length

/-- Parts may lose their duplicates before the whole does. -/
theorem eraseDups_eraseDups_append {α : Type} [BEq α] [LawfulBEq α] (l l' : List α) :
    (l.eraseDups ++ l'.eraseDups).eraseDups = (l ++ l').eraseDups := by
  have hsame : ∀ a, l.eraseDups.elem a = l.elem a := by
    intro a
    rw [Bool.eq_iff_iff, List.elem_iff, List.elem_iff, List.mem_eraseDups]
  rw [List.eraseDups_append, List.eraseDups_append, eraseDups_of_nodup (nodup_eraseDups l)]
  congr 1
  rw [List.removeAll, List.removeAll, filter_eraseDups, eraseDups_of_nodup (nodup_eraseDups _)]
  simp only [hsame]

theorem nodup_append_of_new {α : Type} [DecidableEq α] {l : List α} (h : l.Nodup) (a : α) :
    (if a ∈ l then l else l ++ [a]).Nodup := by
  split
  · exact h
  · next hmem =>
    rw [← List.concat_eq_append]
    exact h.concat hmem

/-- Values that contribute nothing can be left out. -/
theorem flatMap_filter_isEmpty {α β : Type} (f : α → List β) (l : List α) :
    (l.filter fun a => !(f a).isEmpty).flatMap f = l.flatMap f := by
  induction l with
  | nil => rfl
  | cons a rest ih =>
    rw [List.filter_cons]
    split
    · rw [List.flatMap_cons, List.flatMap_cons, ih]
    · next h =>
      have hnil : f a = [] := by simpa using h
      rw [List.flatMap_cons, hnil, List.nil_append, ih]

namespace NameMap

variable {α : Type}

/-- The keys of the entries, in their order. -/
def keys (m : NameMap α) : List String := m.entries.map (·.1)

/-- No key is listed twice, and every value stands under the key of its name. -/
structure Indexed [Named α] (m : NameMap α) : Prop where
  nodup : m.keys.Nodup
  keyed : ∀ e ∈ m.entries, e.1 = key e.2

theorem Indexed.keyed_append [Named α] {m : NameMap α} (h : m.Indexed) {v : α} {e : String × α}
    (he : e ∈ m.entries ++ [(key v, v)]) : e.1 = key e.2 := by
  rcases List.mem_append.mp he with he | he
  · exact h.keyed e he
  · rw [List.mem_singleton.mp he]

theorem indexed_empty [Named α] : (empty : NameMap α).Indexed :=
  ⟨List.nodup_nil, List.forall_mem_nil _⟩

theorem find?_isSome_iff (m : NameMap α) (k : String) : (m.find? k).isSome ↔ k ∈ m.keys := by
  rw [find?, List.lookup_isSome_iff, keys, List.mem_map]
  constructor
  · rintro ⟨e, he, hk⟩
    exact ⟨e, he, (beq_iff_eq.mp hk).symm⟩
  · rintro ⟨e, he, rfl⟩
    exact ⟨e, he, beq_self_eq_true _⟩

/-- Without a repeated name the keys are those of the values. -/
theorem Indexed.keys_eq [Named α] {m : NameMap α} (h : m.Indexed) : m.keys = m.values.map key := by
  rw [keys, values, List.map_map]
  exact List.map_congr_left h.keyed

/-- A lookup is a search for the name, in any case. -/
theorem Indexed.get?_eq_find? [Named α] {m : NameMap α} (h : m.Indexed) (name : String) :
    m.get? name = m.values.find? fun v => sameName (Named.name v) name := by
  have hkeyed := h.keyed
  show m.entries.lookup (lowerName name) = (m.entries.map (·.2)).find? _
  generalize m.entries = es at hkeyed
  induction es with
  | nil => rfl
  | cons e rest ih =>
    have he : e.1 = lowerName (Named.name e.2) := hkeyed e List.mem_cons_self
    rw [List.lookup_cons, List.map_cons, List.find?_cons, ih fun e' he' => hkeyed e' (.tail e he'),
      sameName, BEq.comm, he]

/-! ## Changing an entry in its place -/

theorem map_fst_modify (k : String) (f : α → α) (es : List (String × α)) :
    (modify k f es).map (·.1) = es.map (·.1) := by
  induction es with
  | nil => rfl
  | cons e rest ih =>
    rw [modify]
    split
    · next h => rw [List.map_cons, List.map_cons, beq_iff_eq.mp h]
    · rw [List.map_cons, List.map_cons, ih]

theorem lookup_modify_ne {k k' : String} (h : k' ≠ k) (f : α → α) (es : List (String × α)) :
    (modify k f es).lookup k' = es.lookup k' := by
  induction es with
  | nil => rfl
  | cons e rest ih =>
    obtain ⟨a, v⟩ := e
    rw [modify]
    split
    · next ha =>
      have ha' : a = k := beq_iff_eq.mp ha
      have hne : (k' == k) = false := beq_eq_false_iff_ne.mpr h
      rw [ha', List.lookup_cons, List.lookup_cons, hne]
    · rw [List.lookup_cons, List.lookup_cons, ih]

theorem lookup_modify_self (k : String) (f : α → α) (es : List (String × α)) :
    (modify k f es).lookup k = (es.lookup k).map f := by
  induction es with
  | nil => rfl
  | cons e rest ih =>
    obtain ⟨a, v⟩ := e
    rw [modify]
    split
    · next ha =>
      have ha' : a = k := beq_iff_eq.mp ha
      rw [ha', List.lookup_cons_self, List.lookup_cons_self, Option.map_some]
    · next ha =>
      have hne : (k == a) = false := beq_eq_false_iff_ne.mpr fun e => ha (beq_iff_eq.mpr e.symm)
      rw [List.lookup_cons, List.lookup_cons, hne, ih]

theorem mem_modify {k : String} {f : α → α} {es : List (String × α)} {e : String × α}
    (h : e ∈ modify k f es) : e ∈ es ∨ ∃ v, (k, v) ∈ es ∧ e = (k, f v) := by
  induction es with
  | nil => exact absurd h List.not_mem_nil
  | cons a rest ih =>
    rw [modify] at h
    split at h
    · next ha =>
      rcases List.mem_cons.mp h with rfl | h
      · have ha' : a.1 = k := beq_iff_eq.mp ha
        exact Or.inr ⟨a.2, by rw [← ha']; exact List.mem_cons_self, rfl⟩
      · exact Or.inl (List.mem_cons_of_mem _ h)
    · rcases List.mem_cons.mp h with rfl | h
      · exact Or.inl List.mem_cons_self
      · rcases ih h with h | ⟨v, hv, he⟩
        · exact Or.inl (List.mem_cons_of_mem _ h)
        · exact Or.inr ⟨v, List.mem_cons_of_mem _ hv, he⟩

/-! ## Replacing -/

section Replace

variable [Named α]

theorem insertReplace_fst (m : NameMap α) (v : α) : (m.insertReplace v).1 = m.find? (key v) := by
  rw [insertReplace]
  split
  · next h => exact h.symm
  · next h => exact h.symm

theorem find?_insertReplace_self (m : NameMap α) (v : α) :
    (m.insertReplace v).2.find? (key v) = some v := by
  rw [insertReplace]
  split
  · next old h =>
    show (modify (key v) (fun _ => v) m.entries).lookup (key v) = some v
    have h' : m.entries.lookup (key v) = some old := h
    rw [lookup_modify_self, h', Option.map_some]
  · next h =>
    show (m.entries ++ [(key v, v)]).lookup (key v) = some v
    have h' : m.entries.lookup (key v) = none := h
    rw [List.lookup_append, h', Option.none_or, List.lookup_cons_self]

theorem find?_insertReplace_ne {m : NameMap α} {v : α} {k : String} (h : k ≠ key v) :
    (m.insertReplace v).2.find? k = m.find? k := by
  rw [insertReplace]
  split
  · exact lookup_modify_ne h _ _
  · show (m.entries ++ [(key v, v)]).lookup k = m.entries.lookup k
    have hne : (k == key v) = false := beq_eq_false_iff_ne.mpr h
    rw [List.lookup_append, List.lookup_cons, hne, List.lookup_nil, Option.or_none]

theorem keys_insertReplace (m : NameMap α) (v : α) :
    (m.insertReplace v).2.keys = if key v ∈ m.keys then m.keys else m.keys ++ [key v] := by
  rw [insertReplace]
  split
  · next old h =>
    have hmem : key v ∈ m.keys := (find?_isSome_iff m _).mp (by rw [h, Option.isSome_some])
    rw [if_pos hmem]
    exact map_fst_modify _ _ _
  · next h =>
    have hmem : key v ∉ m.keys := by
      rw [← find?_isSome_iff, h]
      exact Bool.false_ne_true
    rw [if_neg hmem]
    exact List.map_append

theorem Indexed.insertReplace {m : NameMap α} (h : m.Indexed) (v : α) :
    (m.insertReplace v).2.Indexed := by
  constructor
  · rw [keys_insertReplace]
    exact nodup_append_of_new h.nodup _
  · intro e he
    rw [NameMap.insertReplace] at he
    split at he
    · rcases mem_modify he with he | ⟨_, _, rfl⟩
      · exact h.keyed e he
      · rfl
    · exact h.keyed_append he

theorem mem_values_insertReplace {m : NameMap α} {v w : α}
    (h : w ∈ (m.insertReplace v).2.values) : w ∈ m.values ∨ w = v := by
  obtain ⟨e, he, rfl⟩ := List.mem_map.mp h
  rw [insertReplace] at he
  split at he
  · rcases mem_modify he with he | ⟨_, _, rfl⟩
    · exact Or.inl (List.mem_map_of_mem he)
    · exact Or.inr rfl
  · rcases List.mem_append.mp he with he | he
    · exact Or.inl (List.mem_map_of_mem he)
    · rw [List.mem_singleton.mp he]
      exact Or.inr rfl

theorem mem_values_replaceAll {m : NameMap α} {vs : List α} {w : α}
    (h : w ∈ (m.replaceAll vs).values) : w ∈ m.values ∨ w ∈ vs := by
  induction vs generalizing m with
  | nil => exact Or.inl h
  | cons v rest ih =>
    rcases ih h with h | h
    · rcases mem_values_insertReplace h with h | rfl
      · exact Or.inl h
      · exact Or.inr List.mem_cons_self
    · exact Or.inr (List.mem_cons_of_mem v h)

end Replace

/-! ## Merging -/

section Merge

variable [Named α]

theorem find?_insertMerge_self (m : NameMap α) (v : α) :
    (m.insertMerge v).find? (key v) = (m.find? (key v)).merge Named.merge (some v) := by
  rw [insertMerge]
  cases h : m.find? (key v) with
  | some old =>
    have h' : m.entries.lookup (key v) = some old := h
    show (modify (key v) (Named.merge · v) m.entries).lookup (key v) = some (Named.merge old v)
    rw [lookup_modify_self, h', Option.map_some]
  | none =>
    have h' : m.entries.lookup (key v) = none := h
    show (m.entries ++ [(key v, v)]).lookup (key v) = some v
    rw [List.lookup_append, h', Option.none_or, List.lookup_cons_self]

theorem find?_insertMerge_ne {m : NameMap α} {v : α} {k : String} (h : k ≠ key v) :
    (m.insertMerge v).find? k = m.find? k := by
  rw [insertMerge]
  split
  · exact lookup_modify_ne h _ _
  · show (m.entries ++ [(key v, v)]).lookup k = m.entries.lookup k
    have hne : (k == key v) = false := beq_eq_false_iff_ne.mpr h
    rw [List.lookup_append, List.lookup_cons, hne, List.lookup_nil, Option.or_none]

theorem keys_insertMerge (m : NameMap α) (v : α) :
    (m.insertMerge v).keys = if key v ∈ m.keys then m.keys else m.keys ++ [key v] := by
  rw [insertMerge]
  by_cases hmem : key v ∈ m.keys
  · rw [if_pos ((find?_isSome_iff m _).mpr hmem), if_pos hmem]
    exact map_fst_modify _ _ _
  · rw [if_neg fun h => hmem ((find?_isSome_iff m _).mp h), if_neg hmem]
    exact List.map_append

/-- Values keep their key when another is merged into them. -/
theorem Indexed.insertMerge {m : NameMap α} (h : m.Indexed)
    (hkey : ∀ a b : α, key (Named.merge a b) = key a) (v : α) : (m.insertMerge v).Indexed := by
  constructor
  · rw [keys_insertMerge]
    exact nodup_append_of_new h.nodup _
  · intro e he
    rw [NameMap.insertMerge] at he
    split at he
    · rcases mem_modify he with he | ⟨old, hold, rfl⟩
      · exact h.keyed e he
      · exact (h.keyed _ hold).trans (hkey old v).symm
    · exact h.keyed_append he

theorem Indexed.mergeAll {m : NameMap α} (h : m.Indexed)
    (hkey : ∀ a b : α, key (Named.merge a b) = key a) (vs : List α) : (m.mergeAll vs).Indexed := by
  induction vs generalizing m with
  | nil => exact h
  | cons v rest ih => exact ih (h.insertMerge hkey v)

end Merge

/-! ## Removing -/

theorem keys_remove (m : NameMap α) (name : String) :
    (m.remove name).2.keys = m.keys.erase (lowerName name) := by
  rw [List.erase_eq_eraseP', keys, keys, List.eraseP_map]
  rfl

theorem find?_remove_ne {m : NameMap α} {name k : String} (h : k ≠ lowerName name) :
    (m.remove name).2.find? k = m.find? k := by
  show (m.entries.eraseP fun e => e.1 == lowerName name).lookup k = m.entries.lookup k
  induction m.entries with
  | nil => rfl
  | cons e rest ih =>
    obtain ⟨a, v⟩ := e
    rw [List.eraseP_cons]
    by_cases ha : a = lowerName name
    · have hne : (k == a) = false := beq_eq_false_iff_ne.mpr (ha ▸ h)
      have hpos : (a == lowerName name) = true := beq_iff_eq.mpr ha
      rw [hpos, cond_true, List.lookup_cons, hne]
    · have hneg : (a == lowerName name) = false := beq_eq_false_iff_ne.mpr ha
      rw [hneg, cond_false, List.lookup_cons, List.lookup_cons, ih]

theorem find?_remove_self [Named α] {m : NameMap α} (h : m.Indexed) (name : String) :
    (m.remove name).2.find? (lowerName name) = none := by
  rw [← Option.not_isSome_iff_eq_none, find?_isSome_iff, keys_remove]
  exact h.nodup.not_mem_erase

theorem Indexed.remove [Named α] {m : NameMap α} (h : m.Indexed) (name : String) :
    (m.remove name).2.Indexed := by
  constructor
  · rw [keys_remove]
    exact h.nodup.erase _
  · intro e he
    exact h.keyed e (List.mem_of_mem_eraseP he)

theorem mem_values_removeAll {m : NameMap α} {names : List String} {w : α}
    (h : w ∈ (m.removeAll names).values) : w ∈ m.values := by
  induction names generalizing m with
  | nil => exact h
  | cons name rest ih =>
    obtain ⟨e, he, rfl⟩ := List.mem_map.mp (ih h)
    exact List.mem_map_of_mem (List.mem_of_mem_eraseP he)

/-! ## Filling up -/

section Fill

variable [Named α]

theorem keys_insertIfAbsent (m : NameMap α) (v : α) :
    (m.insertIfAbsent v).keys = if key v ∈ m.keys then m.keys else m.keys ++ [key v] := by
  rw [insertIfAbsent]
  by_cases hmem : key v ∈ m.keys
  · rw [if_pos ((find?_isSome_iff m _).mpr hmem), if_pos hmem]
  · rw [if_neg fun h => hmem ((find?_isSome_iff m _).mp h), if_neg hmem]
    exact List.map_append

theorem find?_insertIfAbsent_self (m : NameMap α) (v : α) :
    (m.insertIfAbsent v).find? (key v) = (m.find? (key v)).or (some v) := by
  rw [insertIfAbsent]
  cases h : m.find? (key v) with
  | some old =>
    rw [if_pos (by rw [Option.isSome_some]), h]
    rfl
  | none =>
    have h' : m.entries.lookup (key v) = none := h
    show (m.entries ++ [(key v, v)]).lookup (key v) = some v
    rw [List.lookup_append, h', Option.none_or, List.lookup_cons_self]

theorem find?_insertIfAbsent_ne {m : NameMap α} {v : α} {k : String} (h : k ≠ key v) :
    (m.insertIfAbsent v).find? k = m.find? k := by
  rw [insertIfAbsent]
  split
  · rfl
  · show (m.entries ++ [(key v, v)]).lookup k = m.entries.lookup k
    have hne : (k == key v) = false := beq_eq_false_iff_ne.mpr h
    rw [List.lookup_append, List.lookup_cons, hne, List.lookup_nil, Option.or_none]

theorem Indexed.insertIfAbsent {m : NameMap α} (h : m.Indexed) (v : α) :
    (m.insertIfAbsent v).Indexed := by
  constructor
  · rw [keys_insertIfAbsent]
    exact nodup_append_of_new h.nodup _
  · intro e he
    rw [NameMap.insertIfAbsent] at he
    split at he
    · exact h.keyed e he
    · exact h.keyed_append he

theorem Indexed.fillWith {m : NameMap α} (h : m.Indexed) (vs : List α) :
    (m.fillWith vs).Indexed := by
  induction vs generalizing m with
  | nil => exact h
  | cons v rest ih => exact ih (h.insertIfAbsent v)

/-- The first value of a name sets its place. -/
theorem Indexed.keys_fillWith {m : NameMap α} (h : m.Indexed) (vs : List α) :
    (m.fillWith vs).keys = (m.keys ++ vs.map key).eraseDups := by
  induction vs generalizing m with
  | nil =>
    rw [List.map_nil, List.append_nil, eraseDups_of_nodup h.nodup]
    rfl
  | cons v rest ih =>
    show ((m.insertIfAbsent v).fillWith rest).keys = _
    rw [ih (h.insertIfAbsent v), keys_insertIfAbsent, List.map_cons]
    split
    · next hmem =>
      have hcontains : m.keys.contains (key v) = true := List.contains_iff_mem.mpr hmem
      rw [List.eraseDups_append, List.eraseDups_append, List.cons_removeAll, hcontains,
        if_neg Bool.true_eq_false.mp]
    · rw [List.append_assoc, List.singleton_append]

end Fill

end NameMap
end Inlay
