import Inlay.Proofs.Catalog.NameMap
import Mathlib.Data.List.Induction

/-!
# Values that are put in together

What putting a list of values into a map does, each in the place of the one of its name, and what taking
a list of names out again undoes.

Under a name stands the last value of that name.  Values of names that are there change no
place, so the order in which two of them of different names are put in does not matter
(`insertReplace_comm`), and putting all of them in once more changes nothing: `replaceAll_replaceAll`.
Values of new names stand behind all others, and they go with their names: `removeAll_replaceAll`.
None of this needs a map in which every key is listed once.
-/

namespace Inlay
namespace NameMap

variable {α : Type}

/-! ## Changing two entries -/

theorem modify_modify_self (k : String) (f g : α → α) (es : List (String × α)) :
    modify k f (modify k g es) = modify k (f ∘ g) es := by
  induction es with
  | nil => rfl
  | cons e rest ih =>
    by_cases h : (e.1 == k) = true
    · simp [modify, h]
    · simp [modify, h, ih]

theorem modify_modify_ne {k k' : String} (h : k ≠ k') (f g : α → α) (es : List (String × α)) :
    modify k f (modify k' g es) = modify k' g (modify k f es) := by
  induction es with
  | nil => rfl
  | cons e rest ih =>
    by_cases hk : e.1 = k
    · simp [modify, hk, h]
    · by_cases hk' : e.1 = k'
      · simp [modify, hk', Ne.symm h]
      · simp [modify, hk, hk', ih]

theorem modify_append_of_mem {k : String} {es : List (String × α)} (h : k ∈ es.map (·.1))
    (f : α → α) (more : List (String × α)) : modify k f (es ++ more) = modify k f es ++ more := by
  induction es with
  | nil => exact absurd h List.not_mem_nil
  | cons e rest ih =>
    by_cases hk : e.1 = k
    · simp [modify, hk]
    · have hrest : k ∈ rest.map (·.1) := by
        rw [List.map_cons, List.mem_cons] at h
        exact h.resolve_left (Ne.symm hk)
      simp [modify, hk, ih hrest]

theorem modify_append_of_notMem {k : String} {es : List (String × α)} (h : k ∉ es.map (·.1))
    (f : α → α) (more : List (String × α)) : modify k f (es ++ more) = es ++ modify k f more := by
  induction es with
  | nil => rfl
  | cons e rest ih =>
    rw [List.map_cons, List.mem_cons, not_or] at h
    have hk : ¬ e.1 = k := Ne.symm h.1
    simp [modify, hk, ih h.2]

/-! ## One value after another -/

section Replace

variable [Named α] {m : NameMap α} {v w : α} {vs : List α} {k : String}

theorem insertReplace_of_mem (h : key v ∈ m.keys) :
    (m.insertReplace v).2 = { entries := modify (key v) (fun _ => v) m.entries } := by
  obtain ⟨old, hold⟩ := Option.isSome_iff_exists.mp ((find?_isSome_iff m (key v)).mpr h)
  simp [insertReplace, hold]

theorem insertReplace_of_notMem (h : key v ∉ m.keys) :
    (m.insertReplace v).2 = { entries := m.entries ++ [(key v, v)] } := by
  have hnone : m.find? (key v) = none := by
    rw [← Option.not_isSome_iff_eq_none, find?_isSome_iff]
    exact h
  simp [insertReplace, hnone]

theorem key_mem_keys_insertReplace (m : NameMap α) (v : α) : key v ∈ (m.insertReplace v).2.keys := by
  rw [← find?_isSome_iff, find?_insertReplace_self, Option.isSome_some]

theorem mem_keys_insertReplace {k : String} (h : k ∈ m.keys) (v : α) :
    k ∈ (m.insertReplace v).2.keys := by
  rw [keys_insertReplace]
  split
  · exact h
  · exact List.mem_append_left _ h

theorem insertReplace_insertReplace_same (hkey : key v = key w) :
    ((m.insertReplace v).2.insertReplace w).2 = (m.insertReplace w).2 := by
  have hw : key w ∈ (m.insertReplace v).2.keys := hkey ▸ key_mem_keys_insertReplace m v
  rw [insertReplace_of_mem hw]
  by_cases hmem : key v ∈ m.keys
  · rw [insertReplace_of_mem hmem, insertReplace_of_mem (hkey ▸ hmem), hkey, modify_modify_self]
    rfl
  · have hmem' : key w ∉ m.entries.map (·.1) := hkey ▸ hmem
    rw [insertReplace_of_notMem hmem, insertReplace_of_notMem (hkey ▸ hmem),
      modify_append_of_notMem hmem', hkey]
    simp [modify]

/-- The name that is there already keeps its place, so both orders append the other one, or none. -/
theorem insertReplace_comm (hw : key w ∈ m.keys) (hne : key w ≠ key v) :
    ((m.insertReplace v).2.insertReplace w).2 = ((m.insertReplace w).2.insertReplace v).2 := by
  have hkeys : (m.insertReplace w).2.keys = m.keys := by rw [keys_insertReplace, if_pos hw]
  rw [insertReplace_of_mem (mem_keys_insertReplace hw v)]
  by_cases hv : key v ∈ m.keys
  · rw [insertReplace_of_mem (m := (m.insertReplace w).2) (hkeys.symm ▸ hv),
      insertReplace_of_mem hv, insertReplace_of_mem hw, modify_modify_ne hne]
  · rw [insertReplace_of_notMem (m := (m.insertReplace w).2) (hkeys.symm ▸ hv),
      insertReplace_of_notMem hv, insertReplace_of_mem hw, modify_append_of_mem hw]

/-! ## Lists of values -/

theorem mem_keys_replaceAll_iff :
    k ∈ (m.replaceAll vs).keys ↔ k ∈ m.keys ∨ k ∈ vs.map key := by
  induction vs generalizing m with
  | nil => simp [replaceAll]
  | cons v rest ih =>
    have hstep : k ∈ (m.insertReplace v).2.keys ↔ k ∈ m.keys ∨ k = key v := by
      rw [keys_insertReplace]
      split
      · next hv => exact ⟨.inl, fun h => h.elim id fun h => h ▸ hv⟩
      · rw [List.mem_append, List.mem_singleton]
    show k ∈ ((m.insertReplace v).2.replaceAll rest).keys ↔ _
    rw [ih, hstep, List.map_cons, List.mem_cons, or_assoc]

theorem Indexed.replaceAll (h : m.Indexed) (vs : List α) : (m.replaceAll vs).Indexed := by
  induction vs generalizing m with
  | nil => exact h
  | cons v rest ih => exact ih (h.insertReplace v)

/-- The last of some values whose name has a key. -/
def lastNamed (vs : List α) (k : String) : Option α := (vs.filter fun v => key v == k).getLast?

theorem lastNamed_append (vs ws : List α) (k : String) :
    lastNamed (vs ++ ws) k = (lastNamed ws k).or (lastNamed vs k) := by
  rw [lastNamed, List.filter_append, List.getLast?_append]
  rfl

theorem lastNamed_cons (v : α) (vs : List α) (k : String) :
    lastNamed (v :: vs) k = (lastNamed vs k).or (if key v = k then some v else none) := by
  rw [← List.singleton_append, lastNamed_append, lastNamed, lastNamed]
  congr 1
  by_cases h : key v = k <;> simp [h]

theorem mem_of_lastNamed (h : lastNamed vs k = some v) : v ∈ vs ∧ key v = k := by
  obtain ⟨hmem, hkey⟩ := List.mem_filter.mp (List.mem_of_getLast? h)
  exact ⟨hmem, beq_iff_eq.mp hkey⟩

theorem lastNamed_isSome_iff : (lastNamed vs k).isSome ↔ k ∈ vs.map key := by
  rw [lastNamed, Option.isSome_iff_ne_none, Ne, List.getLast?_eq_none_iff, List.filter_eq_nil_iff,
    List.mem_map]
  simp only [beq_iff_eq, not_forall, not_not, exists_prop]

/-- What keeps names keeps the last value of a name. -/
theorem lastNamed_map {f : α → α} (hf : ∀ v, key (f v) = key v) (vs : List α) (k : String) :
    lastNamed (vs.map f) k = (lastNamed vs k).map f := by
  rw [lastNamed, lastNamed, List.filter_map, List.getLast?_map]
  congr 3
  funext v
  rw [Function.comp_apply, hf]

/-- Of the values that are put in, the last one of a name stays. -/
theorem find?_replaceAll (m : NameMap α) (vs : List α) (k : String) :
    (m.replaceAll vs).find? k = (lastNamed vs k).or (m.find? k) := by
  induction vs generalizing m with
  | nil => rfl
  | cons v rest ih =>
    show ((m.insertReplace v).2.replaceAll rest).find? k = _
    rw [ih, lastNamed_cons]
    cases lastNamed rest k with
    | some w => rfl
    | none =>
      by_cases hk : key v = k
      · rw [if_pos hk, ← hk, find?_insertReplace_self]
        rfl
      · rw [if_neg hk, find?_insertReplace_ne (Ne.symm hk)]
        rfl

/-- A value that is put in last need not be put in before, when all the others change no place. -/
theorem insertReplace_replaceAll (h : ∀ w ∈ vs, key w ∈ m.keys) (v : α) :
    (((m.insertReplace v).2.replaceAll vs).insertReplace v).2 =
      ((m.replaceAll vs).insertReplace v).2 := by
  induction vs generalizing m with
  | nil => exact insertReplace_insertReplace_same rfl
  | cons w rest ih =>
    obtain ⟨hw, hrest⟩ := List.forall_mem_cons.mp h
    show ((((m.insertReplace v).2.insertReplace w).2.replaceAll rest).insertReplace v).2 =
      (((m.insertReplace w).2.replaceAll rest).insertReplace v).2
    by_cases hkey : key w = key v
    · rw [insertReplace_insertReplace_same hkey.symm]
    · rw [insertReplace_comm hw hkey]
      exact ih fun w' hw' => mem_keys_insertReplace (hrest w' hw') w

theorem replaceAll_append (m : NameMap α) (vs ws : List α) :
    m.replaceAll (vs ++ ws) = (m.replaceAll vs).replaceAll ws := List.foldl_append

theorem replaceAll_replaceAll (m : NameMap α) (vs : List α) :
    (m.replaceAll vs).replaceAll vs = m.replaceAll vs := by
  -- From the end: the last value settles its own entry, and all names are there by then.
  induction vs using List.reverseRecOn with
  | nil => rfl
  | append_singleton vs v ih =>
    have hkeys : ∀ w ∈ vs, key w ∈ (m.replaceAll vs).keys := fun w hw =>
      mem_keys_replaceAll_iff.mpr (.inr (List.mem_map_of_mem hw))
    have hlast : ∀ m' : NameMap α, m'.replaceAll [v] = (m'.insertReplace v).2 := fun _ => rfl
    rw [replaceAll_append, replaceAll_append, hlast, hlast, insertReplace_replaceAll hkeys, ih]

theorem insertReplace_append {es more : List (String × α)} (h : key v ∉ es.map (·.1)) :
    (({ entries := es ++ more } : NameMap α).insertReplace v).2 =
      { entries := es ++ (({ entries := more } : NameMap α).insertReplace v).2.entries } := by
  have hkeys : key v ∈ (es ++ more).map (·.1) ↔ key v ∈ more.map (·.1) := by
    rw [List.map_append, List.mem_append]
    exact or_iff_right h
  by_cases hmem : key v ∈ more.map (·.1)
  · rw [insertReplace_of_mem (hkeys.mpr hmem), insertReplace_of_mem hmem, modify_append_of_notMem h]
  · rw [insertReplace_of_notMem (mt hkeys.mp hmem), insertReplace_of_notMem hmem, List.append_assoc]

/-- Values of other names are put behind the entries that are there. -/
theorem replaceAll_append_entries {es more : List (String × α)}
    (h : ∀ w ∈ vs, key w ∉ es.map (·.1)) :
    ({ entries := es ++ more } : NameMap α).replaceAll vs =
      { entries := es ++ (({ entries := more } : NameMap α).replaceAll vs).entries } := by
  induction vs generalizing more with
  | nil => rfl
  | cons v rest ih =>
    obtain ⟨hv, hrest⟩ := List.forall_mem_cons.mp h
    show (({ entries := es ++ more } : NameMap α).insertReplace v).2.replaceAll rest = _
    rw [insertReplace_append hv, ih hrest]
    rfl

end Replace

/-- Entries behind others go when all their names are removed, and the others stay if none of theirs
is. -/
theorem removeAll_append_entries {es more : List (String × α)} {names : List String}
    (hnodup : (more.map (·.1)).Nodup) (hmore : ∀ k ∈ more.map (·.1), k ∈ names.map lowerName)
    (hes : ∀ n ∈ names, lowerName n ∉ es.map (·.1)) :
    ({ entries := es ++ more } : NameMap α).removeAll names = { entries := es } := by
  induction names generalizing more with
  | nil =>
    have hnil : more = [] := List.map_eq_nil_iff.mp (List.eq_nil_iff_forall_not_mem.mpr fun k hk =>
      List.not_mem_nil (hmore k hk))
    rw [hnil, List.append_nil]
    rfl
  | cons n rest ih =>
    obtain ⟨hn, hrest⟩ := List.forall_mem_cons.mp hes
    have herase : (more.eraseP fun e => e.1 == lowerName n).map (·.1) =
        (more.map (·.1)).erase (lowerName n) :=
      (keys_remove ({ entries := more } : NameMap α) n)
    have hskip : ((es ++ more).eraseP fun e => e.1 == lowerName n) =
        es ++ more.eraseP fun e => e.1 == lowerName n := by
      refine List.eraseP_append_right _ fun e he hkey => hn ?_
      rw [← beq_iff_eq.mp hkey]
      exact List.mem_map_of_mem he
    show ({ entries := (es ++ more).eraseP fun e => e.1 == lowerName n } : NameMap α).removeAll rest = _
    rw [hskip]
    refine ih ?_ ?_ hrest
    · rw [herase]
      exact hnodup.erase _
    · intro k hk
      rw [herase, hnodup.mem_erase_iff] at hk
      have hmem := hmore k hk.2
      rw [List.map_cons, List.mem_cons] at hmem
      exact hmem.resolve_left hk.1

section Undo

variable [Named α] {m : NameMap α} {vs : List α}

/-- Values of new names are put in and taken out again. -/
theorem removeAll_replaceAll (h : ∀ w ∈ vs, key w ∉ m.keys) :
    (m.replaceAll vs).removeAll (vs.map key) = m := by
  have hindexed : ((empty : NameMap α).replaceAll vs).Indexed := indexed_empty.replaceAll vs
  have hentries : m.replaceAll vs =
      { entries := m.entries ++ ((empty : NameMap α).replaceAll vs).entries } := by
    have happend : ({ entries := m.entries ++ [] } : NameMap α).replaceAll vs = _ :=
      replaceAll_append_entries h
    rwa [List.append_nil] at happend
  have hlower : ∀ w : α, lowerName (key w) = key w := fun w => lowerName_lowerName _
  rw [hentries]
  refine removeAll_append_entries hindexed.nodup ?_ ?_
  · intro k hk
    have hkey := (mem_keys_replaceAll_iff.mp hk).resolve_left List.not_mem_nil
    obtain ⟨w, hw, rfl⟩ := List.mem_map.mp hkey
    exact List.mem_map.mpr ⟨key w, List.mem_map_of_mem hw, hlower w⟩
  · intro n hn
    obtain ⟨w, hw, rfl⟩ := List.mem_map.mp hn
    rw [hlower]
    exact h w hw

/-- The same, when the values are changed on their way in but keep their names. -/
theorem removeAll_replaceAll_map {f : α → α} (hf : ∀ v, key (f v) = key v)
    (h : ∀ v ∈ vs, m.contains (Named.name v) = false) :
    (m.replaceAll (vs.map f)).removeAll (vs.map key) = m := by
  have hkeys : (vs.map f).map key = vs.map key := by
    rw [List.map_map]
    exact List.map_congr_left fun v _ => hf v
  rw [← hkeys]
  refine removeAll_replaceAll (List.forall_mem_map.mpr fun v hv => ?_)
  rw [hf, ← find?_isSome_iff]
  exact Bool.eq_false_iff.mp (h v hv)

end Undo

end NameMap
end Inlay
