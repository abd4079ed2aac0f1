import Inlay.Proofs.Catalog.Merged

/-!
# Names in views of members

A view of members lists no name twice, up to case, and stands under the keys of its names.  So what
is listed in a view and what is found in it by name is the same: `NameMap.Indexed.mem_names_iff`.
That holds of every view that is read, also of one that was put into the memo some time ago
(`Knowledge.indexed_run_members`), since every view is put together by the operations of maps.

A name is found in the spelling in which it was declared first.  The descriptors of a name are
merged, and a merged descriptor keeps the name of the one that came before, so that the later
spellings are lost: `Knowledge.name_run_slots`.
-/

namespace Inlay

namespace NameMap

variable {m : NameMap Descriptor} {name : String}

theorem Indexed.mem_values_iff (h : m.Indexed) {d : Descriptor} :
    d ∈ m.values ↔ m.get? d.name = some d := by
  have hnamed : named d.name d = true := sameName_refl d.name
  rw [← Option.mem_toList, ← h.filter_values, List.mem_filter]
  exact ⟨fun hd => ⟨hd, hnamed⟩, fun hd => hd.1⟩

/-- A name is listed if it is found, spelled like this. -/
theorem Indexed.mem_names_iff (h : m.Indexed) :
    name ∈ m.names ↔ (m.get? name).map Descriptor.name = some name := by
  rw [names, List.mem_map, Option.map_eq_some_iff]
  constructor
  · rintro ⟨d, hd, rfl⟩
    exact ⟨d, h.mem_values_iff.mp hd, rfl⟩
  · rintro ⟨d, hd, rfl⟩
    exact ⟨d, h.mem_values_iff.mpr hd, rfl⟩

theorem Indexed.contains_of_mem_names (h : m.Indexed) (hname : name ∈ m.names) :
    m.contains name = true := by
  rw [contains, ← Option.isSome_map, h.mem_names_iff.mp hname, Option.isSome_some]

theorem Indexed.names_ne_nil (h : m.Indexed) (hfound : m.contains name = true) : m.names ≠ [] := by
  obtain ⟨d, hd⟩ := Option.isSome_iff_exists.mp hfound
  have hmem : d ∈ m.values.filter (named name) := by
    rw [h.filter_values, hd]
    exact List.mem_singleton_self d
  exact List.ne_nil_of_mem (List.mem_map_of_mem (List.mem_filter.mp hmem).1)

end NameMap

/-! ## Views that are read -/

/-- The views of members in the memo list no name twice. -/
def Memo.Keyed (m : Memo) : Prop := ∀ c, ∀ e ∈ m.members.get c, e.2.Indexed

theorem Memo.keyed_empty : ({} : Memo).Keyed := by
  intro c
  cases c <;> exact List.forall_mem_nil _

theorem Memo.Keyed.apply {m : Memo} (h : m.Keyed) (p : Plan) : (m.apply p).Keyed := by
  intro c e he
  rw [Memo.apply, Shelf.get_ofFn] at he
  split at he
  · exact absurd he List.not_mem_nil
  · exact h c e (List.mem_filter.mp he).1

namespace Knowledge

variable {kb : Knowledge}

theorem indexed_membersAt (h : kb.memo.Keyed) (c : Category) (key : String) :
    (kb.membersAt c key).Indexed := by
  have hjoined : ∀ own base globals, (joined c own base globals).Indexed :=
    fun _ _ _ => NameMap.indexed_mergeAll _
  rw [membersAt]
  split
  · next view hview =>
    obtain ⟨before, behind, hentries, -⟩ := List.lookup_eq_some_iff.mp hview
    exact h c (key, view) (hentries ▸ List.mem_append_right before List.mem_cons_self)
  · dsimp only
    split
    · exact (hjoined _ _ _).fillWith _
    · exact hjoined _ _ _

/-! A question about anything but members leaves the views of members alone. -/

theorem members_recordTag (kb : Knowledge) (key : String) :
    (kb.recordTag key).memo.members = kb.memo.members := by
  rw [recordTag]
  split <;> rfl

theorem members_foldl_recordTag (keys : List String) (kb : Knowledge) :
    (keys.foldl recordTag kb).memo.members = kb.memo.members := by
  induction keys generalizing kb with
  | nil => rfl
  | cons key rest ih => rw [List.foldl_cons, ih, members_recordTag]

theorem members_recordTags (kb : Knowledge) : kb.recordTags.memo.members = kb.memo.members := by
  rw [recordTags]
  split
  · rfl
  · exact members_foldl_recordTag _ kb

theorem members_recordBase (kb : Knowledge) : kb.recordBase.memo.members = kb.memo.members := by
  rw [recordBase]
  split
  · exact members_recordTag kb _
  · rfl

theorem members_recordParts (kb : Knowledge) (c : Category) (key : String) :
    (kb.recordParts c key).memo.members = kb.memo.members := by
  have hentries : (kb.recordEntries c key).memo.members = kb.memo.members := by
    rw [recordEntries]
    split
    · rw [members_recordBase, members_recordTag]
    · exact members_recordTag kb key
  rw [recordParts]
  split
  · rw [members_recordTags]
    exact hentries
  · exact hentries

theorem keyed_recordMembers (h : kb.memo.Keyed) (c : Category) (key : String) :
    (kb.recordMembers c key).memo.Keyed := by
  rw [recordMembers_eq]
  split
  · exact h
  · have hparts : (kb.recordParts c key).memo.Keyed := by
      rw [Memo.Keyed, members_recordParts]
      exact h
    intro c' e he
    -- The new view is made from a memo that is keyed; all others were there.
    by_cases hc : c' = c
    · subst hc
      rw [Shelf.get_set_self] at he
      rcases List.mem_cons.mp he with rfl | he
      · exact indexed_membersAt hparts c' key
      · exact hparts c' e he
    · rw [Shelf.get_set_ne _ _ hc] at he
      exact hparts c' e he

theorem keyed_record (h : kb.memo.Keyed) (q : Question) : (kb.record q).memo.Keyed := by
  cases q with
  | tag key =>
    rw [record, Memo.Keyed, members_recordTag]
    exact h
  | tags =>
    rw [record, Memo.Keyed, members_recordTags]
    exact h
  | globals c => exact h
  | members c key => exact keyed_recordMembers h c key

theorem keyed_mutate (h : kb.memo.Keyed) (m : Mutation) : (kb.mutate m).memo.Keyed := by
  cases hc : m.change? kb.layers with
  | none =>
    rw [mutate_of_change?_none hc]
    exact Memo.keyed_empty
  | some change =>
    rw [mutate_of_change? hc]
    exact h.apply _

theorem keyed_run (h : kb.memo.Keyed) (as : List Action) : (kb.run as).memo.Keyed := by
  induction as generalizing kb with
  | nil => exact h
  | cons a rest ih =>
    cases a with
    | mutate m => exact ih (keyed_mutate h m)
    | ask q => exact ih (keyed_record h q)

/-- Every view of members that is read lists no name twice. -/
theorem indexed_run_members (as : List Action) (c : Category) (tag : String) :
    ((run {} as).members c tag).Indexed :=
  indexed_membersAt (keyed_run Memo.keyed_empty as) c (lowerName tag)

end Knowledge

/-! ## The spelling of a name -/

/-- The first of some names that is a given one, in any case. -/
def firstSpelled (name : String) (names : List String) : Option String :=
  names.find? fun w => sameName w name

section Spelling

variable {name : String} {names : List String}

theorem firstSpelled_isSome (h : name ∈ names) : (firstSpelled name names).isSome :=
  List.find?_isSome.mpr ⟨name, h, sameName_refl name⟩

/-- A name does not come first in its own spelling if it is not there, or comes later. -/
theorem firstSpelled_ne_iff : firstSpelled name names ≠ some name ↔
    name ∉ names ∨ ∃ first, firstSpelled name names = some first ∧ first ≠ name := by
  constructor
  · intro hne
    by_cases hmem : name ∈ names
    · obtain ⟨first, hfirst⟩ := Option.isSome_iff_exists.mp (firstSpelled_isSome hmem)
      exact .inr ⟨first, hfirst, fun heq => hne (heq ▸ hfirst)⟩
    · exact .inl hmem
  · rintro (hmem | ⟨first, hfirst, hne⟩) hname
    · exact hmem (List.mem_of_find?_eq_some hname)
    · exact hne (Option.some.inj (hfirst.symm.trans hname))

/-- Only the empty name is the same as the empty name. -/
theorem eq_empty_of_sameName (h : sameName name "" = true) : name = "" := by
  have hlower : lowerName name = "" := (sameName_iff _ _).mp h
  have hlist : name.toList.map lowerChar = [] := String.ofList_injective hlower
  exact String.toList_eq_nil_iff.mp (List.map_eq_nil_iff.mp hlist)

theorem firstSpelled_empty_iff : firstSpelled "" names = some "" ↔ "" ∈ names := by
  constructor
  · exact List.mem_of_find?_eq_some
  · intro hmem
    obtain ⟨first, hfirst⟩ := Option.isSome_iff_exists.mp (firstSpelled_isSome hmem)
    have hsame : sameName first "" = true :=
      List.find?_some (p := fun w => sameName w "") hfirst
    rwa [eq_empty_of_sameName hsame] at hfirst

end Spelling

/-- A merged descriptor has the name of the first one. -/
theorem name_mergeOnto (d? : Option Descriptor) (ds : List Descriptor) :
    (mergeOnto d? ds).map Descriptor.name = (d?.or ds.head?).map Descriptor.name := by
  induction ds generalizing d? with
  | nil =>
    rw [List.head?_nil, Option.or_none]
    rfl
  | cons d rest ih =>
    show (mergeOnto (d?.merge Descriptor.merge (some d)) rest).map _ = _
    rw [ih]
    cases d? with
    | none => rfl
    | some first => rfl

section Lists

variable {name : String}

theorem name_find?_append (ds more : List Descriptor) :
    ((ds ++ more).find? (named name)).map Descriptor.name =
      (mergeOnto (ds.find? (named name)) (more.filter (named name))).map Descriptor.name := by
  rw [name_mergeOnto, List.head?_filter, List.find?_append]

theorem name_find?_joinLists (lists : List (List Descriptor)) :
    ((joinLists lists).find? (named name)).map Descriptor.name =
      (lists.flatten.find? (named name)).map Descriptor.name := by
  cases lists with
  | nil => rfl
  | cons ds rest => rw [joinLists, find?_foldl_mergeLists, List.flatten_cons, name_find?_append]

theorem NameMap.name_get?_mergeAll (ds : List Descriptor) :
    (((empty : NameMap Descriptor).mergeAll ds).get? name).map Descriptor.name =
      (ds.find? (named name)).map Descriptor.name := by
  rw [get?_mergeAll, name_mergeOnto, List.head?_filter]
  rfl

theorem NameMap.Indexed.find?_values {m : NameMap Descriptor} (h : m.Indexed) :
    m.values.find? (named name) = m.get? name :=
  (h.get?_eq_find? name).symm

theorem firstSpelled_map_name (ds : List Descriptor) :
    firstSpelled name (ds.map Descriptor.name) = (ds.find? (named name)).map Descriptor.name := by
  rw [firstSpelled, List.find?_map]
  rfl

end Lists

namespace Layers

variable {ls : Layers} {name : String}

/-- The names of the slots that the layers declare for a tag, and of those that belong to every
tag. -/
def slotNames (ls : Layers) (tag : String) : List String :=
  (ls.entryMembers .slots (lowerName tag) ++ ls.globalMembers .slots).map Descriptor.name

theorem name_find?_tag? (c : Category) (key : String) :
    ((membersOf (ls.tag? key) c).find? (named name)).map Descriptor.name =
      ((ls.entryMembers c key).find? (named name)).map Descriptor.name := by
  rw [tag?, membersOf_joinTags, name_find?_joinLists]
  rfl

theorem name_get?_globals (c : Category) :
    ((ls.globals c).get? name).map Descriptor.name =
      ((ls.globalMembers c).find? (named name)).map Descriptor.name :=
  NameMap.name_get?_mergeAll _

/-- The first of the places that have a name gives its spelling. -/
theorem name_get?_joined (c : Category) (own base : Option Tag) {globals : NameMap Descriptor}
    (hglobals : globals.Indexed) :
    ((joined c own base globals).get? name).map Descriptor.name =
      ((((membersOf own c).find? (named name)).map Descriptor.name).or
        (((if c.isInherited then membersOf base c else []).find? (named name)).map
          Descriptor.name)).or ((globals.get? name).map Descriptor.name) := by
  rw [joined, NameMap.name_get?_mergeAll, List.find?_append, List.find?_append, Option.map_or,
    Option.map_or, hglobals.find?_values]

/-- A slot is found if it is declared, in the spelling that is declared first. -/
theorem name_get?_slots (e : Option String) (tag : String) :
    ((ls.members e .slots (lowerName tag)).get? name).map Descriptor.name =
      firstSpelled name (ls.slotNames tag) := by
  have hevents : Category.slots ≠ .events := nofun
  have hinherited : ¬ Category.slots.isInherited = true := Bool.false_ne_true
  have hglobals : (ls.globals .slots).Indexed := NameMap.indexed_mergeAll _
  rw [members_of_ne_events hevents, name_get?_joined _ _ _ hglobals, if_neg hinherited, List.find?_nil,
    Option.map_none, Option.or_none, slotNames, firstSpelled_map_name, List.find?_append,
    Option.map_or, name_find?_tag?, name_get?_globals]

end Layers

/-- Views of slots are dropped when anything that they are made of changes, so the same holds of those
that are read. -/
theorem Knowledge.name_run_slots (as : List Action) (tag name : String) :
    (((run {} as).members .slots tag).get? name).map Descriptor.name =
      firstSpelled name ((run {} as).layers.slotNames tag) := by
  have hevents : Category.slots ≠ .events := nofun
  rw [run_members_eq as hevents rfl, Layers.name_get?_slots]

end Inlay
