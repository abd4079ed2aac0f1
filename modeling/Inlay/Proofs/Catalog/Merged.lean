import Inlay.Proofs.Catalog.Inherited
import Inlay.Proofs.Types.Union

/-!
# Descriptions of one name, merged

What is known about an attribute or a property of a tag is said in up to twelve
places: the entries for the tag, the entries for the base of all elements, and the
members that belong to every tag, each in four layers.  The entries of a tag are merged
as lists, the members that belong to every tag as a map, and the view of the tag
merges these three again.

`Descriptor.Summarizes` says what a merged descriptor has to say of those that it was
made of, without an order of merging.  Merging two summaries summarizes both
(`Summarizes.merge`), so all stages together make one summary of the descriptions in
the order of the places: `Layers.Plain.summed_members`.
-/

namespace Inlay

/-! ## Provenance -/

theorem joinOrigins_eq {related : List Origin} (h : related.Nodup) (more : List Origin) :
    joinOrigins related more = (related ++ more).eraseDups := by
  induction more generalizing related with
  | nil =>
    rw [List.append_nil, eraseDups_of_nodup h]
    rfl
  | cons origin rest ih =>
    show joinOrigins (addOrigin related origin) rest = _
    by_cases hmem : origin ∈ related
    · have hcontains : related.contains origin = true := List.contains_iff_mem.mpr hmem
      rw [addOrigin, if_pos hcontains, ih h, List.eraseDups_append, List.eraseDups_append,
        List.cons_removeAll, hcontains, if_neg Bool.true_eq_false.mp]
    · have hcontains : ¬ related.contains origin = true := fun hc =>
        hmem (List.contains_iff_mem.mp hc)
      have hnodup : (related ++ [origin]).Nodup := by
        rw [← List.concat_eq_append]
        exact h.concat hmem
      rw [addOrigin, if_neg hcontains, ih hnodup, List.append_assoc, List.singleton_append]

/-! ## Summaries -/

namespace Descriptor

/-- `d` says what the listed descriptors say together. -/
structure Summarizes (d : Descriptor) (ds : List Descriptor) : Prop where
  type : d.type.Says (ds.map Descriptor.type)
  required : d.required = ds.any Descriptor.required
  description : d.description = ds.findSome? Descriptor.description
  declaration : d.declaration = ds.findSome? Descriptor.declaration
  fromTag : d.fromTag = ds.findSome? Descriptor.fromTag
  related : d.related = (ds.flatMap Descriptor.related).eraseDups

/-- The type of the descriptor is normal, and it lists no origin twice. -/
structure IsPlain (d : Descriptor) : Prop where
  type : d.type.IsNormal
  related : d.related.Nodup

variable {d d' : Descriptor} {ds ds' : List Descriptor}

theorem IsPlain.summarizes (h : d.IsPlain) : d.Summarizes [d] where
  type := h.type.says
  required := (Bool.or_false _).symm
  description := by cases hd : d.description <;> simp [hd]
  declaration := by cases hd : d.declaration <;> simp [hd]
  fromTag := by cases hd : d.fromTag <;> simp [hd]
  related := by
    rw [List.flatMap_cons, List.flatMap_nil, List.append_nil, eraseDups_of_nodup h.related]

theorem Summarizes.merge (h : d.Summarizes ds) (h' : d'.Summarizes ds') :
    (d.merge d').Summarizes (ds ++ ds') := by
  have hor : ∀ {α : Type} (a b : Option α), (a <|> b) = a.or b := fun a b => by cases a <;> rfl
  constructor
  · rw [List.map_append]
    exact h.type.merge h'.type
  · rw [List.any_append, ← h.required, ← h'.required, Descriptor.merge]
  · rw [List.findSome?_append, ← h.description, ← h'.description, ← hor, Descriptor.merge]
  · rw [List.findSome?_append, ← h.declaration, ← h'.declaration, ← hor, Descriptor.merge]
  · rw [List.findSome?_append, ← h.fromTag, ← h'.fromTag, ← hor, Descriptor.merge]
  · show joinOrigins d.related d'.related = _
    have hnodup : d.related.Nodup := h.related ▸ nodup_eraseDups _
    rw [joinOrigins_eq hnodup, h.related, h'.related, eraseDups_eraseDups_append,
      List.flatMap_append]

/-- `d` is what the listed descriptors, of one name, are merged to. -/
structure MergedFrom (d : Descriptor) (ds : List Descriptor) : Prop where
  any : (∀ x ∈ ds, x.type = .any) → d.type = .any
  type : (∃ x ∈ ds, x.type ≠ .any) → ∀ m, m ∈ d.type.members ↔
    m ∈ (StaticType.unionOf ((ds.map Descriptor.type).filter fun t => !t.isAny)).members
  required : d.required = true ↔ ∃ x ∈ ds, x.required = true
  description : d.description = ds.findSome? Descriptor.description
  declaration : d.declaration = ds.findSome? Descriptor.declaration
  fromTag : d.fromTag = ds.findSome? Descriptor.fromTag
  related : d.related = (ds.flatMap Descriptor.related).eraseDups

theorem Summarizes.mergedFrom (h : d.Summarizes ds) : d.MergedFrom ds where
  any hall := h.type.eq_any (List.forall_mem_map.mpr hall)
  type := fun ⟨x, hx, hne⟩ => h.type.mem_members_iff ⟨x.type, List.mem_map_of_mem hx, hne⟩
  required := by rw [h.required, List.any_eq_true]
  description := h.description
  declaration := h.declaration
  fromTag := h.fromTag
  related := h.related

end Descriptor

/-- What is found under a name summarizes the descriptors of that name. -/
inductive Summed : Option Descriptor → List Descriptor → Prop
  | nothing : Summed none []
  | found {d : Descriptor} {ds : List Descriptor} (described : ds ≠ []) (summary : d.Summarizes ds) :
      Summed (some d) ds

/-- Merge descriptors one by one into what has been found. -/
def mergeOnto (d? : Option Descriptor) (ds : List Descriptor) : Option Descriptor :=
  ds.foldl (fun d? d => d?.merge Descriptor.merge (some d)) d?

theorem mergeOnto_append (d? : Option Descriptor) (ds ds' : List Descriptor) :
    mergeOnto d? (ds ++ ds') = mergeOnto (mergeOnto d? ds) ds' :=
  List.foldl_append

theorem mergeOnto_none_toList (d? : Option Descriptor) : mergeOnto none d?.toList = d? := by
  cases d? <;> rfl

namespace Summed

variable {d? d?' : Option Descriptor} {ds ds' : List Descriptor}

theorem merge (h : Summed d? ds) (h' : Summed d?' ds') :
    Summed (mergeOnto d? d?'.toList) (ds ++ ds') := by
  cases h' with
  | nothing =>
    rw [List.append_nil]
    exact h
  | found hne' hsum' =>
    cases h with
    | nothing => exact .found hne' hsum'
    | found hne hsum =>
      exact .found (List.append_ne_nil_of_left_ne_nil hne _) (hsum.merge hsum')

theorem mergeOnto (h : Summed d? ds) (hplain : ∀ d ∈ ds', d.IsPlain) :
    Summed (mergeOnto d? ds') (ds ++ ds') := by
  induction ds' generalizing d? ds with
  | nil =>
    rw [List.append_nil]
    exact h
  | cons d rest ih =>
    obtain ⟨hd, hrest⟩ := List.forall_mem_cons.mp hplain
    have hone : Summed (some d) [d] := .found (List.cons_ne_nil d []) hd.summarizes
    rw [List.append_cons]
    exact ih (h.merge hone) hrest

theorem isSome_iff (h : Summed d? ds) : d?.isSome ↔ ds ≠ [] := by
  cases h with
  | nothing => exact iff_of_false Bool.false_ne_true (absurd rfl)
  | found hne _ => exact iff_of_true rfl hne

theorem summarizes {d : Descriptor} (h : Summed d? ds) (hd : d? = some d) : d.Summarizes ds := by
  cases h with
  | nothing => exact absurd hd (Option.some_ne_none d).symm
  | found _ hsum => exact Option.some.inj hd ▸ hsum

end Summed

/-! ## Descriptors of one name -/

/-- The descriptor has the name, in any case. -/
def named (name : String) (d : Descriptor) : Bool := sameName d.name name

section Lists

variable {name : String} {d : Descriptor} {ds more : List Descriptor}

theorem named_iff : named name d = true ↔ NameMap.key d = lowerName name := sameName_iff _ _

theorem find?_mergeInto (d : Descriptor) (ds : List Descriptor) :
    (mergeInto d ds).find? (named name) =
      mergeOnto (ds.find? (named name)) ([d].filter (named name)) := by
  induction ds with
  | nil =>
    by_cases hd : named name d = true <;> simp [mergeInto, mergeOnto, hd, Option.merge]
  | cons e rest ih =>
    rw [mergeInto]
    split
    · next hsame =>
      have heq : named name e = named name d := by
        rw [named, named, sameName, sameName, beq_iff_eq.mp hsame]
      have hmerge : named name (e.merge d) = named name e := rfl
      by_cases hd : named name d = true <;>
        simp [hmerge, heq, hd, mergeOnto, Option.merge]
    · next hsame =>
      rw [List.find?_cons, List.find?_cons, ih]
      by_cases he : named name e = true
      · have hd : ¬ named name d = true := fun hd =>
          hsame ((sameName_iff _ _).mpr ((named_iff.mp he).trans (named_iff.mp hd).symm))
        simp [he, hd, mergeOnto]
      · simp [he]

theorem find?_mergeLists (ds more : List Descriptor) :
    (mergeLists ds more).find? (named name) =
      mergeOnto (ds.find? (named name)) (more.filter (named name)) := by
  induction more generalizing ds with
  | nil => rfl
  | cons d rest ih =>
    show (mergeLists (mergeInto d ds) rest).find? _ = _
    rw [ih, find?_mergeInto, ← mergeOnto_append, ← List.filter_append, List.singleton_append]

theorem keys_mergeInto (d : Descriptor) (ds : List Descriptor) :
    (mergeInto d ds).map NameMap.key =
      if NameMap.key d ∈ ds.map NameMap.key then ds.map NameMap.key
      else ds.map NameMap.key ++ [NameMap.key d] := by
  induction ds with
  | nil => rfl
  | cons e rest ih =>
    rw [mergeInto]
    split
    · next hsame =>
      have hkey : NameMap.key d = NameMap.key e := ((sameName_iff _ _).mp hsame).symm
      rw [List.map_cons, List.map_cons, if_pos (hkey ▸ List.mem_cons_self)]
      rfl
    · next hsame =>
      have hkey : NameMap.key d ≠ NameMap.key e := fun hkey => hsame ((sameName_iff _ _).mpr hkey.symm)
      rw [List.map_cons, List.map_cons, ih]
      simp only [List.mem_cons, hkey, false_or]
      split <;> rfl

theorem Distinct.mergeLists (h : Distinct ds) (more : List Descriptor) :
    Distinct (mergeLists ds more) := by
  induction more generalizing ds with
  | nil => exact h
  | cons d rest ih =>
    refine ih ?_
    rw [Distinct, keys_mergeInto]
    exact nodup_append_of_new h _

theorem Distinct.filter_named (h : Distinct ds) :
    ds.filter (named name) = (ds.find? (named name)).toList := by
  induction ds with
  | nil => rfl
  | cons d rest ih =>
    obtain ⟨hd, hrest⟩ := List.nodup_cons.mp h
    rw [List.filter_cons, List.find?_cons]
    by_cases hnamed : named name d = true
    · have hnone : rest.filter (named name) = [] := by
        refine List.filter_eq_nil_iff.mpr fun e he hnamed' => hd ?_
        rw [named_iff.mp hnamed, ← named_iff.mp hnamed']
        exact List.mem_map_of_mem he
      rw [if_pos hnamed, hnamed, hnone]
      rfl
    · rw [if_neg hnamed, Bool.eq_false_iff.mpr hnamed]
      exact ih hrest

theorem Distinct.foldl_mergeLists (h : Distinct ds) (lists : List (List Descriptor)) :
    Distinct (lists.foldl Inlay.mergeLists ds) := by
  induction lists generalizing ds with
  | nil => exact h
  | cons l rest ih => exact ih (h.mergeLists l)

theorem find?_foldl_mergeLists (ds : List Descriptor) (lists : List (List Descriptor)) :
    (lists.foldl mergeLists ds).find? (named name) =
      mergeOnto (ds.find? (named name)) (lists.flatten.filter (named name)) := by
  induction lists generalizing ds with
  | nil => rfl
  | cons l rest ih =>
    rw [List.foldl_cons, ih, find?_mergeLists, ← mergeOnto_append, ← List.filter_append,
      List.flatten_cons]

theorem distinct_joinLists {lists : List (List Descriptor)} (h : ∀ ds ∈ lists, Distinct ds) :
    Distinct (joinLists lists) := by
  cases lists with
  | nil => exact List.nodup_nil
  | cons ds rest => exact (h ds List.mem_cons_self).foldl_mergeLists rest

/-- Joining the lists of several entries merges the descriptors of a name one by one.  The
first list is taken as it is, so it must not repeat the name itself. -/
theorem find?_joinLists {lists : List (List Descriptor)} (h : ∀ ds ∈ lists, Distinct ds) :
    (joinLists lists).find? (named name) = mergeOnto none (lists.flatten.filter (named name)) := by
  cases lists with
  | nil => rfl
  | cons ds rest =>
    rw [joinLists, find?_foldl_mergeLists, List.flatten_cons, List.filter_append, mergeOnto_append,
      (h ds List.mem_cons_self).filter_named, mergeOnto_none_toList]

end Lists

namespace NameMap

variable {m : NameMap Descriptor} {name : String}

theorem get?_mergeAll (m : NameMap Descriptor) (ds : List Descriptor) :
    (m.mergeAll ds).get? name = mergeOnto (m.get? name) (ds.filter (named name)) := by
  induction ds generalizing m with
  | nil => rfl
  | cons d rest ih =>
    show ((m.insertMerge d).mergeAll rest).get? name = _
    rw [ih, List.filter_cons]
    by_cases hnamed : named name d = true
    · have hkey : lowerName name = key d := (named_iff.mp hnamed).symm
      have hstep : (m.insertMerge d).get? name = (m.get? name).merge Descriptor.merge (some d) := by
        rw [get?, get?, hkey]
        exact find?_insertMerge_self m d
      rw [if_pos hnamed, hstep]
      rfl
    · have hkey : lowerName name ≠ key d := fun hkey => hnamed (named_iff.mpr hkey.symm)
      rw [if_neg hnamed, get?, find?_insertMerge_ne hkey, ← get?]

theorem key_merge (d d' : Descriptor) : key (Named.merge d d') = key d := rfl

theorem indexed_mergeAll (ds : List Descriptor) : ((empty : NameMap Descriptor).mergeAll ds).Indexed :=
  indexed_empty.mergeAll key_merge ds

theorem Indexed.filter_values (h : m.Indexed) :
    m.values.filter (named name) = (m.get? name).toList := by
  have hdistinct : Distinct m.values := by
    rw [Distinct, ← h.keys_eq]
    exact h.nodup
  have hfind : ∀ es : List (String × Descriptor), (∀ e ∈ es, e.1 = key e.2) →
      es.lookup (lowerName name) = (es.map (·.2)).find? (named name) := by
    intro es hkeyed
    induction es with
    | nil => rfl
    | cons e rest ih =>
      obtain ⟨k, d⟩ := e
      obtain ⟨hk, hrest⟩ := List.forall_mem_cons.mp hkeyed
      have hk : k = key d := hk
      have hnamed : (lowerName name == k) = named name d := by
        rw [hk, Bool.eq_iff_iff, beq_iff_eq, named_iff, eq_comm]
      rw [List.lookup_cons, List.map_cons, List.find?_cons, hnamed, ih hrest]
  rw [hdistinct.filter_named, get?, find?, hfind _ h.keyed]
  rfl

end NameMap

/-! ## Views of the layers -/

/-- The descriptors that a layer has in a category are plain. -/
structure Store.Plain (c : Category) (s : Store) : Prop where
  entries : ∀ key, ∀ d ∈ membersOf (s.tags.find? key) c, d.IsPlain
  globals : ∀ d ∈ (s.globals.get c).values, d.IsPlain

namespace Layers

variable {ls : Layers} {c : Category}

/-- The members that the entries under a key have, in the order of the layers. -/
def entryMembers (ls : Layers) (c : Category) (key : String) : List Descriptor :=
  (ls.toList.filterMap fun s => s.tags.find? key).flatMap fun t => t.members.get c

/-- The members that belong to every tag, in the order of the layers. -/
def globalMembers (ls : Layers) (c : Category) : List Descriptor :=
  ls.toList.flatMap fun s => (s.globals.get c).values

/-- The descriptions of a name that the view of a tag is made of: those of its entries, those
of the entries of the base of all elements, and those that belong to every tag. -/
def described (ls : Layers) (extension : Option String) (c : Category) (key name : String) :
    List Descriptor :=
  (ls.entryMembers c key ++ extension.toList.flatMap (ls.entryMembers c) ++ ls.globalMembers c).filter
    (named name)

/-- The descriptors of a category are plain, and no entry repeats a name. -/
structure Plain (c : Category) (ls : Layers) : Prop where
  stores : ∀ layer, (ls.get layer).Plain c
  distinct : ls.Distinct c

namespace Plain

theorem entryMembers (h : ls.Plain c) {key : String} : ∀ d ∈ ls.entryMembers c key, d.IsPlain := by
  intro d hd
  rw [Layers.entryMembers, toList_eq, List.filterMap_map] at hd
  obtain ⟨t, ht, hd⟩ := List.mem_flatMap.mp hd
  obtain ⟨layer, -, hfind⟩ := List.mem_filterMap.mp ht
  have hfind : (ls.get layer).tags.find? key = some t := hfind
  refine (h.stores layer).entries key d ?_
  rw [hfind]
  exact hd

theorem globalMembers (h : ls.Plain c) : ∀ d ∈ ls.globalMembers c, d.IsPlain := by
  intro d hd
  rw [Layers.globalMembers, toList_eq, List.flatMap_map] at hd
  obtain ⟨layer, -, hd⟩ := List.mem_flatMap.mp hd
  exact (h.stores layer).globals d hd

theorem distinct_entries (h : ls.Plain c) (key : String) :
    ∀ ds ∈ (ls.toList.filterMap fun s => s.tags.find? key).map (fun t => t.members.get c),
      Inlay.Distinct ds := by
  intro ds hds
  rw [toList_eq, List.filterMap_map] at hds
  obtain ⟨t, ht, rfl⟩ := List.mem_map.mp hds
  obtain ⟨layer, -, hfind⟩ := List.mem_filterMap.mp ht
  have hfind : (ls.get layer).tags.find? key = some t := hfind
  have hentry := h.distinct layer key
  rw [hfind] at hentry
  exact hentry

theorem distinct_tag? (h : ls.Plain c) (key : String) :
    Inlay.Distinct (membersOf (ls.tag? key) c) := by
  rw [tag?, membersOf_joinTags]
  exact distinct_joinLists (h.distinct_entries key)

/-- The entries of a tag are joined to what they say of each name. -/
theorem summed_tag? (h : ls.Plain c) (key name : String) :
    Summed ((membersOf (ls.tag? key) c).find? (named name))
      ((ls.entryMembers c key).filter (named name)) := by
  rw [tag?, membersOf_joinTags, find?_joinLists (h.distinct_entries key)]
  exact Summed.nothing.mergeOnto fun d (hd : d ∈ (ls.entryMembers c key).filter (named name)) =>
    h.entryMembers d (List.mem_filter.mp hd).1

theorem summed_globals (h : ls.Plain c) (name : String) :
    Summed ((ls.globals c).get? name) ((ls.globalMembers c).filter (named name)) := by
  rw [Layers.globals, NameMap.get?_mergeAll]
  exact Summed.nothing.mergeOnto fun d (hd : d ∈ (ls.globalMembers c).filter (named name)) =>
    h.globalMembers d (List.mem_filter.mp hd).1

theorem distinct_base (h : ls.Plain c) (e : Option String) :
    Inlay.Distinct (membersOf (e.bind ls.tag?) c) := by
  cases e with
  | none => exact List.nodup_nil
  | some key => exact h.distinct_tag? key

/-- The base of all elements is joined as any tag is. -/
theorem summed_base (h : ls.Plain c) (e : Option String) (name : String) :
    Summed ((membersOf (e.bind ls.tag?) c).find? (named name))
      ((e.toList.flatMap (ls.entryMembers c)).filter (named name)) := by
  cases e with
  | none => exact .nothing
  | some key =>
    rw [Option.toList_some, List.flatMap_singleton]
    exact h.summed_tag? key name

/-- The view of a tag summarizes, for every name, what is said of it. -/
theorem summed_members (h : ls.Plain c) (hevents : c ≠ .events) (hslots : c ≠ .slots)
    (e : Option String) (key name : String) :
    Summed ((ls.members e c key).get? name) (ls.described e c key name) := by
  have hinherited : c.isInherited = true := by
    cases c <;> first | rfl | exact absurd rfl hslots
  have hglobals : (ls.globals c).Indexed := NameMap.indexed_mergeAll _
  -- The view merges what the three kinds of places have been joined to already, and of each it
  -- takes one descriptor of the name, or none.
  have hview : (ls.members e c key).get? name =
      mergeOnto (mergeOnto (mergeOnto none ((membersOf (ls.tag? key) c).find? (named name)).toList)
        ((membersOf (e.bind ls.tag?) c).find? (named name)).toList)
        ((ls.globals c).get? name).toList := by
    rw [members_of_ne_events hevents, joined, if_pos hinherited, NameMap.get?_mergeAll,
      List.filter_append, List.filter_append, mergeOnto_append, mergeOnto_append,
      (h.distinct_tag? key).filter_named, (h.distinct_base e).filter_named, hglobals.filter_values]
    rfl
  rw [hview, described, List.filter_append, List.filter_append, mergeOnto_none_toList]
  exact ((h.summed_tag? key name).merge (h.summed_base e name)).merge (h.summed_globals name)

end Plain

end Layers

/-! ## What is put into the layers -/

namespace Descriptor

/-- The type of the descriptor is normal, and nothing is said of where it comes from. -/
structure IsBare (d : Descriptor) : Prop where
  type : d.type.IsNormal
  related : d.related = []

variable {d : Descriptor}

theorem IsBare.stamp (h : d.IsBare) (origin : Origin) : (d.stamp origin).IsPlain where
  type := h.type
  related := by
    show (addOrigin d.related origin).Nodup
    rw [h.related]
    exact List.nodup_singleton origin

theorem IsPlain.ofTag (h : d.IsPlain) (tag : String) : (d.ofTag tag).IsPlain := ⟨h.type, h.related⟩

end Descriptor

/-- The descriptors of a category that are put in have normal types and no provenance, and
no tag repeats a name. -/
def Mutation.Plain (c : Category) : Mutation → Prop
  | .absorb _ coll =>
    (∀ t ∈ coll.tags, Inlay.Distinct (t.members.get c) ∧ ∀ d ∈ t.members.get c, d.IsBare) ∧
      ∀ d ∈ coll.globals.get c, d.IsBare
  | .forget _ _ | .clearLayer _ | .setExtension _ => True

theorem Mutation.Plain.distinct {c : Category} {m : Mutation} (h : m.Plain c) : m.Distinct c := by
  cases m with
  | absorb layer coll => exact fun t ht => (h.1 t ht).1
  | forget _ _ => trivial
  | clearLayer _ => trivial
  | setExtension _ => trivial

theorem isPlain_of_mem_stamp {c : Category} {t : Tag} (h : ∀ d ∈ t.members.get c, d.IsBare)
    (layer : Layer) : ∀ d ∈ (t.stamp layer).members.get c, d.IsPlain := by
  intro d hd
  rw [Tag.stamp, Shelf.get_ofFn] at hd
  obtain ⟨bare, hbare, rfl⟩ := List.mem_map.mp hd
  split
  · exact ((h bare hbare).stamp _).ofTag t.name
  · exact (h bare hbare).stamp _

namespace Store

variable {s : Store} {c : Category}

theorem plain_empty : ({} : Store).Plain c where
  entries key := List.forall_mem_nil _
  globals d hd := by cases c <;> exact absurd hd List.not_mem_nil

theorem Plain.absorb (h : s.Plain c) {layer : Layer} {coll : Collection}
    (hcoll : Mutation.Plain c (.absorb layer coll)) : (s.absorb layer coll).2.Plain c where
  entries key := by
    rw [absorb_tags]
    by_cases hkey : key ∈ coll.tags.map NameMap.key
    · obtain ⟨t, ht, _, hnew⟩ := find?_putTags_of_mem layer hkey
      rw [hnew]
      exact isPlain_of_mem_stamp (hcoll.1 t ht).2 layer
    · rw [find?_putTags_of_notMem layer hkey]
      exact h.entries key
  globals d hd := by
    rw [absorb_globals] at hd
    rcases NameMap.mem_values_replaceAll hd with hd | hd
    · exact h.globals d hd
    · obtain ⟨bare, hbare, rfl⟩ := List.mem_map.mp hd
      exact (hcoll.2 bare hbare).stamp _

theorem Plain.forget (hs : s.tags.Indexed) (h : s.Plain c) (names : Names) :
    (s.forget names).2.Plain c where
  entries key := by
    rw [forget_tags]
    by_cases hkey : key ∈ names.tags.map lowerName
    · rw [find?_takeTags_of_mem hs hkey]
      exact List.forall_mem_nil _
    · rw [find?_takeTags_of_notMem hkey]
      exact h.entries key
  globals d hd := by
    rw [forget_globals] at hd
    exact h.globals d (NameMap.mem_values_removeAll hd)

end Store

namespace Layers

variable {ls : Layers} {c : Category}

theorem plain_empty : ({} : Layers).Plain c where
  stores layer := by cases layer <;> exact Store.plain_empty
  distinct := distinct_empty

theorem Plain.mutate (hls : ls.Indexed) (h : ls.Plain c) {m : Mutation} (hm : m.Plain c) :
    (m.layers ls).Plain c where
  stores := by
    cases m with
    | absorb layer coll =>
      exact forall_get_set (P := fun _ s => s.Plain c) h.stores ((h.stores layer).absorb hm)
    | forget layer names =>
      exact forall_get_set (P := fun _ s => s.Plain c) h.stores
        ((h.stores layer).forget (hls layer) names)
    | clearLayer layer =>
      exact forall_get_set (P := fun _ s => s.Plain c) h.stores Store.plain_empty
    | setExtension name => exact h.stores
  distinct := h.distinct.mutate hls hm.distinct

end Layers

/-! ## Runs -/

namespace Knowledge

variable {c : Category}

/-- Plain collections make plain layers, whatever is taken out and asked in between. -/
theorem plain_run {kb : Knowledge} (hls : kb.layers.Indexed) (h : kb.layers.Plain c)
    {as : List Action} (has : ∀ m ∈ Action.mutations as, m.Plain c) : (kb.run as).layers.Plain c := by
  induction as generalizing kb with
  | nil => exact h
  | cons a rest ih =>
    cases a with
    | ask q =>
      have hlayers := layers_record kb q
      exact ih (hlayers ▸ hls) (hlayers ▸ h) has
    | mutate m =>
      obtain ⟨hm, hrest⟩ := List.forall_mem_cons.mp has
      have hlayers := layers_mutate kb m
      exact ih (hlayers ▸ hls.mutate m) (hlayers ▸ h.mutate hls hm) hrest

/-- In the categories whose views are dropped when the base of all elements is touched, what
is read is what the layers give. -/
theorem run_members_eq (as : List Action) (hc : c ≠ .events) (hinherits : Plan.inherits c = true)
    (tag : String) : (run {} as).members c tag =
      (run {} as).layers.members (run {} as).extension c (lowerName tag) := by
  have hstart : Coherent (· = c) {} := ⟨by decide, Memo.sound_empty _ _ _⟩
  have hms : Mutation.Each (Change.KeepsIn (· = c)) {} (some "htmlelement") (Action.mutations as) :=
    .of_covers (fun hcovers c' hc' => hc' ▸ hcovers.keeps_of_inherits hc hinherits) _ _ _
  exact (hstart.run hms List.prefix_rfl).members_eq rfl tag

/-- For every name, the attributes and the properties that are read for a tag hold what its
descriptions are merged to, and nothing if there are none. -/
theorem run_members_mergedFrom (as : List Action) (hc : c = .attributes ∨ c = .properties)
    (h : (run {} as).layers.Plain c) (tag name : String) :
    ((((run {} as).members c tag).get? name).isSome ↔
        (run {} as).layers.described (run {} as).extension c (lowerName tag) name ≠ []) ∧
      ∀ d, ((run {} as).members c tag).get? name = some d →
        d.MergedFrom ((run {} as).layers.described (run {} as).extension c (lowerName tag) name) := by
  have hevents : c ≠ .events := by rcases hc with rfl | rfl <;> exact nofun
  have hslots : c ≠ .slots := by rcases hc with rfl | rfl <;> exact nofun
  have hinherits : Plan.inherits c = true := by rcases hc with rfl | rfl <;> rfl
  rw [run_members_eq as hevents hinherits]
  have hsummed := h.summed_members hevents hslots (run {} as).extension (lowerName tag) name
  exact ⟨hsummed.isSome_iff, fun d hd => (hsummed.summarizes hd).mergedFrom⟩

/-- A collection of one tag with attributes. -/
def tagWithAttributes (name : String) (attributes : List Descriptor) : Collection :=
  { tags := [{ name := name, members := (Shelf.ofFn fun _ => []).set .attributes attributes }] }

/-- An attribute that every place describes, each with another type. -/
def describedSize : List Action :=
  [.mutate (.absorb .extension
      { globals := (Shelf.ofFn fun _ => []).set .attributes [{ name := "SIZE", type := .boolean }] }),
    .mutate (.absorb .userConfig
      (tagWithAttributes "x-item" [{ name := "size", type := .stringLiteral "small" }])),
    .ask (.members .attributes "x-item"),
    .mutate (.absorb .discovered (tagWithAttributes "X-Item"
      [{ name := "Size", type := .string, required := true, description := some "how big" }])),
    .mutate (.absorb .builtIn (tagWithAttributes "HTMLElement" [{ name := "size" }]))]

theorem plain_describedSize : (run {} describedSize).layers.Plain .attributes := by
  have hbare : ∀ d : Descriptor, StaticType.IsSingle d.type → d.related = [] → d.IsBare :=
    fun d htype hrelated => ⟨StaticType.isNormal_of_isSingle htype, hrelated⟩
  have htag : ∀ layer name d, d.IsBare →
      Mutation.Plain .attributes (.absorb layer (tagWithAttributes name [d])) := by
    intro layer name d hd
    refine ⟨List.forall_mem_singleton.mpr ⟨List.nodup_singleton _, ?_⟩, List.forall_mem_nil _⟩
    exact List.forall_mem_singleton.mpr hd
  refine plain_run Layers.indexed_empty Layers.plain_empty (List.forall_mem_cons.mpr ⟨?_, ?_⟩)
  · refine ⟨List.forall_mem_nil _, List.forall_mem_singleton.mpr ?_⟩
    exact hbare _ rfl rfl
  · refine List.forall_mem_cons.mpr ⟨?_, List.forall_mem_cons.mpr ⟨?_, List.forall_mem_singleton.mpr ?_⟩⟩
    · exact htag _ _ _ (hbare _ rfl rfl)
    · exact htag _ _ _ (hbare _ rfl rfl)
    · exact htag _ _ _ (hbare _ rfl rfl)

/-- The origins are listed in the order of the places: first the tag, then the base of all
elements, then what belongs to every tag. -/
theorem describedSize_mergedFrom :
    (run {} describedSize).layers.Plain .attributes ∧
      ∃ d, ((run {} describedSize).members .attributes "x-item").get? "size" = some d ∧
        d.required = true ∧ d.description = some "how big" ∧
        d.related.map Origin.layer = [.userConfig, .discovered, .builtIn, .extension] ∧
        StaticType.string ∈ d.type.members ∧ StaticType.boolean ∈ d.type.members := by
  have h := run_members_mergedFrom describedSize (.inl rfl) plain_describedSize "x-item" "size"
  obtain ⟨d, hd⟩ := Option.isSome_iff_exists.mp (h.1.mpr (by decide +kernel))
  have hmerged := h.2 d hd
  have hsome : ∃ x ∈ (run {} describedSize).layers.described (run {} describedSize).extension
      .attributes (lowerName "x-item") "size", x.type ≠ .any := by
    have hnotAny : ((run {} describedSize).layers.described (run {} describedSize).extension
        .attributes (lowerName "x-item") "size").any (fun x => !x.type.isAny) = true := by
      decide +kernel
    obtain ⟨x, hx, hne⟩ := List.any_eq_true.mp hnotAny
    refine ⟨x, hx, fun heq => ?_⟩
    rw [heq] at hne
    cases hne
  refine ⟨plain_describedSize, d, hd, hmerged.required.mpr (by decide +kernel),
    hmerged.description.trans (by decide +kernel), ?_, ?_, ?_⟩
  · rw [hmerged.related]
    decide +kernel
  · exact (hmerged.type hsome _).mpr (StaticType.isAtom_string.isIn_iff.mp (by decide +kernel))
  · exact (hmerged.type hsome _).mpr (StaticType.isAtom_boolean.isIn_iff.mp (by decide +kernel))

end Knowledge
end Inlay
