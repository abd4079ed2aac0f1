import Inlay.Proofs.Catalog.Run

/-!
# Categories that a change does not touch

A change says of events, css parts and css properties whether one of the touched
tags has such members.  If none has, no entry of a layer gains or loses a member of
the category: `untouched`.  This needs layers that hold one entry under a
key, since otherwise taking an entry out uncovers another.

What the layers then say about the whole tag is a matter of how lists of members
are joined.  An empty list is neutral behind another one.  It is not neutral in
front: a list that is joined to an empty one is joined with itself, which changes
it when it repeats a name.
-/

namespace Inlay

/-- Every layer holds one entry under a key, and each under its own. -/
def Layers.Indexed (ls : Layers) : Prop := ∀ layer, (ls.get layer).tags.Indexed

theorem Layers.indexed_empty : ({} : Layers).Indexed := by
  intro layer
  cases layer <;> exact NameMap.indexed_empty

theorem Layers.Indexed.set {ls : Layers} (h : ls.Indexed) {layer : Layer} {s : Store}
    (hs : s.tags.Indexed) : (ls.set layer s).Indexed :=
  forall_get_set (P := fun _ s => s.tags.Indexed) h hs

theorem Layers.Indexed.mutate {ls : Layers} (h : ls.Indexed) (m : Mutation) :
    (m.layers ls).Indexed := by
  cases m with
  | absorb layer c => exact h.set (Store.indexed_putTags layer (h layer) c.tags)
  | forget layer names => exact h.set (Store.indexed_takeTags (h layer) names.tags)
  | clearLayer layer => exact h.set NameMap.indexed_empty
  | setExtension name => exact h

namespace Change

/-- Changes say whether touched tags have members of the category. -/
def tracks : Category → Bool
  | .events | .cssParts | .cssProperties => true
  | .attributes | .properties | .slots => false

theorem anyHas_eq_false_iff {c : Category} {ts : List Tag} :
    anyHas c ts = false ↔ ∀ t ∈ ts, t.members.get c = [] := by
  rw [anyHas, List.any_eq_false]
  refine forall₂_congr fun t _ => ?_
  rw [Bool.not_eq_true, Bool.not_eq_false', List.isEmpty_iff]

theorem touches_ofNames_iff {names : Names} {ts : List Tag} {c : Category} :
    (ofNames names ts).touches c = true ↔
      names.globals.get c ≠ [] ∨ (tracks c = true ∧ anyHas c ts = true) := by
  cases c <;> simp [touches, ofNames, tracks]

theorem touches_ofNames {names : Names} {ts : List Tag} {c : Category} (hc : tracks c = true)
    (h : (ofNames names ts).touches c = false) : ∀ t ∈ ts, t.members.get c = [] := by
  refine anyHas_eq_false_iff.mp (Bool.eq_false_iff.mpr fun hany => ?_)
  exact Bool.eq_false_iff.mp h (touches_ofNames_iff.mpr (.inr ⟨hc, hany⟩))

theorem touches_union_iff {a b : Change} {c : Category} :
    (a.union b).touches c = true ↔ a.touches c = true ∨ b.touches c = true := by
  cases c <;> simp [touches, union, Names.append, Shelf.ofFn, Shelf.get] <;> tauto

theorem touches_union {a b : Change} {c : Category} (h : (a.union b).touches c = false) :
    a.touches c = false ∧ b.touches c = false := by
  have hnot := mt touches_union_iff.mpr (Bool.eq_false_iff.mp h)
  rw [not_or] at hnot
  exact ⟨Bool.eq_false_iff.mpr hnot.1, Bool.eq_false_iff.mpr hnot.2⟩

end Change

namespace Store

/-- The keys of the tags of a layer that have members of a category, in their
order. -/
def bearers (c : Category) (s : Store) : List String :=
  s.tags.keys.filter fun k => !(membersOf (s.tags.find? k) c).isEmpty

/-- The entries of two states of a layer have the same members of a category, and
those that have any are in the same order. -/
structure SameMembers (c : Category) (old new : Store) : Prop where
  entry : ∀ key, membersOf (new.tags.find? key) c = membersOf (old.tags.find? key) c
  bearers : new.bearers c = old.bearers c

/-- Two states of a layer differ in the entries of some keys only, and none of these
entries has members of the category. -/
structure Quiet (c : Category) (keys : List String) (old new : Store) : Prop where
  frame : ∀ {key}, key ∉ keys → new.tags.find? key = old.tags.find? key
  before : ∀ {key}, key ∈ keys → membersOf (old.tags.find? key) c = []
  after : ∀ {key}, key ∈ keys → membersOf (new.tags.find? key) c = []
  order : ∀ {p : String → Bool}, (∀ key ∈ keys, p key = false) →
    new.tags.keys.filter p = old.tags.keys.filter p

variable {c : Category} {keys : List String} {old new s : Store}

theorem Quiet.sameMembers (h : Quiet c keys old new) : SameMembers c old new := by
  have hentry : ∀ key, membersOf (new.tags.find? key) c = membersOf (old.tags.find? key) c := by
    intro key
    by_cases hkey : key ∈ keys
    · rw [h.before hkey, h.after hkey]
    · rw [h.frame hkey]
  refine ⟨hentry, ?_⟩
  rw [bearers, bearers]
  simp only [hentry]
  refine h.order fun key hkey => ?_
  rw [h.before hkey]
  rfl

theorem membersOf_of_forall_mem {ts : List Tag} (h : ∀ t ∈ ts, t.members.get c = [])
    {t : Option Tag} (ht : ∀ {u}, t = some u → u ∈ ts) : membersOf t c = [] := by
  cases t with
  | none => rfl
  | some u => exact h u (ht rfl)

theorem quiet_absorb {layer : Layer} {coll : Collection}
    (hput : ∀ t ∈ coll.tags, t.members.get c = [])
    (hreplaced : ∀ t ∈ (s.absorb layer coll).1, t.members.get c = []) :
    Quiet c (coll.tags.map NameMap.key) s (s.absorb layer coll).2 where
  frame hkey := find?_putTags_of_notMem layer hkey
  before hkey := membersOf_of_forall_mem hreplaced (mem_putTags_fst layer hkey)
  after {key} hkey := by
    obtain ⟨t, ht, _, hnew⟩ := find?_putTags_of_mem layer (m := s.tags) hkey
    rw [absorb_tags, hnew]
    show (t.stamp layer).members.get c = []
    rw [Tag.stamp, Shelf.get_ofFn, hput t ht, List.map_nil]
  order hp := filter_keys_putTags layer (List.forall_mem_map.mp hp)

theorem quiet_forget (hs : s.tags.Indexed) {names : Names}
    (hremoved : ∀ t ∈ (s.forget names).1, t.members.get c = []) :
    Quiet c (names.tags.map lowerName) s (s.forget names).2 where
  frame hkey := find?_takeTags_of_notMem hkey
  before hkey := membersOf_of_forall_mem hremoved (mem_takeTags_fst hkey)
  after hkey := by
    rw [forget_tags, find?_takeTags_of_mem hs hkey]
    rfl
  order hp := filter_keys_takeTags (List.forall_mem_map.mp hp)

end Store

/-- A change that does not touch a category leaves the members of every entry as
they were, since an entry that it puts in or takes out has none. -/
theorem Mutation.untouched {m : Mutation} {ls : Layers} {change : Change} {c : Category}
    (hls : ls.Indexed) (h : m.change? ls = some change) (hc : Change.tracks c = true)
    (htouch : change.touches c = false) :
    ∀ layer, Store.SameMembers c (ls.get layer) ((m.layers ls).get layer) := by
  have hsame : ∀ l, Store.SameMembers c (ls.get l) (ls.get l) := fun _ => ⟨fun _ => rfl, rfl⟩
  cases m with
  | absorb layer coll =>
    rw [← Option.some.inj h] at htouch
    obtain ⟨hput, hreplaced⟩ := Change.touches_union htouch
    have hquiet := Store.quiet_absorb (Change.touches_ofNames hc hput)
      (Change.touches_ofNames hc hreplaced)
    exact Layers.forall_get_set (P := fun l => Store.SameMembers c (ls.get l)) hsame
      hquiet.sameMembers
  | forget layer names =>
    rw [← Option.some.inj h] at htouch
    have hquiet := Store.quiet_forget (hls layer) (Change.touches_ofNames hc htouch)
    exact Layers.forall_get_set (P := fun l => Store.SameMembers c (ls.get l)) hsame
      hquiet.sameMembers
  | clearLayer layer => exact absurd h (Option.some_ne_none change).symm
  | setExtension name => exact absurd h (Option.some_ne_none change).symm

/-! ## Joining lists of members -/

/-- The members of a tag that several entries describe. -/
def joinLists : List (List Descriptor) → List Descriptor
  | [] => []
  | ds :: rest => rest.foldl mergeLists ds

theorem membersOf_joinTags (ts : List Tag) (c : Category) :
    membersOf (Layers.joinTags ts) c = joinLists (ts.map fun t => t.members.get c) := by
  cases ts with
  | nil => rfl
  | cons t rest =>
    show (rest.foldl Tag.merge t).members.get c = _
    rw [List.map_cons, joinLists]
    induction rest generalizing t with
    | nil => rfl
    | cons u rest ih =>
      rw [List.foldl_cons, ih, Tag.merge, Shelf.get_ofFn, List.map_cons, List.foldl_cons]

/-- The members that the layers give a tag, by entry. -/
theorem Layers.membersOf_tag? (ls : Layers) (key : String) (c : Category) :
    membersOf (ls.tag? key) c = joinLists (order.filterMap fun layer =>
      ((ls.get layer).tags.find? key).map fun t => t.members.get c) := by
  rw [tag?, membersOf_joinTags, toList_eq, List.filterMap_map, List.map_filterMap]
  rfl

/-- Behind another list, an empty one is neutral. -/
theorem joinLists_cons_filter (ds : List Descriptor) (rest : List (List Descriptor)) :
    joinLists (ds :: rest.filter fun l => !l.isEmpty) = joinLists (ds :: rest) := by
  induction rest generalizing ds with
  | nil => rfl
  | cons l rest ih =>
    cases l with
    | nil => exact ih ds
    | cons d l => exact ih (mergeLists ds (d :: l))

/-- No two members have one name. -/
def Distinct (ds : List Descriptor) : Prop := (ds.map NameMap.key).Nodup

theorem mergeInto_of_notMem {d : Descriptor} {ds : List Descriptor}
    (h : NameMap.key d ∉ ds.map NameMap.key) : mergeInto d ds = ds ++ [d] := by
  induction ds with
  | nil => rfl
  | cons e rest ih =>
    rw [List.map_cons, List.mem_cons, not_or] at h
    have hne : sameName e.name d.name = false := beq_eq_false_iff_ne.mpr fun heq => h.1 heq.symm
    rw [mergeInto, hne, ih h.2]
    rfl

theorem mergeLists_of_distinct {ds more : List Descriptor} (h : Distinct (ds ++ more)) :
    mergeLists ds more = ds ++ more := by
  induction more generalizing ds with
  | nil => exact (List.append_nil ds).symm
  | cons d rest ih =>
    have hd : NameMap.key d ∉ ds.map NameMap.key := by
      rw [Distinct, List.map_append, List.nodup_append] at h
      exact fun hmem => h.2.2 _ hmem _ (List.mem_map_of_mem List.mem_cons_self) rfl
    rw [List.append_cons] at h ⊢
    show mergeLists (mergeInto d ds) rest = _
    rw [mergeInto_of_notMem hd]
    exact ih h

/-- Between lists that repeat no name, an empty one is neutral wherever it is. -/
theorem joinLists_filter {lists : List (List Descriptor)} (h : ∀ ds ∈ lists, Distinct ds) :
    joinLists (lists.filter fun l => !l.isEmpty) = joinLists lists := by
  induction lists with
  | nil => rfl
  | cons ds rest ih =>
    rw [List.forall_mem_cons] at h
    cases ds with
    | cons d ds => exact joinLists_cons_filter (d :: ds) rest
    | nil =>
      have hnil : joinLists ([] :: rest) = joinLists rest := by
        cases rest with
        | nil => rfl
        | cons l rest =>
          have hl : mergeLists [] l = l := mergeLists_of_distinct (h.2 l List.mem_cons_self)
          show rest.foldl mergeLists (mergeLists [] l) = rest.foldl mergeLists l
          rw [hl]
      rw [hnil]
      exact ih h.2

/-- What entries without members say of a tag cannot be told from what absent entries
say. -/
theorem filter_isEmpty_entries (entry : Layer → Option Tag) (c : Category) (ls : List Layer) :
    ((ls.filterMap fun l => (entry l).map fun t => t.members.get c).filter fun ds => !ds.isEmpty) =
      (ls.map fun l => membersOf (entry l) c).filter fun ds => !ds.isEmpty := by
  induction ls with
  | nil => rfl
  | cons l rest ih =>
    cases h : entry l with
    | none =>
      have hnone : membersOf none c = [] := rfl
      rw [List.filterMap_cons, List.map_cons, h, hnone]
      exact ih
    | some t =>
      have hsome : membersOf (some t) c = t.members.get c := rfl
      rw [List.filterMap_cons, List.map_cons, h, hsome]
      show List.filter _ (t.members.get c :: _) = List.filter _ (t.members.get c :: _)
      rw [List.filter_cons, List.filter_cons, ih]

theorem Layers.membersOf_tag?_of_distinct {ls : Layers} {key : String} {c : Category}
    (h : ∀ layer, Distinct (membersOf ((ls.get layer).tags.find? key) c)) :
    membersOf (ls.tag? key) c = joinLists ((order.map fun layer =>
      membersOf ((ls.get layer).tags.find? key) c).filter fun ds => !ds.isEmpty) := by
  rw [membersOf_tag?, ← filter_isEmpty_entries (fun layer => (ls.get layer).tags.find? key),
    joinLists_filter]
  intro ds hds
  obtain ⟨layer, _, hentry⟩ := List.mem_filterMap.mp hds
  obtain ⟨t, ht, rfl⟩ := Option.map_eq_some_iff.mp hentry
  have hdistinct := h layer
  rw [ht] at hdistinct
  exact hdistinct

end Inlay
