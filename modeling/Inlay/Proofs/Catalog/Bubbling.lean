import Inlay.Proofs.Catalog.Untouched
import Inlay.Proofs.Catalog.Coherence
import Mathlib.Data.Fintype.EquivFin

/-!
# Events that bubble

A tag without events of its own sees those of all other tags: all these tags have
one view in common, `Layers.bubbled`.  It depends on the order in which the layers
name the tags first, since of two events of one name the first is seen.

A change that touches no event drops none of these views, although it may move a tag
to another place, or have the events of a tag joined in another way.
`KeepsBubbling` states that the common view stays what it was, and
`run_events_eq_fresh_iff` that nothing else can make a view of events stale.  It does
hold when the tags of the changed layer come last, which is what `keepsBubbling_of_discovered` says.
-/

namespace Inlay

theorem exists_lowered_notMem (names : List String) : ∃ name, lowerName name = name ∧ name ∉ names := by
  obtain ⟨n, hn⟩ := Infinite.exists_notMem_finset (names.map String.length).toFinset
  refine ⟨String.ofList (List.replicate n 'a'), ?_, ?_⟩
  · have ha : lowerChar 'a' = 'a' := by decide
    rw [lowerName, String.toList_ofList, List.map_replicate, ha]
  · intro hmem
    have hlength : (String.ofList (List.replicate n 'a')).length = n := by
      rw [String.length_ofList, List.length_replicate]
    apply hn
    rw [List.mem_toFinset, ← hlength]
    exact List.mem_map_of_mem hmem

namespace Layers

/-- The events that a tag sees which has none of its own. -/
def bubbled (ls : Layers) (e : Option String) : NameMap Descriptor :=
  (joined .events none (e.bind ls.tag?) (ls.globals .events)).fillWith
    (membersOfAll .events (ls.tags e))

variable {ls : Layers} {e : Option String} {key : String}

theorem members_events_of_seesOthers (h : seesOthers .events (ls.tag? key) = true) :
    ls.members e .events key = ls.bubbled e := by
  have hnone : membersOf (ls.tag? key) .events = [] := by
    rw [seesOthers, Bool.and_eq_true, List.isEmpty_iff] at h
    exact h.2
  rw [members, bubbled]
  simp only [h, if_true, joined, hnone]
  rfl

theorem members_events_of_own (h : seesOthers .events (ls.tag? key) = false) :
    ls.members e .events key =
      joined .events (ls.tag? key) (e.bind ls.tag?) (ls.globals .events) := by
  rw [members]
  simp only [h]
  rfl

/-- There always is a tag that no layer knows. -/
theorem exists_unknown (ls : Layers) (keys : List String) :
    ∃ name, lowerName name = name ∧ name ∉ keys ∧ ls.tag? name = none := by
  obtain ⟨name, hlow, hname⟩ :=
    exists_lowered_notMem (keys ++ order.flatMap fun layer => (ls.get layer).tags.keys)
  rw [List.mem_append, not_or] at hname
  refine ⟨name, hlow, hname.1, ?_⟩
  have hentry : ∀ layer, (ls.get layer).tags.find? name = none := by
    intro layer
    rw [← Option.not_isSome_iff_eq_none, NameMap.find?_isSome_iff]
    intro hmem
    exact hname.2 (List.mem_flatMap.mpr ⟨layer, by cases layer <;> decide, hmem⟩)
  rw [tag?, toList_eq, List.filterMap_map]
  simp only [Function.comp_def, hentry]
  rfl

end Layers

namespace Change

/-- A change that touches neither events nor the base of all elements leaves what
bubbles as it was. -/
def KeepsBubbling (change : Change) (e : Option String) (old new : Layers) : Prop :=
  change.touches .events = false → change.touchesBase e = false → new.bubbled e = old.bubbled e

theorem Covers.keeps_events_iff {change : Change} {e : Option String} {old new : Layers}
    (h : change.Covers old new) :
    change.Keeps e old new .events ↔ change.KeepsBubbling e old new := by
  have hall : (Plan.ofChange change e).allTags.get .events = false ↔
      change.touches .events = false ∧ change.touchesBase e = false := by
    rw [allTags_plan, Bool.or_eq_false_iff]
    show _ ∧ (change.touchesBase e && true) = false ↔ _
    rw [Bool.and_true]
  rw [Keeps, KeepsBubbling, hall]
  constructor
  · intro hkeeps htouch hbase
    -- A tag that no layer knows sees what bubbles, so its view tells whether that changed.
    obtain ⟨name, hlow, hname, hnone⟩ := old.exists_unknown change.keys
    rw [← hlow] at hname hnone
    have hold : seesOthers .events (old.tag? (lowerName name)) = true := by rw [hnone]; rfl
    have hnew : seesOthers .events (new.tag? (lowerName name)) = true := by
      rw [h.tag?_eq hname, hold]
    rw [← Layers.members_events_of_seesOthers hold, ← Layers.members_events_of_seesOthers hnew]
    exact hkeeps ⟨htouch, hbase⟩ name hname
  · rintro hkeeps ⟨htouch, hbase⟩ tag htag
    have htag? := h.tag?_eq htag
    cases hsees : seesOthers .events (old.tag? (lowerName tag)) with
    | true =>
      rw [Layers.members_events_of_seesOthers hsees,
        Layers.members_events_of_seesOthers (by rw [htag?, hsees])]
      exact hkeeps htouch hbase
    | false =>
      rw [Layers.members_events_of_own hsees, Layers.members_events_of_own (by rw [htag?, hsees]),
        htag?, h.base_eq hbase, h.globals_eq (globals_eq_nil_of_touches htouch)]

end Change

/-! ## The order of tags -/

namespace Layers

/-- The keys of all tags but one, in the order of the layers.  A tag is listed for
each layer that describes it. -/
def keys (ls : Layers) (except : Option String) : List String :=
  (order.flatMap fun layer => (ls.get layer).tags.keys).filter fun k => except != some k

variable {ls : Layers}

theorem Indexed.map_tagNames (h : ls.Indexed) (except : Option String) :
    (ls.tagNames except).map lowerName = (ls.keys except).eraseDups := by
  have hkeys : (ls.toList.flatMap fun s => s.tags.values).map NameMap.key =
      order.flatMap fun layer => (ls.get layer).tags.keys := by
    rw [toList_eq, List.flatMap_map, List.map_flatMap]
    exact List.flatMap_congr fun layer _ => (h layer).keys_eq.symm
  have hfill := NameMap.indexed_empty.keys_fillWith
    ((ls.toList.flatMap fun s => s.tags.values).filter fun t => except != some (lowerName t.name))
  have hindexed := NameMap.indexed_empty.fillWith
    ((ls.toList.flatMap fun s => s.tags.values).filter fun t => except != some (lowerName t.name))
  rw [hindexed.keys_eq] at hfill
  rw [tagNames, NameMap.names, List.map_map, keys, ← hkeys, List.filter_map]
  exact hfill

theorem membersOfAll_filterMap (c : Category) (tag? : String → Option Tag) (names : List String) :
    membersOfAll c (names.filterMap tag?) = names.flatMap fun name => membersOf (tag? name) c := by
  induction names with
  | nil => rfl
  | cons name rest ih =>
    rw [List.filterMap_cons, List.flatMap_cons, ← ih]
    cases tag? name <;> rfl

/-- All members of a category, by key.  A tag without any can be left out. -/
theorem Indexed.membersOfAll_tags (h : ls.Indexed) (c : Category) (except : Option String) :
    membersOfAll c (ls.tags except) =
      ((ls.keys except).filter fun k => !(membersOf (ls.tag? k) c).isEmpty).eraseDups.flatMap
        fun k => membersOf (ls.tag? k) c := by
  rw [← filter_eraseDups, flatMap_filter_isEmpty, ← h.map_tagNames, List.flatMap_map]
  exact membersOfAll_filterMap c (fun name => ls.tag? (lowerName name)) _

/-! ## Changes of the last layer

The base of all elements aside, the discovered layer is the last.  What it says of a
tag is joined behind what the lower layers say, and the tags that it alone knows come
behind theirs. -/

section Last

variable {e : Option String} {c : Category}

/-- The layers before the discovered one. -/
def lower : List Layer := [.builtIn, .userConfig]

theorem membersOf_tag?_of_last {key : String} (hext : ls.extension.tags.find? key = none) :
    membersOf (ls.tag? key) c =
      match lower.filterMap fun layer =>
        ((ls.get layer).tags.find? key).map fun t => t.members.get c with
      | [] => membersOf (ls.discovered.tags.find? key) c
      | ds :: rest =>
        mergeLists (joinLists (ds :: rest)) (membersOf (ls.discovered.tags.find? key) c) := by
  rw [membersOf_tag?]
  simp only [order, lower, List.filterMap_cons, List.filterMap_nil, get, hext]
  cases ls.builtIn.tags.find? key <;> cases ls.userConfig.tags.find? key <;>
    cases ls.discovered.tags.find? key <;> rfl

theorem find?_extension_of_ne {key : String} (hext : ∀ k ∈ ls.extension.tags.keys, e = some k)
    (hkey : (e != some key) = true) : ls.extension.tags.find? key = none := by
  rw [← Option.not_isSome_iff_eq_none, NameMap.find?_isSome_iff]
  intro hmem
  exact bne_iff_ne.mp hkey (hext key hmem)

theorem find?_lower_of_notMem {key : String}
    (hkey : key ∉ lower.flatMap fun layer => (ls.get layer).tags.keys) :
    (lower.filterMap fun layer =>
      ((ls.get layer).tags.find? key).map fun t => t.members.get c) = [] := by
  refine List.filterMap_eq_nil_iff.mpr fun layer hlayer => ?_
  rw [Option.map_eq_none_iff, ← Option.not_isSome_iff_eq_none, NameMap.find?_isSome_iff]
  intro hmem
  exact hkey (List.mem_flatMap.mpr ⟨layer, hlayer, hmem⟩)

/-- The tags with members of a category: first those that a lower layer knows, in
the order of the lower layers, then the others. -/
theorem bearing_keys_of_last (hext : ∀ k ∈ ls.extension.tags.keys, e = some k) :
    ((ls.keys e).filter fun k => !(membersOf (ls.tag? k) c).isEmpty).eraseDups =
      ((lower.flatMap fun layer => (ls.get layer).tags.keys).filter fun k =>
        e != some k && !(membersOf (ls.tag? k) c).isEmpty).eraseDups ++
      ((ls.discovered.bearers c).filter fun k =>
        e != some k && !(lower.flatMap fun layer => (ls.get layer).tags.keys).contains k).eraseDups := by
  have hkeys : ls.keys e = ((lower.flatMap fun layer => (ls.get layer).tags.keys) ++
      ls.discovered.tags.keys).filter fun k => e != some k := by
    have hnone : (ls.extension.tags.keys.filter fun k => e != some k) = [] := by
      refine List.filter_eq_nil_iff.mpr fun k hk hne => ?_
      exact bne_iff_ne.mp hne (hext k hk)
    rw [keys, List.filter_append]
    simp only [order, lower, List.flatMap_cons, List.flatMap_nil, List.append_nil,
      List.filter_append, List.append_assoc, get, hnone]
  rw [hkeys, List.filter_filter, List.filter_append, List.eraseDups_append,
    List.filter_removeAll_filter]
  simp only [Bool.and_comm (!_)]
  congr 2
  rw [List.removeAll, List.filter_filter, Store.bearers, List.filter_filter]
  refine List.filter_congr fun k _ => ?_
  by_cases hne : (e != some k) = true
  · by_cases hmem : k ∈ lower.flatMap fun layer => (ls.get layer).tags.keys
    · simp [hmem]
    · rw [membersOf_tag?_of_last (find?_extension_of_ne hext hne), find?_lower_of_notMem hmem]
      simp [hne, hmem]
  · rw [Bool.eq_false_iff.mpr hne]
    simp

/-- Two states of the layers differ in the discovered layer, where no entry has other
members, and the layer behind it knows no tag but the base of all elements. -/
structure SameButLast (c : Category) (e : Option String) (old new : Layers) : Prop where
  lower : ∀ layer ∈ lower, new.get layer = old.get layer
  last : Store.SameMembers c old.discovered new.discovered
  extension : new.extension = old.extension
  base : ∀ k ∈ old.extension.tags.keys, e = some k

variable {old new : Layers}

theorem SameButLast.newBase (h : SameButLast c e old new) :
    ∀ k ∈ new.extension.tags.keys, e = some k := by
  rw [h.extension]
  exact h.base

theorem SameButLast.membersOf_eq (h : SameButLast c e old new) {key : String}
    (hkey : (e != some key) = true) : membersOf (new.tag? key) c = membersOf (old.tag? key) c := by
  have hlists : (Layers.lower.filterMap fun layer => ((new.get layer).tags.find? key).map
        fun t => t.members.get c) =
      Layers.lower.filterMap fun layer => ((old.get layer).tags.find? key).map
        fun t => t.members.get c :=
    List.filterMap_congr fun layer hlayer => by rw [h.lower layer hlayer]
  rw [membersOf_tag?_of_last (find?_extension_of_ne h.newBase hkey),
    membersOf_tag?_of_last (find?_extension_of_ne h.base hkey), hlists, h.last.entry]

/-- Neither a member nor the order in which the tags with members are listed is another
one. -/
theorem SameButLast.membersOfAll_eq (h : SameButLast c e old new) (hold : old.Indexed)
    (hnew : new.Indexed) : membersOfAll c (new.tags e) = membersOfAll c (old.tags e) := by
  have hkeys : (Layers.lower.flatMap fun layer => (new.get layer).tags.keys) =
      Layers.lower.flatMap fun layer => (old.get layer).tags.keys :=
    List.flatMap_congr fun layer hlayer => by rw [h.lower layer hlayer]
  have hbearing : ((Layers.lower.flatMap fun layer => (old.get layer).tags.keys).filter fun k =>
        e != some k && !(membersOf (new.tag? k) c).isEmpty) =
      (Layers.lower.flatMap fun layer => (old.get layer).tags.keys).filter fun k =>
        e != some k && !(membersOf (old.tag? k) c).isEmpty := by
    refine List.filter_congr fun k _ => ?_
    by_cases hk : (e != some k) = true
    · rw [h.membersOf_eq hk]
    · rw [Bool.eq_false_iff.mpr hk, Bool.false_and, Bool.false_and]
  rw [hnew.membersOfAll_tags, hold.membersOfAll_tags, bearing_keys_of_last h.newBase,
    bearing_keys_of_last h.base, hkeys, h.last.bearers, hbearing]
  -- The base is not among the keys, so that each of them has the members it had.
  refine List.flatMap_congr fun k hk => h.membersOf_eq ?_
  rw [List.mem_append, List.mem_eraseDups, List.mem_eraseDups, List.mem_filter,
    List.mem_filter, Bool.and_eq_true, Bool.and_eq_true] at hk
  exact hk.elim (fun hk => hk.2.1) fun hk => hk.2.1

end Last

end Layers

/-- A change of the discovered layer keeps what bubbles, as long as the layer behind
it knows no tag but the base of all elements. -/
theorem Mutation.keepsBubbling_of_discovered {m : Mutation} {ls : Layers} {e : Option String}
    {change : Change} (hls : ls.Indexed)
    (hm : ∀ layer, layer ≠ .discovered → (m.layers ls).get layer = ls.get layer)
    (hbase : ∀ k ∈ ls.extension.tags.keys, e = some k) (h : m.change? ls = some change) :
    change.KeepsBubbling e ls (m.layers ls) := by
  intro htouch huntouched
  have hcovers := covers_change? h
  have hsame : Layers.SameButLast .events e ls (m.layers ls) := by
    refine ⟨fun layer hlayer => hm layer ?_, m.untouched hls h rfl htouch .discovered,
      hm .extension (by decide), hbase⟩
    rintro rfl
    exact absurd hlayer (by decide)
  rw [Layers.bubbled, Layers.bubbled, hcovers.base_eq huntouched,
    hcovers.globals_eq (Change.globals_eq_nil_of_touches htouch),
    hsame.membersOfAll_eq hls (hls.mutate m)]

/-! ## Runs -/

namespace Knowledge

/-- In whatever way questions come between the mutations, the events that are read
are what the layers give, if and only if every change that touches no event keeps
what bubbles. -/
theorem run_events_eq_fresh_iff (ms : List Mutation) :
    (∀ as, Action.mutations as <+: ms → ∀ tag,
        (run {} as).members .events tag = (run {} as).fresh.members .events tag) ↔
      Mutation.Each (fun e change old new => change.KeepsBubbling e old new)
        {} (some "htmlelement") ms := by
  constructor
  · intro h
    have hkeeps := @each_keeps_of_members_eq_fresh (· = .events) {} ms (by decide) rfl ?_
    · exact hkeeps.imp fun hcovers hall => hcovers.keeps_events_iff.mp (hall .events rfl)
    · rintro as has _ rfl tag
      exact h as has tag
  · intro hms as has tag
    have hstart : Coherent (· = .events) {} := ⟨by decide, Memo.sound_empty _ _ _⟩
    refine (hstart.run ?_ has).members_eq_fresh rfl tag
    refine hms.imp fun hcovers hkeeps => ?_
    rintro _ rfl
    exact hcovers.keeps_events_iff.mpr hkeeps

/-- A tag with one event. -/
def tagWithEvent (tag event : String) (type : StaticType) : Tag :=
  { name := tag
    members := Shelf.set (Shelf.ofFn fun _ => []) .events [{ name := event, type := type }] }

/-- Two tags have an event of one name.  Then a lower layer describes the second tag,
without any event, which moves it in front of the first. -/
def movedTag : List Action :=
  [.mutate (.absorb .userConfig
      { tags := [tagWithEvent "x-a" "change" .string, tagWithEvent "x-b" "change" .number] }),
    .ask (.members .events "div"),
    .mutate (.absorb .builtIn { tags := [{ name := "x-b" }] })]

/-- The event that is read is still that of the first tag. -/
theorem events_stale_of_moved_tag :
    ((run {} movedTag).members .events "div").values.map (fun d => (d.name, d.fromTag)) =
        [("change", some "x-a")] ∧
      ((run {} movedTag).fresh.members .events "div").values.map (fun d => (d.name, d.fromTag)) =
        [("change", some "x-b")] := by
  constructor <;> decide +kernel

end Knowledge
end Inlay
