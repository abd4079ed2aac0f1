import Inlay.Proofs.Catalog.Coherence
import Inlay.Proofs.Catalog.Consulting
import Inlay.Proofs.Catalog.Merged
import Inlay.Proofs.Catalog.Replacing

/-!
# Absorbing again and forgetting

A collection that is absorbed once more changes nothing, and one of new names is taken back by forgetting
its names: `Knowledge.absorb_repeated_or_undone`.  Both hold of every knowledge base, whatever is in its
memo, and of every collection, also of one that repeats names in several spellings.

The layers are a matter of maps, in which equal values are put in again or new ones taken out.  The memo
is as it was because the second plan drops nothing that the first one leaves: the tags that are replaced
then are those that the collection itself has put in.

Provenance is listed without repetition when it was so in the layers and in the collection.  Stamping
and merging both append only origins that are not listed.
-/

namespace Inlay

open NameMap

/-! ## Layers -/

/-- A layer has none of the names of a collection. -/
structure Collection.IsNewTo (c : Collection) (s : Store) : Prop where
  tags : ∀ t ∈ c.tags, s.tags.contains t.name = false
  globals : ∀ k, ∀ d ∈ c.globals.get k, (s.globals.get k).contains d.name = false

namespace Store

variable {s : Store} {layer : Layer} {c : Collection}

theorem absorb_snd (s : Store) (layer : Layer) (c : Collection) :
    (s.absorb layer c).2 =
      { tags := s.tags.replaceAll (c.tags.map (Tag.stamp layer))
        globals := Shelf.ofFn fun k =>
          (s.globals.get k).replaceAll ((c.globals.get k).map (Descriptor.stamp { layer := layer })) } := by
  rw [← putTags_snd]
  rfl

theorem forget_snd (s : Store) (names : Names) :
    (s.forget names).2 =
      { tags := s.tags.removeAll names.tags
        globals := Shelf.ofFn fun k => (s.globals.get k).removeAll (names.globals.get k) } := by
  rw [← takeTags_snd]
  rfl

theorem absorb_absorb : ((s.absorb layer c).2.absorb layer c).2 = (s.absorb layer c).2 := by
  simp only [absorb_snd, Shelf.get_ofFn, replaceAll_replaceAll]

theorem forget_absorb (h : c.IsNewTo s) : ((s.absorb layer c).2.forget c.names).2 = s := by
  have htags : (s.tags.replaceAll (c.tags.map (Tag.stamp layer))).removeAll c.names.tags = s.tags :=
    removeAll_replaceAll_map (key_stamp layer) h.tags
  have hglobals : ∀ k, ((s.globals.get k).replaceAll
      ((c.globals.get k).map (Descriptor.stamp { layer := layer }))).removeAll (c.names.globals.get k) =
        s.globals.get k := by
    intro k
    rw [Collection.names, Shelf.map, Shelf.get_ofFn]
    exact removeAll_replaceAll_map (fun _ => rfl) (h.globals k)
  rw [absorb_snd, forget_snd]
  simp only [Shelf.get_ofFn, htags, hglobals]
  rfl

/-- Of the tags that the second time replaces, all were put in the first time. -/
theorem anyHas_replaced {k : Category}
    (h : anyHas k ((s.absorb layer c).2.absorb layer c).1 = true) : anyHas k c.tags = true := by
  obtain ⟨old, hold, hmembers⟩ := List.any_eq_true.mp h
  have hstamp : ∃ t ∈ c.tags, old = t.stamp layer := by
    rcases mem_of_mem_putTags_fst layer hold with ⟨t, ht, hfind⟩ | hstamp
    · obtain ⟨u, hu, -, hfound⟩ :=
        find?_putTags_of_mem layer (m := s.tags) (List.mem_map_of_mem ht)
      exact ⟨u, hu, Option.some.inj (hfind.symm.trans hfound)⟩
    · exact hstamp
  obtain ⟨t, ht, rfl⟩ := hstamp
  refine List.any_eq_true.mpr ⟨t, ht, ?_⟩
  rwa [Tag.stamp, Shelf.get_ofFn, List.isEmpty_map] at hmembers

end Store

theorem Layers.set_set (ls : Layers) (layer : Layer) (s s' : Store) :
    (ls.set layer s).set layer s' = ls.set layer s' := by
  cases layer <;> rfl

theorem Layers.set_get (ls : Layers) (layer : Layer) : ls.set layer (ls.get layer) = ls := by
  cases layer <;> rfl

theorem Layers.absorb_absorb (ls : Layers) (layer : Layer) (c : Collection) :
    (Mutation.absorb layer c).layers ((Mutation.absorb layer c).layers ls) =
      (Mutation.absorb layer c).layers ls := by
  simp only [Mutation.layers]
  rw [get_set_self, set_set, Store.absorb_absorb]

theorem Layers.forget_absorb {ls : Layers} {layer : Layer} {c : Collection}
    (h : c.IsNewTo (ls.get layer)) :
    (Mutation.forget layer c.names).layers ((Mutation.absorb layer c).layers ls) = ls := by
  simp only [Mutation.layers]
  rw [get_set_self, set_set, Store.forget_absorb h, set_get]

/-! ## Plans -/

/-- A plan drops nothing that another one leaves. -/
structure Plan.Within (p q : Plan) : Prop where
  tags : ∀ k ∈ p.tags, k ∈ q.tags
  tagList : p.tagList = true → q.tagList = true
  globals : ∀ c, p.globals.get c = true → q.globals.get c = true
  allTags : ∀ c, p.allTags.get c = true → q.allTags.get c = true

theorem Plan.within_ofChange {a b : Change} (hnames : a.names = b.names)
    (htouches : ∀ c, a.touches c = true → b.touches c = true) (e : Option String) :
    (ofChange a e).Within (ofChange b e) where
  tags k hk := by
    rw [Change.mem_plan_tags, Change.keys, hnames] at hk
    exact Change.mem_plan_tags.mpr hk
  tagList h := by rwa [ofChange, hnames] at h
  globals c h := by
    rw [Change.globals_plan] at h ⊢
    exact htouches c h
  allTags c h := by
    rw [Change.allTags_plan, Change.touchesBase, Change.keys, hnames, Bool.or_eq_true] at h
    rw [Change.allTags_plan, Change.touchesBase, Change.keys, Bool.or_eq_true]
    exact h.imp_left (htouches c)

/-- The tags that are replaced the second time touch nothing that the collection does not touch. -/
theorem Plan.within_absorb_absorb (s : Store) (layer : Layer) (c : Collection) (e : Option String) :
    (ofChange ((Change.ofCollection c).union
      (Change.ofNames {} ((s.absorb layer c).2.absorb layer c).1)) e).Within
        (ofChange ((Change.ofCollection c).union (Change.ofNames {} (s.absorb layer c).1)) e) := by
  refine within_ofChange ?_ (fun k htouch => Change.touches_union_iff.mpr (.inl ?_)) e
  · rfl
  rcases Change.touches_union_iff.mp htouch with htouch | htouch
  · exact htouch
  · rcases Change.touches_ofNames_iff.mp htouch with hnames | ⟨htracks, hany⟩
    · exact absurd (Shelf.get_ofFn _ k) hnames
    · exact Change.touches_ofNames_iff.mpr (.inr ⟨htracks, Store.anyHas_replaced hany⟩)

theorem Memo.without_without {α : Type} {keys keys' : List String} (h : ∀ k ∈ keys, k ∈ keys')
    (es : List (String × α)) : without keys (without keys' es) = without keys' es := by
  refine List.filter_eq_self.mpr fun e he => ?_
  have hkeep : e.1 ∉ keys' := by simpa using (List.mem_filter.mp he).2
  simpa using fun hmem => hkeep (h e.1 hmem)

/-- Nothing is left for a plan that drops no more than the one before. -/
theorem Memo.apply_apply {p q : Plan} (h : p.Within q) (m : Memo) : (m.apply q).apply p = m.apply q := by
  have htagList : (if p.tagList then none else (m.apply q).tagList) = (m.apply q).tagList := by
    split
    · next hp => rw [Memo.apply, if_pos (h.tagList hp)]
    · rfl
  have hglobals : ∀ c, (if p.globals.get c then none else (m.apply q).globals.get c) =
      (m.apply q).globals.get c := by
    intro c
    split
    · next hp => rw [Memo.apply, Shelf.get_ofFn, if_pos (h.globals c hp)]
    · rfl
  have hmembers : ∀ c, (if p.allTags.get c then [] else without p.tags ((m.apply q).members.get c)) =
      (m.apply q).members.get c := by
    intro c
    rw [Memo.apply, Shelf.get_ofFn]
    split
    · next hp => rw [if_pos (h.allTags c hp)]
    · split
      · rfl
      · exact without_without h.tags _
  have htags : without p.tags (m.apply q).tags = (m.apply q).tags := without_without h.tags _
  rw [apply.eq_def (m.apply q) p, htags, htagList]
  simp only [hglobals, hmembers]
  rfl

/-- Of a memo that is sound, any part is. -/
theorem Memo.Sound.dropped {cs : Category → Prop} {ls : Layers} {e : Option String} {m : Memo}
    (h : m.Sound cs ls e) (p : Plan) : (m.apply p).Sound cs ls e := by
  constructor
  · intro key t ht
    exact h.tags (lookup_without ht).2
  · intro ts hts
    rw [Memo.apply] at hts
    split at hts
    · exact absurd hts (Option.some_ne_none ts).symm
    · exact h.tagList hts
  · intro c view hview
    rw [Memo.apply, Shelf.get_ofFn] at hview
    split at hview
    · exact absurd hview (Option.some_ne_none view).symm
    · exact h.globals hview
  · intro c tag view hc hview
    rw [Memo.apply, Shelf.get_ofFn] at hview
    split at hview
    · exact absurd hview (Option.some_ne_none view).symm
    · exact h.members hc (lookup_without hview).2

/-! ## Provenance -/

theorem nodup_addOrigin {related : List Origin} (h : related.Nodup) (origin : Origin) :
    (addOrigin related origin).Nodup := by
  simp only [addOrigin, List.contains_iff_mem]
  exact nodup_append_of_new h origin

theorem nodup_joinOrigins {related : List Origin} (h : related.Nodup) (more : List Origin) :
    (joinOrigins related more).Nodup := by
  rw [joinOrigins_eq h]
  exact nodup_eraseDups _

/-- No origin is listed twice. -/
def Descriptor.OriginsOnce (d : Descriptor) : Prop := d.related.Nodup

theorem Descriptor.OriginsOnce.merge {a : Descriptor} (h : a.OriginsOnce) (b : Descriptor) :
    (a.merge b).OriginsOnce :=
  nodup_joinOrigins h b.related

section Lists

variable {ds more : List Descriptor} {lists : List (List Descriptor)}

theorem originsOnce_mergeInto {d : Descriptor} (hd : d.OriginsOnce) (h : ∀ e ∈ ds, e.OriginsOnce) :
    ∀ e ∈ mergeInto d ds, e.OriginsOnce := by
  induction ds with
  | nil => exact List.forall_mem_singleton.mpr hd
  | cons e rest ih =>
    obtain ⟨he, hrest⟩ := List.forall_mem_cons.mp h
    rw [mergeInto]
    split
    · exact List.forall_mem_cons.mpr ⟨he.merge d, hrest⟩
    · exact List.forall_mem_cons.mpr ⟨he, ih hrest⟩

theorem originsOnce_mergeLists (h : ∀ d ∈ ds, d.OriginsOnce) (hmore : ∀ d ∈ more, d.OriginsOnce) :
    ∀ d ∈ mergeLists ds more, d.OriginsOnce := by
  induction more generalizing ds with
  | nil => exact h
  | cons d rest ih =>
    obtain ⟨hd, hrest⟩ := List.forall_mem_cons.mp hmore
    exact ih (originsOnce_mergeInto hd h) hrest

end Lists

namespace NameMap

variable {m : NameMap Descriptor} {ds : List Descriptor}

theorem originsOnce_insertMerge {d : Descriptor} (h : ∀ e ∈ m.values, e.OriginsOnce)
    (hd : d.OriginsOnce) : ∀ e ∈ (m.insertMerge d).values, e.OriginsOnce := by
  intro e he
  obtain ⟨entry, hentry, rfl⟩ := List.mem_map.mp he
  rw [insertMerge] at hentry
  split at hentry
  · rcases mem_modify hentry with hentry | ⟨old, hold, rfl⟩
    · exact h _ (List.mem_map_of_mem hentry)
    · have hold : old.OriginsOnce := h old (List.mem_map_of_mem hold)
      exact hold.merge d
  · rcases List.mem_append.mp hentry with hentry | hentry
    · exact h _ (List.mem_map_of_mem hentry)
    · rw [List.mem_singleton.mp hentry]
      exact hd

theorem originsOnce_mergeAll (h : ∀ d ∈ m.values, d.OriginsOnce) (hds : ∀ d ∈ ds, d.OriginsOnce) :
    ∀ d ∈ (m.mergeAll ds).values, d.OriginsOnce := by
  induction ds generalizing m with
  | nil => exact h
  | cons d rest ih =>
    obtain ⟨hd, hrest⟩ := List.forall_mem_cons.mp hds
    exact ih (originsOnce_insertMerge h hd) hrest

theorem mem_values_fillWith {d : Descriptor} (h : d ∈ (m.fillWith ds).values) :
    d ∈ m.values ∨ d ∈ ds := by
  induction ds generalizing m with
  | nil => exact .inl h
  | cons e rest ih =>
    rcases ih h with h | h
    · rw [insertIfAbsent] at h
      split at h
      · exact .inl h
      · rw [values, List.map_append, List.mem_append] at h
        refine h.imp_right fun h => ?_
        rw [List.mem_singleton.mp h]
        exact List.mem_cons_self
    · exact .inr (List.mem_cons_of_mem e h)

end NameMap

/-- No origin of the tag, or of one of its members, is listed twice. -/
structure Tag.OriginsOnce (t : Tag) : Prop where
  related : t.related.Nodup
  members : ∀ c, ∀ d ∈ t.members.get c, d.OriginsOnce

namespace Tag

variable {t u : Tag}

theorem OriginsOnce.merge (h : t.OriginsOnce) (hu : u.OriginsOnce) : (t.merge u).OriginsOnce where
  related := nodup_joinOrigins h.related u.related
  members c := by
    rw [Tag.merge, Shelf.get_ofFn]
    exact originsOnce_mergeLists (h.members c) (hu.members c)

theorem OriginsOnce.stamp (h : t.OriginsOnce) (layer : Layer) : (t.stamp layer).OriginsOnce where
  related := nodup_addOrigin h.related _
  members c := by
    rw [Tag.stamp, Shelf.get_ofFn]
    refine List.forall_mem_map.mpr fun d hd => ?_
    have hstamp : (d.stamp { layer := layer, fromTag := some t.name }).OriginsOnce :=
      nodup_addOrigin (h.members c d hd) _
    split <;> exact hstamp

end Tag

structure Store.OriginsOnce (s : Store) : Prop where
  tags : ∀ t ∈ s.tags.values, t.OriginsOnce
  globals : ∀ c, ∀ d ∈ (s.globals.get c).values, d.OriginsOnce

structure Collection.OriginsOnce (coll : Collection) : Prop where
  tags : ∀ t ∈ coll.tags, t.OriginsOnce
  globals : ∀ c, ∀ d ∈ coll.globals.get c, d.OriginsOnce

namespace Store

variable {s : Store}

theorem originsOnce_empty : ({} : Store).OriginsOnce where
  tags := List.forall_mem_nil _
  globals c := by cases c <;> exact List.forall_mem_nil _

theorem OriginsOnce.absorb {coll : Collection} (h : s.OriginsOnce) (hcoll : coll.OriginsOnce)
    (layer : Layer) : (s.absorb layer coll).2.OriginsOnce where
  tags t ht := by
    rw [absorb_tags, putTags_snd] at ht
    rcases mem_values_replaceAll ht with ht | ht
    · exact h.tags t ht
    · obtain ⟨u, hu, rfl⟩ := List.mem_map.mp ht
      exact (hcoll.tags u hu).stamp layer
  globals c d hd := by
    rw [absorb_globals] at hd
    rcases mem_values_replaceAll hd with hd | hd
    · exact h.globals c d hd
    · obtain ⟨e, he, rfl⟩ := List.mem_map.mp hd
      exact nodup_addOrigin (hcoll.globals c e he) _

theorem OriginsOnce.forget (h : s.OriginsOnce) (names : Names) : (s.forget names).2.OriginsOnce where
  tags t ht := by
    rw [forget_tags, takeTags_snd] at ht
    exact h.tags t (mem_values_removeAll ht)
  globals c d hd := by
    rw [forget_globals] at hd
    exact h.globals c d (mem_values_removeAll hd)

end Store

/-- A collection that is put in lists no origin twice. -/
def Mutation.OriginsOnce : Mutation → Prop
  | .absorb _ coll => coll.OriginsOnce
  | .forget _ _ | .clearLayer _ | .setExtension _ => True

namespace Layers

def OriginsOnce (ls : Layers) : Prop := ∀ layer, (ls.get layer).OriginsOnce

/-- No view lists an origin of a tag or of a member twice. -/
structure ShowsOriginsOnce (ls : Layers) (e : Option String) : Prop where
  tag : ∀ key t, ls.tag? key = some t → t.OriginsOnce
  tags : ∀ t ∈ ls.tags e, t.OriginsOnce
  globals : ∀ c, ∀ d ∈ (ls.globals c).values, d.OriginsOnce
  members : ∀ c key, ∀ d ∈ (ls.members e c key).values, d.OriginsOnce

variable {ls : Layers}

theorem originsOnce_empty : ({} : Layers).OriginsOnce := by
  intro layer
  cases layer <;> exact Store.originsOnce_empty

theorem OriginsOnce.mutate (h : ls.OriginsOnce) {m : Mutation} (hm : m.OriginsOnce) :
    (m.layers ls).OriginsOnce := by
  cases m with
  | absorb layer coll =>
    exact forall_get_set (P := fun _ s => s.OriginsOnce) h ((h layer).absorb hm layer)
  | forget layer names =>
    exact forall_get_set (P := fun _ s => s.OriginsOnce) h ((h layer).forget names)
  | clearLayer layer => exact forall_get_set (P := fun _ s => s.OriginsOnce) h Store.originsOnce_empty
  | setExtension name => exact h

theorem OriginsOnce.tag? (h : ls.OriginsOnce) {key : String} {t : Tag} (ht : ls.tag? key = some t) :
    t.OriginsOnce := by
  have hjoin (ts : List Tag) (hts : ∀ t ∈ ts, t.OriginsOnce) (t : Tag) (ht : joinTags ts = some t) :
      t.OriginsOnce := by
    cases ts with
    | nil => exact absurd ht (Option.some_ne_none t).symm
    | cons first rest =>
      rw [← Option.some.inj ht]
      exact List.foldlRecOn rest Tag.merge (hts first List.mem_cons_self) fun t ht u hu =>
        ht.merge (hts u (List.mem_cons_of_mem first hu))
  refine hjoin _ (fun t ht => ?_) t ht
  rw [toList_eq, List.filterMap_map] at ht
  obtain ⟨layer, -, hfind⟩ := List.mem_filterMap.mp ht
  obtain ⟨before, behind, hentries, -⟩ := List.lookup_eq_some_iff.mp hfind
  refine (h layer).tags t ?_
  rw [NameMap.values, hentries, List.map_append]
  exact List.mem_append_right _ List.mem_cons_self

theorem OriginsOnce.globals (h : ls.OriginsOnce) (c : Category) :
    ∀ d ∈ (ls.globals c).values, d.OriginsOnce := by
  refine NameMap.originsOnce_mergeAll (List.forall_mem_nil _) fun d hd => ?_
  rw [toList_eq, List.flatMap_map] at hd
  obtain ⟨layer, -, hd⟩ := List.mem_flatMap.mp hd
  exact (h layer).globals c d hd

theorem OriginsOnce.tags (h : ls.OriginsOnce) (e : Option String) :
    ∀ t ∈ ls.tags e, t.OriginsOnce := by
  intro t ht
  obtain ⟨name, -, htag⟩ := List.mem_filterMap.mp ht
  exact h.tag? htag

theorem OriginsOnce.members (h : ls.OriginsOnce) (e : Option String) (c : Category) (key : String) :
    ∀ d ∈ (ls.members e c key).values, d.OriginsOnce := by
  have hentry : ∀ t : Option Tag, (∀ u, t = some u → u.OriginsOnce) →
      ∀ d ∈ membersOf t c, d.OriginsOnce := by
    intro t ht
    cases t with
    | none => exact List.forall_mem_nil _
    | some u => exact (ht u rfl).members c
  have hbase : ∀ u, e.bind ls.tag? = some u → u.OriginsOnce := by
    intro u hu
    obtain ⟨name, -, hname⟩ := Option.bind_eq_some_iff.mp hu
    exact h.tag? hname
  have hinherited : ∀ d ∈ (if c.isInherited then membersOf (e.bind ls.tag?) c else []),
      d.OriginsOnce := by
    split
    · exact hentry _ hbase
    · exact List.forall_mem_nil _
  have hjoined : ∀ d ∈ (joined c (ls.tag? key) (e.bind ls.tag?) (ls.globals c)).values,
      d.OriginsOnce := by
    refine NameMap.originsOnce_mergeAll (List.forall_mem_nil _) ?_
    refine List.forall_mem_append.mpr ⟨List.forall_mem_append.mpr ⟨?_, hinherited⟩, h.globals c⟩
    exact hentry _ fun u hu => h.tag? hu
  intro d hd
  rw [Layers.members.eq_def] at hd
  simp only at hd
  split at hd
  · rcases NameMap.mem_values_fillWith hd with hd | hd
    · exact hjoined d hd
    · obtain ⟨t, ht, hd⟩ := List.mem_flatMap.mp hd
      exact (h.tags e t ht).members c d hd
  · exact hjoined d hd

theorem OriginsOnce.shows (h : ls.OriginsOnce) (e : Option String) : ls.ShowsOriginsOnce e where
  tag _ _ ht := h.tag? ht
  tags := h.tags e
  globals := h.globals
  members := h.members e

end Layers

/-! ## The knowledge base -/

namespace Knowledge

theorem absorb_eq_apply (kb : Knowledge) (layer : Layer) (c : Collection) :
    kb.absorb layer c =
      { kb with
        layers := (Mutation.absorb layer c).layers kb.layers
        memo := kb.memo.apply (Plan.ofChange ((Change.ofCollection c).union
          (Change.ofNames {} ((kb.layers.get layer).absorb layer c).1)) kb.extension) } :=
    mutate_of_change? (m := .absorb layer c) rfl

/-- Absorbing again drops nothing that absorbing has left in the memo. -/
theorem absorb_absorb (kb : Knowledge) (layer : Layer) (c : Collection) :
    (kb.absorb layer c).absorb layer c = kb.absorb layer c := by
  have hget : ((Mutation.absorb layer c).layers kb.layers).get layer =
      ((kb.layers.get layer).absorb layer c).2 := Layers.get_set_self _ _ _
  rw [absorb_eq_apply (kb.absorb layer c), absorb_eq_apply kb]
  dsimp only
  rw [Layers.absorb_absorb, hget, Memo.apply_apply (Plan.within_absorb_absorb _ _ _ _)]

/-- Questions between the two times fill the memo only, and what they have put there holds
afterwards. -/
theorem absorb_ask_absorb (kb : Knowledge) (layer : Layer) (c : Collection) (qs : List Question) :
    ((qs.foldl record (kb.absorb layer c)).absorb layer c).fresh = (kb.absorb layer c).fresh ∧
      ∀ cs, (kb.absorb layer c).Coherent cs →
        ((qs.foldl record (kb.absorb layer c)).absorb layer c).Coherent cs := by
  have hasked : (qs.foldl record (kb.absorb layer c)).fresh = (kb.absorb layer c).fresh :=
    fresh_foldl_record qs _
  have hsame : (Mutation.absorb layer c).layers (qs.foldl record (kb.absorb layer c)).layers =
      (qs.foldl record (kb.absorb layer c)).layers := by
    rw [layers_of_fresh_eq hasked, absorb_eq_apply kb]
    exact Layers.absorb_absorb kb.layers layer c
  rw [absorb_eq_apply (qs.foldl record _), hsame]
  exact ⟨hasked, fun cs h => ⟨(h.foldl_record qs).lowered, (h.foldl_record qs).sound.dropped _⟩⟩

/-- Forgetting what was absorbed leaves in the memo a part of what was there. -/
theorem forget_absorb {kb : Knowledge} {layer : Layer} {c : Collection}
    (h : c.IsNewTo (kb.layers.get layer)) :
    ((kb.absorb layer c).forget layer c.names).fresh = kb.fresh ∧
      ∀ cs, kb.Coherent cs → ((kb.absorb layer c).forget layer c.names).Coherent cs := by
  have hsame : (Mutation.forget layer c.names).layers (kb.absorb layer c).layers = kb.layers := by
    rw [absorb_eq_apply]
    exact Layers.forget_absorb h
  have hforget : (kb.absorb layer c).forget layer c.names = _ :=
    mutate_of_change? (m := .forget layer c.names) rfl
  rw [hforget, hsame, absorb_eq_apply]
  exact ⟨rfl, fun cs h => ⟨h.lowered, (h.sound.dropped _).dropped _⟩⟩

/-- Whatever is asked and taken out in between, provenance is listed without repetition. -/
theorem originsOnce_run {kb : Knowledge} (h : kb.layers.OriginsOnce) {as : List Action}
    (has : ∀ m ∈ Action.mutations as, m.OriginsOnce) : (kb.run as).layers.OriginsOnce := by
  induction as generalizing kb with
  | nil => exact h
  | cons a rest ih =>
    cases a with
    | ask q => exact ih (layers_record kb q ▸ h) has
    | mutate m =>
      obtain ⟨hm, hrest⟩ := List.forall_mem_cons.mp has
      exact ih (layers_mutate kb m ▸ h.mutate hm) hrest

/-- A collection that is absorbed twice leaves the knowledge base as if it were absorbed once, and
provenance without repetition.  So it is when views are asked for in between.  Forgetting the names of a
collection whose names the layer did not have leaves every layer as it was.  In both cases a memo
that was right is right afterwards. -/
theorem absorb_repeated_or_undone (kb : Knowledge) (layer : Layer) (c : Collection) :
    (kb.absorb layer c).absorb layer c = kb.absorb layer c ∧
    (∀ qs : List Question,
      ((qs.foldl record (kb.absorb layer c)).absorb layer c).fresh = (kb.absorb layer c).fresh ∧
      ∀ cs, (kb.absorb layer c).Coherent cs →
        ((qs.foldl record (kb.absorb layer c)).absorb layer c).Coherent cs) ∧
    (kb.layers.OriginsOnce → c.OriginsOnce →
      ((kb.absorb layer c).absorb layer c).layers.OriginsOnce ∧
      ((kb.absorb layer c).absorb layer c).layers.ShowsOriginsOnce kb.extension) ∧
    (c.IsNewTo (kb.layers.get layer) →
      ((kb.absorb layer c).forget layer c.names).fresh = kb.fresh ∧
      ∀ cs, kb.Coherent cs → ((kb.absorb layer c).forget layer c.names).Coherent cs) := by
  refine ⟨absorb_absorb kb layer c, absorb_ask_absorb kb layer c, ?_, forget_absorb⟩
  intro hkb hc
  have honce : (kb.absorb layer c).layers.OriginsOnce := by
    rw [absorb_eq_apply]
    exact hkb.mutate (m := .absorb layer c) hc
  rw [absorb_absorb]
  exact ⟨honce, honce.shows kb.extension⟩

/-- Two tags and two members for all tags, which differ in their case only. -/
def twoSpellings : Collection :=
  { tags :=
      [{ name := "X-Card", members := Shelf.ofFn fun _ => [{ name := "size" }] },
        { name := "x-card", members := Shelf.ofFn fun _ => [{ name := "Size", type := .string }] }]
    globals := Shelf.ofFn fun _ => [{ name := "Title" }, { name := "title", required := true }] }

def anotherTag : Collection := { tags := [{ name := "x-list" }] }

theorem originsOnce_anotherTag : anotherTag.OriginsOnce where
  tags := List.forall_mem_singleton.mpr
    ⟨List.nodup_nil, fun k => by cases k <;> exact List.forall_mem_nil _⟩
  globals k := by cases k <;> exact List.forall_mem_nil _

theorem originsOnce_twoSpellings : twoSpellings.OriginsOnce where
  tags := by
    have hmembers (d : Descriptor) (hd : d.related = []) (k : Category) :
        ∀ e ∈ (Shelf.ofFn fun _ => [d]).get k, e.OriginsOnce := by
      rw [Shelf.get_ofFn, List.forall_mem_singleton, Descriptor.OriginsOnce, hd]
      exact List.nodup_nil
    exact List.forall_mem_cons.mpr ⟨⟨List.nodup_nil, hmembers _ rfl⟩,
      List.forall_mem_singleton.mpr ⟨List.nodup_nil, hmembers _ rfl⟩⟩
  globals k := by
    rw [twoSpellings, Shelf.get_ofFn]
    exact List.forall_mem_cons.mpr ⟨List.nodup_nil, List.forall_mem_singleton.mpr List.nodup_nil⟩

theorem absorb_repeated_or_undone_of_two_spellings :
    let kb := run {} [.mutate (.absorb .discovered anotherTag)]
    let once := kb.absorb .discovered twoSpellings
    let asked := once.record (.members .events "x-card")
    kb.layers.OriginsOnce ∧ twoSpellings.OriginsOnce ∧
      twoSpellings.IsNewTo (kb.layers.get .discovered) ∧
      once.absorb .discovered twoSpellings = once ∧
      (asked.absorb .discovered twoSpellings).fresh = once.fresh ∧
      (asked.absorb .discovered twoSpellings).Coherent (fun _ => True) ∧
      (once.absorb .discovered twoSpellings).layers.ShowsOriginsOnce kb.extension ∧
      (once.forget .discovered twoSpellings.names).fresh = kb.fresh ∧
      (once.forget .discovered twoSpellings.names).Coherent (fun _ => True) := by
  intro kb once asked
  have hkb : kb.layers.OriginsOnce :=
    originsOnce_run Layers.originsOnce_empty (List.forall_mem_singleton.mpr originsOnce_anotherTag)
  have hnew : twoSpellings.IsNewTo (kb.layers.get .discovered) := by
    constructor
    · decide
    · intro k
      cases k <;> decide
  -- Nothing has been asked yet, so there is nothing in the memo that could be wrong.
  have hmemo : kb.memo = {} := memo_mutate_of_empty {} rfl (.absorb .discovered anotherTag)
  have hlowered : kb.extension.map lowerName = kb.extension := by decide
  have hcoherent : kb.Coherent fun _ => True := coherent_of_memo_eq hmemo hlowered
  have honce : once.Coherent fun _ => True :=
    coherent_of_memo_eq (memo_mutate_of_empty kb hmemo (.absorb .discovered twoSpellings))
      (lowered_extension_mutate hlowered (.absorb .discovered twoSpellings))
  obtain ⟨htwice, hasked, horigins, hundone⟩ :=
    absorb_repeated_or_undone kb .discovered twoSpellings
  obtain ⟨hfresh, hagain⟩ := hasked [.members .events "x-card"]
  obtain ⟨hlayers, hforgotten⟩ := hundone hnew
  exact ⟨hkb, originsOnce_twoSpellings, hnew, htwice, hfresh, hagain _ honce,
    (horigins hkb originsOnce_twoSpellings).2, hlayers, hforgotten _ hcoherent⟩

end Knowledge
end Inlay
