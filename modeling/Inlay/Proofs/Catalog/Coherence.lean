import Inlay.Proofs.Catalog.Run

/-!
# Coherence of the memo

A memo is sound for a state of the layers when every view in it is the view that
the layers give.  `Coherent` says so of a knowledge base.  Then every reading is
what the knowledge base without its memo would read, since a view that is not in
the memo is made of views that are.

Questions keep a memo sound, whatever they ask.  Mutations keep the parts of it
that `Plan.ofChange` is precise about.  For the views of members this is not all
of them, so a memo is sound for some categories, and `Change.Keeps` says what a
change has to keep in such a category: the views that its plan leaves in the memo.
The theorem about runs, `run_coherent`, asks this of every change.
-/

namespace Inlay

/-- The views that are in the memo are those of the layers, and the views of
members are for some categories. -/
structure Memo.Sound (cs : Category → Prop) (ls : Layers) (e : Option String) (m : Memo) : Prop where
  tags : ∀ {key t}, m.tags.lookup key = some t → t = ls.tag? key
  tagList : ∀ {ts}, m.tagList = some ts → ts = ls.tags e
  globals : ∀ {c view}, m.globals.get c = some view → view = ls.globals c
  members : ∀ {c tag view}, cs c → (m.members.get c).lookup (lowerName tag) = some view →
    view = ls.members e c (lowerName tag)

/-- The memo is sound, and the base of all elements is given by key. -/
structure Knowledge.Coherent (cs : Category → Prop) (kb : Knowledge) : Prop where
  lowered : kb.extension.map lowerName = kb.extension
  sound : kb.memo.Sound cs kb.layers kb.extension

theorem Memo.sound_empty (cs : Category → Prop) (ls : Layers) (e : Option String) :
    ({} : Memo).Sound cs ls e := by
  constructor
  · intro key t h
    exact absurd h (Option.some_ne_none t).symm
  · intro ts h
    exact absurd h (Option.some_ne_none ts).symm
  · intro c view h
    cases c <;> exact absurd h (Option.some_ne_none view).symm
  · intro c tag view _ h
    cases c <;> exact absurd h (Option.some_ne_none view).symm

namespace Knowledge

variable {cs : Category → Prop} {kb : Knowledge}

theorem coherent_of_memo_eq (hmemo : kb.memo = {}) (h : kb.extension.map lowerName = kb.extension) :
    kb.Coherent cs :=
  ⟨h, hmemo ▸ Memo.sound_empty cs _ _⟩

theorem coherent_fresh (h : kb.extension.map lowerName = kb.extension) : kb.fresh.Coherent cs :=
  coherent_of_memo_eq rfl h

theorem Coherent.fresh (h : kb.Coherent cs) : kb.fresh.Coherent cs := coherent_fresh h.lowered

/-! ## Reading -/

namespace Coherent

theorem tagAt?_eq (h : kb.Coherent cs) (key : String) : kb.tagAt? key = kb.layers.tag? key := by
  rw [tagAt?]
  split
  · next t ht => exact h.sound.tags ht
  · rfl

theorem tag?_eq (h : kb.Coherent cs) (name : String) :
    kb.tag? name = kb.layers.tag? (lowerName name) :=
  h.tagAt?_eq _

theorem base?_eq (h : kb.Coherent cs) : kb.base? = kb.extension.bind kb.layers.tag? := by
  rw [base?]
  cases he : kb.extension with
  | none => rfl
  | some name =>
    have hlow : lowerName name = name := by
      have := h.lowered
      rw [he, Option.map_some] at this
      exact Option.some.inj this
    rw [Option.bind_some, Option.bind_some, h.tag?_eq, hlow]

theorem tags_eq (h : kb.Coherent cs) : kb.tags = kb.layers.tags kb.extension := by
  rw [tags]
  split
  · next ts hts => exact h.sound.tagList hts
  · exact List.filterMap_congr fun name _ => h.tag?_eq name

theorem globals_eq (h : kb.Coherent cs) (c : Category) : kb.globals c = kb.layers.globals c := by
  rw [globals]
  split
  · next view hview => exact h.sound.globals hview
  · rfl

theorem members_eq (h : kb.Coherent cs) {c : Category} (hc : cs c) (tag : String) :
    kb.members c tag = kb.layers.members kb.extension c (lowerName tag) := by
  rw [members, membersAt]
  split
  · next view hview => exact h.sound.members hc hview
  · rw [Layers.members]
    simp only [h.tagAt?_eq, h.base?_eq, h.globals_eq, h.tags_eq]

theorem hasTag_eq_fresh (h : kb.Coherent cs) (name : String) :
    kb.hasTag name = kb.fresh.hasTag name := by
  rw [hasTag, hasTag, h.tag?_eq, h.fresh.tag?_eq]
  rfl

theorem tag?_eq_fresh (h : kb.Coherent cs) (name : String) : kb.tag? name = kb.fresh.tag? name := by
  rw [h.tag?_eq, h.fresh.tag?_eq]
  rfl

theorem tags_eq_fresh (h : kb.Coherent cs) : kb.tags = kb.fresh.tags := by
  rw [h.tags_eq, h.fresh.tags_eq]
  rfl

theorem globals_eq_fresh (h : kb.Coherent cs) (c : Category) : kb.globals c = kb.fresh.globals c := by
  rw [h.globals_eq, h.fresh.globals_eq]
  rfl

theorem members_eq_fresh (h : kb.Coherent cs) {c : Category} (hc : cs c) (tag : String) :
    kb.members c tag = kb.fresh.members c tag := by
  rw [h.members_eq hc, h.fresh.members_eq hc]
  rfl

end Coherent

/-- What is read is what the knowledge base would read without its memo. -/
structure ReadsFresh (cs : Category → Prop) (kb : Knowledge) : Prop where
  tag? : ∀ name, kb.tag? name = kb.fresh.tag? name
  hasTag : ∀ name, kb.hasTag name = kb.fresh.hasTag name
  tags : kb.tags = kb.fresh.tags
  globals : ∀ c, kb.globals c = kb.fresh.globals c
  members : ∀ c, cs c → ∀ tag, kb.members c tag = kb.fresh.members c tag

theorem Coherent.readsFresh (h : kb.Coherent cs) : kb.ReadsFresh cs where
  tag? := h.tag?_eq_fresh
  hasTag := h.hasTag_eq_fresh
  tags := h.tags_eq_fresh
  globals := h.globals_eq_fresh
  members _ hc := h.members_eq_fresh hc

theorem layers_of_fresh_eq {a b : Knowledge} (h : a.fresh = b.fresh) : a.layers = b.layers :=
  (Knowledge.mk.inj h).1

theorem extension_of_fresh_eq {a b : Knowledge} (h : a.fresh = b.fresh) :
    a.extension = b.extension :=
  (Knowledge.mk.inj h).2.1

/-! ## Asking

A question changes the memo only, and what it adds is what the layers give. -/

theorem fresh_recordTag (kb : Knowledge) (key : String) : (kb.recordTag key).fresh = kb.fresh := by
  rw [recordTag]
  split <;> rfl

theorem Coherent.recordTag (h : kb.Coherent cs) (key : String) : (kb.recordTag key).Coherent cs := by
  rw [Knowledge.recordTag]
  split
  · exact h
  · refine ⟨h.lowered, ?_, h.sound.tagList, h.sound.globals, h.sound.members⟩
    intro key' t ht
    rw [List.lookup_cons] at ht
    split at ht
    · next hkey => rw [← Option.some.inj ht, beq_iff_eq.mp hkey]
    · exact h.sound.tags ht

theorem fresh_foldl_recordTag (keys : List String) (kb : Knowledge) :
    (keys.foldl Knowledge.recordTag kb).fresh = kb.fresh := by
  induction keys generalizing kb with
  | nil => rfl
  | cons key rest ih => rw [List.foldl_cons, ih, fresh_recordTag]

theorem Coherent.foldl_recordTag (h : kb.Coherent cs) (keys : List String) :
    (keys.foldl Knowledge.recordTag kb).Coherent cs := by
  induction keys generalizing kb with
  | nil => exact h
  | cons key rest ih => exact ih (h.recordTag key)

theorem fresh_recordTags (kb : Knowledge) : kb.recordTags.fresh = kb.fresh := by
  rw [recordTags]
  split
  · rfl
  · exact fresh_foldl_recordTag _ kb

theorem Coherent.recordTags (h : kb.Coherent cs) : kb.recordTags.Coherent cs := by
  rw [Knowledge.recordTags]
  split
  · exact h
  · have hfold := h.foldl_recordTag ((kb.layers.tagNames kb.extension).map lowerName)
    have hfresh := fresh_foldl_recordTag ((kb.layers.tagNames kb.extension).map lowerName) kb
    refine ⟨hfold.lowered, hfold.sound.tags, ?_, hfold.sound.globals, hfold.sound.members⟩
    intro ts hts
    have hlayers := layers_of_fresh_eq hfresh
    rw [← Option.some.inj hts]
    show _ = Layers.tags (List.foldl _ kb _).layers (List.foldl _ kb _).extension
    rw [extension_of_fresh_eq hfresh, Layers.tags, hlayers]
    refine List.filterMap_congr fun name _ => ?_
    rw [hfold.tag?_eq, hlayers]

theorem fresh_recordBase (kb : Knowledge) : kb.recordBase.fresh = kb.fresh := by
  rw [recordBase]
  split
  · exact fresh_recordTag kb _
  · rfl

theorem Coherent.recordBase (h : kb.Coherent cs) : kb.recordBase.Coherent cs := by
  rw [Knowledge.recordBase]
  split
  · exact h.recordTag _
  · exact h

theorem Coherent.recordGlobals (h : kb.Coherent cs) (c : Category) :
    (kb.recordGlobals c).Coherent cs := by
  refine ⟨h.lowered, h.sound.tags, h.sound.tagList, ?_, h.sound.members⟩
  intro c' view hview
  by_cases hc : c' = c
  · rw [hc] at hview ⊢
    have hview' : some (kb.globals c) = some view := by
      rw [← hview]
      exact (Shelf.get_set_self _ c _).symm
    rw [← Option.some.inj hview', h.globals_eq]
    rfl
  · refine h.sound.globals ?_
    rw [← hview]
    exact (Shelf.get_set_ne _ _ hc).symm

/-- The tags that a view of members is made of. -/
def recordEntries (kb : Knowledge) (c : Category) (key : String) : Knowledge :=
  if c.isInherited then (kb.recordTag key).recordBase else kb.recordTag key

/-- All the views that a view of members is made of. -/
def recordParts (kb : Knowledge) (c : Category) (key : String) : Knowledge :=
  let kb := (kb.recordEntries c key).recordGlobals c
  if seesOthers c (kb.tagAt? key) then kb.recordTags else kb

theorem recordMembers_eq (kb : Knowledge) (c : Category) (key : String) :
    kb.recordMembers c key =
      if ((kb.memo.members.get c).lookup key).isSome then kb
      else
        let kb := kb.recordParts c key
        { kb with
          memo := { kb.memo with
            members := kb.memo.members.set c
              ((key, kb.membersAt c key) :: kb.memo.members.get c) } } := rfl

theorem fresh_recordEntries (kb : Knowledge) (c : Category) (key : String) :
    (kb.recordEntries c key).fresh = kb.fresh := by
  rw [recordEntries]
  split
  · rw [fresh_recordBase, fresh_recordTag]
  · rw [fresh_recordTag]

theorem Coherent.recordEntries (h : kb.Coherent cs) (c : Category) (key : String) :
    (kb.recordEntries c key).Coherent cs := by
  rw [Knowledge.recordEntries]
  split
  · exact (h.recordTag key).recordBase
  · exact h.recordTag key

theorem fresh_recordParts (kb : Knowledge) (c : Category) (key : String) :
    (kb.recordParts c key).fresh = kb.fresh := by
  rw [recordParts]
  split
  · rw [fresh_recordTags]
    exact fresh_recordEntries kb c key
  · exact fresh_recordEntries kb c key

theorem Coherent.recordParts (h : kb.Coherent cs) (c : Category) (key : String) :
    (kb.recordParts c key).Coherent cs := by
  rw [Knowledge.recordParts]
  split
  · exact ((h.recordEntries c key).recordGlobals c).recordTags
  · exact (h.recordEntries c key).recordGlobals c

theorem Coherent.recordMembers (h : kb.Coherent cs) (c : Category) (key : String) :
    (kb.recordMembers c key).Coherent cs := by
  rw [recordMembers_eq]
  split
  · exact h
  · have hparts := h.recordParts c key
    refine ⟨hparts.lowered, hparts.sound.tags, hparts.sound.tagList, hparts.sound.globals, ?_⟩
    intro c' tag view hc' hview
    -- Only the new view has to be looked at, and the memo that it is made from is sound.
    by_cases hc : c' = c
    · rw [hc] at hc' hview ⊢
      have hview' : ((key, (kb.recordParts c key).membersAt c key) ::
          (kb.recordParts c key).memo.members.get c).lookup (lowerName tag) = some view := by
        rw [← hview]
        exact congrArg _ (Shelf.get_set_self _ c _).symm
      rw [List.lookup_cons] at hview'
      split at hview'
      · next hkey =>
        obtain rfl : lowerName tag = key := beq_iff_eq.mp hkey
        rw [← Option.some.inj hview']
        exact hparts.members_eq hc' tag
      · exact hparts.sound.members hc' hview'
    · refine hparts.sound.members hc' ?_
      rw [← hview]
      exact congrArg (List.lookup _) (Shelf.get_set_ne _ _ hc).symm

/-- A question leaves everything but the memo alone. -/
theorem fresh_record (kb : Knowledge) (q : Question) : (kb.record q).fresh = kb.fresh := by
  cases q with
  | tag key => exact fresh_recordTag kb key
  | tags => exact fresh_recordTags kb
  | globals c => rfl
  | members c key =>
    rw [record, recordMembers_eq]
    split
    · rfl
    · exact fresh_recordParts kb c key

@[simp] theorem layers_record (kb : Knowledge) (q : Question) :
    (kb.record q).layers = kb.layers :=
  layers_of_fresh_eq (fresh_record kb q)

@[simp] theorem extension_record (kb : Knowledge) (q : Question) :
    (kb.record q).extension = kb.extension :=
  extension_of_fresh_eq (fresh_record kb q)

theorem Coherent.record (h : kb.Coherent cs) (q : Question) : (kb.record q).Coherent cs := by
  cases q with
  | tag key => exact h.recordTag key
  | tags => exact h.recordTags
  | globals c => exact h.recordGlobals c
  | members c key => exact h.recordMembers c key

end Knowledge

/-! ## Mutating -/

namespace Change

/-- A change touches the base of all elements. -/
def touchesBase (change : Change) (e : Option String) : Bool := e.any change.keys.contains

/-- The views of members that the plan of a change leaves in the memo are the same
in both states of the layers. -/
def Keeps (change : Change) (e : Option String) (old new : Layers) (c : Category) : Prop :=
  (Plan.ofChange change e).allTags.get c = false → ∀ tag, lowerName tag ∉ change.keys →
    new.members e c (lowerName tag) = old.members e c (lowerName tag)

/-- A change keeps what its plan leaves, in some categories. -/
def KeepsIn (cs : Category → Prop) (e : Option String) (change : Change) (old new : Layers) : Prop :=
  ∀ c, cs c → change.Keeps e old new c

variable {change : Change} {e : Option String} {c : Category}

theorem mem_plan_tags {key : String} : key ∈ (Plan.ofChange change e).tags ↔ key ∈ change.keys :=
  List.mem_eraseDups

theorem globals_plan : (Plan.ofChange change e).globals.get c = change.touches c :=
  Shelf.get_ofFn _ c

theorem allTags_plan : (Plan.ofChange change e).allTags.get c =
    (change.touches c || (change.touchesBase e && Plan.inherits c)) := by
  have hbase : e.any (change.keys.eraseDups).contains = change.touchesBase e := by
    rw [touchesBase]
    congr 1
    funext key
    rw [Bool.eq_iff_iff, List.contains_iff_mem, List.contains_iff_mem, List.mem_eraseDups]
  rw [← hbase]
  exact Shelf.get_ofFn _ c

theorem globals_eq_nil_of_touches (h : change.touches c = false) :
    change.names.globals.get c = [] := by
  rw [touches.eq_def, Bool.or_eq_false_iff] at h
  simpa using h.1

theorem Covers.base_eq {old new : Layers} (h : change.Covers old new)
    (hbase : change.touchesBase e = false) : e.bind new.tag? = e.bind old.tag? := by
  cases e with
  | none => rfl
  | some key =>
    apply h.tag?_eq
    intro hmem
    rw [touchesBase, Option.any_some] at hbase
    exact Bool.false_ne_true (hbase.symm.trans (List.contains_iff_mem.mpr hmem))

end Change

theorem Memo.lookup_without_of_notMem {α : Type} {keys : List String} {es : List (String × α)}
    {key : String} (h : key ∉ keys) : (without keys es).lookup key = es.lookup key := by
  induction es with
  | nil => rfl
  | cons a rest ih =>
    obtain ⟨k, v⟩ := a
    by_cases hk : k ∈ keys
    · have hdrop : without keys ((k, v) :: rest) = without keys rest :=
        List.filter_cons_of_neg (by simpa using hk)
      have hne : (key == k) = false := beq_eq_false_iff_ne.mpr fun e => h (e ▸ hk)
      rw [hdrop, ih, List.lookup_cons, hne]
    · have hkeep : without keys ((k, v) :: rest) = (k, v) :: without keys rest :=
        List.filter_cons_of_pos (by simpa using hk)
      rw [hkeep, List.lookup_cons, List.lookup_cons, ih]

theorem Memo.lookup_without_of_mem {α : Type} {keys : List String} {es : List (String × α)}
    {key : String} (h : key ∈ keys) : (without keys es).lookup key = none := by
  rw [List.lookup_eq_none_iff]
  intro e he
  have hkeep : e.1 ∉ keys := by simpa using (List.mem_filter.mp he).2
  exact bne_iff_ne.mpr fun heq => hkeep (heq ▸ h)

/-- What is left in the memo was there, under a key that is not dropped. -/
theorem Memo.lookup_without {α : Type} {keys : List String} {es : List (String × α)} {key : String}
    {value : α} (h : (without keys es).lookup key = some value) :
    key ∉ keys ∧ es.lookup key = some value := by
  by_cases hkey : key ∈ keys
  · rw [lookup_without_of_mem hkey] at h
    exact absurd h (Option.some_ne_none value).symm
  · rw [lookup_without_of_notMem hkey] at h
    exact ⟨hkey, h⟩

/-- Dropping what a plan names keeps a memo sound across the change that the plan
is made for. -/
theorem Memo.Sound.apply {cs : Category → Prop} {old new : Layers} {e : Option String} {m : Memo}
    {change : Change} (h : m.Sound cs old e) (hcovers : change.Covers old new)
    (hkeeps : change.KeepsIn cs e old new) :
    (m.apply (Plan.ofChange change e)).Sound cs new e := by
  constructor
  · intro key t ht
    obtain ⟨hkey, ht⟩ := lookup_without ht
    rw [h.tags ht, hcovers.tag?_eq fun hmem => hkey (Change.mem_plan_tags.mpr hmem)]
  · intro ts hts
    rw [Memo.apply] at hts
    split at hts
    · exact absurd hts (Option.some_ne_none ts).symm
    · next hlist =>
      have hnone : change.names.tags = [] := by simpa [Plan.ofChange] using hlist
      rw [h.tagList hts, hcovers.tags_eq hnone]
  · intro c view hview
    rw [Memo.apply, Shelf.get_ofFn, Change.globals_plan] at hview
    split at hview
    · exact absurd hview (Option.some_ne_none view).symm
    · next htouch =>
      have hnone := Change.globals_eq_nil_of_touches (Bool.eq_false_iff.mpr htouch)
      rw [h.globals hview, hcovers.globals_eq hnone]
  · intro c tag view hc hview
    rw [Memo.apply, Shelf.get_ofFn] at hview
    split at hview
    · exact absurd hview (Option.some_ne_none view).symm
    · next hall =>
      obtain ⟨hkey, hview⟩ := lookup_without hview
      rw [h.members hc hview]
      refine (hkeeps c hc (Bool.eq_false_iff.mpr hall) tag ?_).symm
      exact fun hmem => hkey (Change.mem_plan_tags.mpr hmem)

theorem Memo.apply_empty (m : Memo) : m.apply {} = m := by
  have hkeep {α : Type} (es : List (String × α)) : without [] es = es := List.filter_true es
  have hmembers : (Shelf.ofFn fun c => without [] (m.members.get c)) = m.members := by
    simp only [hkeep]
    rfl
  rw [Memo.apply, hkeep]
  exact congrArg (Memo.mk m.tags m.tagList m.globals) hmembers

theorem Collection.eq_empty_of_isEmpty {c : Collection} (h : c.isEmpty = true) : c = {} := by
  obtain ⟨tags, attributes, properties, events, slots, cssParts, cssProperties⟩ := c
  simp only [isEmpty, Shelf.toList, List.all_cons, List.all_nil, Bool.and_true, Bool.and_eq_true,
    List.isEmpty_iff] at h
  obtain ⟨rfl, rfl, rfl, rfl, rfl, rfl, rfl⟩ := h
  rfl

namespace Knowledge

/-- A plan that names nothing drops nothing. -/
theorem apply_eq (kb : Knowledge) (p : Plan) : kb.apply p = { kb with memo := kb.memo.apply p } := by
  rw [apply]
  split
  · next h =>
    have hp : p = {} := of_decide_eq_true h
    rw [hp, Memo.apply_empty]
  · rfl

/-- Absorbing nothing is no exception: its plan names nothing. -/
theorem absorb_eq (kb : Knowledge) (layer : Layer) (c : Collection) :
    kb.absorb layer c =
      { kb with layers := kb.layers.set layer ((kb.layers.get layer).absorb layer c).2 }.invalidate
        ((Change.ofCollection c).union
          (Change.ofNames {} ((kb.layers.get layer).absorb layer c).1)) := by
  rw [absorb]
  split
  · next h =>
    have hlayers : kb.layers.set layer ((kb.layers.get layer).absorb layer {}).2 = kb.layers := by
      cases layer <;> rfl
    have hplan : Plan.ofChange ((Change.ofCollection {}).union
        (Change.ofNames {} ((kb.layers.get layer).absorb layer {}).1)) kb.extension = {} := by
      cases kb.extension <;> rfl
    rw [Collection.eq_empty_of_isEmpty h, hlayers, invalidate]
    rw [show (kb.layers.get layer).absorb layer {} = _ from rfl] at hplan
    rw [hplan, apply_eq, Memo.apply_empty]
  · rfl

variable {kb : Knowledge} {m : Mutation} {change : Change}

theorem mutate_of_change? (h : m.change? kb.layers = some change) :
    kb.mutate m = { kb with
      layers := m.layers kb.layers
      memo := kb.memo.apply (Plan.ofChange change kb.extension) } := by
  cases m with
  | absorb layer c =>
    rw [mutate, absorb_eq, invalidate, apply_eq, ← Option.some.inj h]
    rfl
  | forget layer names =>
    rw [← Option.some.inj h]
    exact apply_eq _ _
  | clearLayer layer => exact absurd h (Option.some_ne_none change).symm
  | setExtension name => exact absurd h (Option.some_ne_none change).symm

theorem mutate_of_change?_none (h : m.change? kb.layers = none) :
    kb.mutate m = { layers := m.layers kb.layers, extension := m.extension kb.extension } := by
  cases m with
  | absorb layer c => exact absurd h (Option.some_ne_none _)
  | forget layer names => exact absurd h (Option.some_ne_none _)
  | clearLayer layer => rfl
  | setExtension name => rfl

theorem layers_mutate (kb : Knowledge) (m : Mutation) :
    (kb.mutate m).layers = m.layers kb.layers := by
  cases h : m.change? kb.layers with
  | none => rw [mutate_of_change?_none h]
  | some change => rw [mutate_of_change? h]

theorem extension_mutate (kb : Knowledge) (m : Mutation) :
    (kb.mutate m).extension = m.extension kb.extension := by
  cases h : m.change? kb.layers with
  | none => rw [mutate_of_change?_none h]
  | some change => rw [mutate_of_change? h, m.extension_of_change? h]

theorem lowered_extension_mutate (h : kb.extension.map lowerName = kb.extension) (m : Mutation) :
    (kb.mutate m).extension.map lowerName = (kb.mutate m).extension := by
  rw [extension_mutate]
  cases m with
  | setExtension name =>
    cases name with
    | none => rfl
    | some name => exact congrArg some (lowerName_lowerName name)
  | absorb _ _ => exact h
  | forget _ _ => exact h
  | clearLayer _ => exact h

/-- One mutation keeps a knowledge base coherent for the categories in which its
change keeps what the plan leaves. -/
theorem Coherent.mutate {cs : Category → Prop} (h : kb.Coherent cs)
    (hkeeps : ∀ change, m.change? kb.layers = some change →
      change.KeepsIn cs kb.extension kb.layers (m.layers kb.layers)) :
    (kb.mutate m).Coherent cs := by
  have hlowered := lowered_extension_mutate h.lowered m
  rw [extension_mutate] at hlowered
  cases hc : m.change? kb.layers with
  | none =>
    rw [mutate_of_change?_none hc]
    exact ⟨hlowered, Memo.sound_empty cs _ _⟩
  | some change =>
    rw [mutate_of_change? hc]
    exact ⟨h.lowered, h.sound.apply (Mutation.covers_change? hc) (hkeeps change hc)⟩

end Knowledge

/-! ## Runs -/

/-- Each change of a list of mutations has a property, in the state of the layers
that the mutations before it lead to. -/
def Mutation.Each (P : Option String → Change → Layers → Layers → Prop) :
    Layers → Option String → List Mutation → Prop
  | _, _, [] => True
  | ls, e, m :: rest =>
    (∀ change, m.change? ls = some change → P e change ls (m.layers ls)) ∧
      Each P (m.layers ls) (m.extension e) rest

theorem Mutation.Each.imp {P Q : Option String → Change → Layers → Layers → Prop}
    (h : ∀ {e change old new}, change.Covers old new → P e change old new → Q e change old new)
    {ls : Layers} {e : Option String} {ms : List Mutation} (hms : Each P ls e ms) :
    Each Q ls e ms := by
  induction ms generalizing ls e with
  | nil => trivial
  | cons m rest ih =>
    refine ⟨?_, ih hms.2⟩
    intro change hchange
    exact h (covers_change? hchange) (hms.1 change hchange)

/-- What every covered change has, every change of a list has. -/
theorem Mutation.Each.of_covers {P : Option String → Change → Layers → Layers → Prop}
    (h : ∀ {e change old new}, change.Covers old new → P e change old new)
    (ls : Layers) (e : Option String) (ms : List Mutation) : Each P ls e ms := by
  induction ms generalizing ls e with
  | nil => trivial
  | cons m rest ih => exact ⟨fun change hchange => h (covers_change? hchange), ih _ _⟩

namespace Knowledge

variable {cs : Category → Prop} {kb : Knowledge}

/-- A run in which every change keeps what its plan leaves ends in a coherent
state.  The run may ask any questions in between, and may stop before the last
mutation. -/
theorem Coherent.run {ms : List Mutation} (h : kb.Coherent cs)
    (hms : Mutation.Each (Change.KeepsIn cs) kb.layers kb.extension ms)
    {as : List Action} (has : Action.mutations as <+: ms) : (kb.run as).Coherent cs := by
  induction as generalizing kb ms with
  | nil => exact h
  | cons a rest ih =>
    cases a with
    | ask q =>
      have hms' : Mutation.Each (Change.KeepsIn cs) (kb.record q).layers (kb.record q).extension
          ms := by
        rw [layers_record, extension_record]
        exact hms
      exact ih (h.record q) hms' has
    | mutate m =>
      cases ms with
      | nil => exact absurd (List.prefix_nil.mp has) (List.cons_ne_nil _ _)
      | cons m' ms =>
        obtain ⟨rfl, hrest⟩ := List.cons_prefix_cons.mp has
        have hms' : Mutation.Each (Change.KeepsIn cs) (kb.mutate m).layers
            (kb.mutate m).extension ms := by
          rw [layers_mutate, extension_mutate]
          exact hms.2
        exact ih (h.mutate hms.1) hms' hrest

/-- A view that is in the memo is what is read. -/
theorem members_of_lookup {c : Category} {tag : String} {view : NameMap Descriptor}
    (h : (kb.memo.members.get c).lookup (lowerName tag) = some view) : kb.members c tag = view := by
  rw [members, membersAt, h]

/-- A view that has been asked for is in the memo. -/
theorem lookup_recordMembers (kb : Knowledge) (c : Category) (key : String) :
    (((kb.recordMembers c key).memo.members.get c).lookup key).isSome := by
  rw [recordMembers_eq]
  split
  · next h => exact h
  · show (List.lookup key (Shelf.get (Shelf.set _ c ((key, _) :: _)) c)).isSome = true
    rw [Shelf.get_set_self, List.lookup_cons_self, Option.isSome_some]

/-- A view that a change leaves in the memo is read as it was before. -/
theorem Coherent.members_ask_mutate (h : kb.Coherent cs) {m : Mutation} {change : Change}
    (hm : m.change? kb.layers = some change) {c : Category} (hc : cs c)
    (hall : (Plan.ofChange change kb.extension).allTags.get c = false) {tag : String}
    (htag : lowerName tag ∉ change.keys) :
    ((kb.record (.members c (lowerName tag))).mutate m).members c tag =
      kb.layers.members kb.extension c (lowerName tag) := by
  have hasked := h.record (.members c (lowerName tag))
  obtain ⟨view, hview⟩ := Option.isSome_iff_exists.mp (lookup_recordMembers kb c (lowerName tag))
  have hold : view = kb.layers.members kb.extension c (lowerName tag) := by
    have := hasked.sound.members hc hview
    rwa [layers_record, extension_record] at this
  have hm' : m.change? (kb.record (.members c (lowerName tag))).layers = some change := by
    rw [layers_record, hm]
  have hkept : (((kb.record (.members c (lowerName tag))).mutate m).memo.members.get c).lookup
      (lowerName tag) = some view := by
    rw [mutate_of_change? hm', extension_record]
    show ((Memo.apply _ _).members.get c).lookup (lowerName tag) = some view
    rw [Memo.apply, Shelf.get_ofFn, hall, if_neg Bool.false_ne_true,
      Memo.lookup_without_of_notMem fun hmem => htag (Change.mem_plan_tags.mp hmem)]
    exact hview
  rw [members_of_lookup hkept, hold]

/-- Nothing can be dropped from an empty memo. -/
theorem memo_mutate_of_empty (kb : Knowledge) (hmemo : kb.memo = {}) (m : Mutation) :
    (kb.mutate m).memo = {} := by
  cases hchange : m.change? kb.layers with
  | none => rw [mutate_of_change?_none hchange]
  | some change =>
    rw [mutate_of_change? hchange, hmemo]
    show ({} : Memo).apply (Plan.ofChange change kb.extension) = {}
    simp only [Memo.apply, Memo.without, List.filter_nil, ite_self, Shelf.get_ofFn]

/-- The other direction: if no run reads a stale view, every change keeps what its
plan leaves.  The run that shows it asks for a view right before the change. -/
theorem each_keeps_of_members_eq_fresh {ms : List Mutation}
    (hlowered : kb.extension.map lowerName = kb.extension) (hmemo : kb.memo = {})
    (h : ∀ as, Action.mutations as <+: ms → ∀ c, cs c → ∀ tag,
      (kb.run as).members c tag = (kb.run as).fresh.members c tag) :
    Mutation.Each (Change.KeepsIn cs) kb.layers kb.extension ms := by
  induction ms generalizing kb with
  | nil => trivial
  | cons m rest ih =>
    have hco : kb.Coherent cs := coherent_of_memo_eq hmemo hlowered
    constructor
    · intro change hchange c hc hall tag htag
      -- The view is asked for and then left by the plan, so the old one is read.  If that is
      -- what the layers give now, the view has not changed.
      have hread := h [.ask (.members c (lowerName tag)), .mutate m]
        (List.cons_prefix_cons.mpr ⟨rfl, List.nil_prefix⟩) c hc tag
      have hkept := hco.members_ask_mutate hchange hc hall htag
      have hext : ((kb.record (.members c (lowerName tag))).mutate m).extension = kb.extension := by
        rw [extension_mutate, extension_record, m.extension_of_change? hchange]
      have hfresh : Coherent cs ((kb.record (.members c (lowerName tag))).mutate m).fresh :=
        coherent_fresh (by rw [hext, hlowered])
      have hnew := hfresh.members_eq hc tag
      have hlayers : ((kb.record (.members c (lowerName tag))).mutate m).layers =
          m.layers kb.layers := by
        rw [layers_mutate, layers_record]
      rw [← hkept, ← hlayers]
      conv_lhs => rw [← hext]
      exact hnew.symm.trans hread.symm
    · rw [← layers_mutate kb m, ← extension_mutate kb m]
      refine ih (lowered_extension_mutate hlowered m) (memo_mutate_of_empty kb hmemo m) ?_
      intro as has
      exact h (.mutate m :: as) (List.cons_prefix_cons.mpr ⟨rfl, has⟩)

end Knowledge
end Inlay
