import Inlay.Proofs.Catalog.Coherence
import Inlay.Proofs.Catalog.Untouched

/-!
# Members that tags inherit from the base of all elements

Every view of members but those of slots holds the members of the base of all
elements.  When a change touches the base, its plan drops the views of all tags
in the categories that `Plan.inherits` names.  The css parts and css properties are not
among them, though `Category.isInherited` says that they are inherited: their views
are dropped only if a touched tag has css members itself.

This is enough as long as a change that touches no css member leaves the inherited
ones as they were.  `KeepsInherited` states just that, and `run_readsFresh_iff` that
nothing else can make a view stale, that of events apart.  It fails when an entry of
the base repeats a css name, since such an entry is joined in another way once it has
an entry of a lower layer before it.
-/

namespace Inlay

theorem Layers.members_of_ne_events {c : Category} (hc : c ≠ .events) (ls : Layers)
    (e : Option String) (key : String) :
    ls.members e c key = joined c (ls.tag? key) (e.bind ls.tag?) (ls.globals c) := by
  have hothers : seesOthers c (ls.tag? key) = false := by
    rw [seesOthers, decide_eq_false hc, Bool.false_and]
  rw [Layers.members]
  simp only [hothers]
  rfl

namespace Change

/-- A change that touches the base of all elements, but no member of the category,
leaves what other tags have of that category as it was. -/
def KeepsInherited (change : Change) (e : Option String) (old new : Layers) (c : Category) : Prop :=
  change.touches c = false → change.touchesBase e = true → ∀ tag, lowerName tag ∉ change.keys →
    joined c (old.tag? (lowerName tag)) (e.bind new.tag?) (old.globals c) =
      joined c (old.tag? (lowerName tag)) (e.bind old.tag?) (old.globals c)

section Covered

variable {change : Change} {old new : Layers} {e : Option String} {c : Category}

/-- Behind a change, a view can differ from what it was in the inherited members
only. -/
theorem Covers.members_eq (h : change.Covers old new) (hc : c ≠ .events)
    (htouch : change.touches c = false) {key : String} (hkey : key ∉ change.keys) :
    new.members e c key = joined c (old.tag? key) (e.bind new.tag?) (old.globals c) := by
  rw [Layers.members_of_ne_events hc, h.tag?_eq hkey,
    h.globals_eq (globals_eq_nil_of_touches htouch)]

/-- The plan drops the views of all tags when the base is touched. -/
theorem Covers.keeps_of_inherits (h : change.Covers old new) (hc : c ≠ .events)
    (hinherits : Plan.inherits c = true) : change.Keeps e old new c := by
  intro hall tag htag
  rw [allTags_plan, hinherits, Bool.and_true, Bool.or_eq_false_iff] at hall
  rw [h.members_eq hc hall.1 htag, h.base_eq hall.2, Layers.members_of_ne_events hc]

/-- The plan does not see the base. -/
theorem Covers.keeps_iff_keepsInherited (h : change.Covers old new)
    (hinherits : Plan.inherits c = false) :
    change.Keeps e old new c ↔ change.KeepsInherited e old new c := by
  have hc : c ≠ .events := by
    rintro rfl
    exact Bool.false_ne_true hinherits.symm
  have hall : (Plan.ofChange change e).allTags.get c = change.touches c := by
    rw [allTags_plan, hinherits, Bool.and_false, Bool.or_false]
  rw [Keeps, KeepsInherited, hall]
  constructor
  · intro hkeeps htouch _ tag htag
    rw [← h.members_eq hc htouch htag, hkeeps htouch tag htag, Layers.members_of_ne_events hc]
  · intro hkeeps htouch tag htag
    rw [h.members_eq hc htouch htag, Layers.members_of_ne_events hc]
    by_cases hbase : change.touchesBase e = true
    · exact hkeeps htouch hbase tag htag
    · rw [h.base_eq (Bool.eq_false_iff.mpr hbase)]

end Covered

end Change

/-! ## Entries that repeat no name -/

/-- No entry of a layer repeats a name in the category. -/
def Layers.Distinct (c : Category) (ls : Layers) : Prop :=
  ∀ layer key, Inlay.Distinct (membersOf ((ls.get layer).tags.find? key) c)

/-- No tag that is put in repeats a name in the category. -/
def Mutation.Distinct (c : Category) : Mutation → Prop
  | .absorb _ coll => ∀ t ∈ coll.tags, Inlay.Distinct (t.members.get c)
  | .forget _ _ | .clearLayer _ | .setExtension _ => True

theorem Distinct.stamp {layer : Layer} {t : Tag} {c : Category} (h : Distinct (t.members.get c)) :
    Distinct ((t.stamp layer).members.get c) := by
  rw [Tag.stamp, Shelf.get_ofFn, Distinct, List.map_map]
  have hkey : NameMap.key ∘ (fun d : Descriptor =>
      if Tag.owns c then (d.stamp { layer := layer, fromTag := some t.name }).ofTag t.name
      else d.stamp { layer := layer, fromTag := some t.name }) = NameMap.key := by
    funext d
    rw [Function.comp_apply]
    split <;> rfl
  rw [hkey]
  exact h

namespace Layers

variable {ls : Layers} {c : Category}

theorem distinct_empty : ({} : Layers).Distinct c := by
  intro layer key
  cases layer <;> exact List.nodup_nil

theorem Distinct.set (h : ls.Distinct c) {layer : Layer} {s : Store}
    (hs : ∀ key, Inlay.Distinct (membersOf (s.tags.find? key) c)) :
    (ls.set layer s).Distinct c :=
  forall_get_set (P := fun _ s => ∀ key, Inlay.Distinct (membersOf (s.tags.find? key) c)) h hs

theorem Distinct.mutate (hls : ls.Indexed) (h : ls.Distinct c) {m : Mutation} (hm : m.Distinct c) :
    (m.layers ls).Distinct c := by
  cases m with
  | absorb layer coll =>
    refine h.set fun key => ?_
    rw [Store.absorb_tags]
    by_cases hkey : key ∈ coll.tags.map NameMap.key
    · obtain ⟨t, ht, _, hnew⟩ := Store.find?_putTags_of_mem layer hkey
      rw [hnew]
      exact (hm t ht).stamp
    · rw [Store.find?_putTags_of_notMem layer hkey]
      exact h layer key
  | forget layer names =>
    refine h.set fun key => ?_
    rw [Store.forget_tags]
    by_cases hkey : key ∈ names.tags.map lowerName
    · rw [Store.find?_takeTags_of_mem (hls layer) hkey]
      exact List.nodup_nil
    · rw [Store.find?_takeTags_of_notMem hkey]
      exact h layer key
  | clearLayer layer => exact h.set fun _ => List.nodup_nil
  | setExtension name => exact h

end Layers

/-- An entry without css members is neutral among entries that repeat none. -/
theorem Mutation.keepsInherited_of_distinct {m : Mutation} {ls : Layers} {change : Change}
    {e : Option String} {c : Category} (hls : ls.Indexed) (h : m.change? ls = some change)
    (hc : Change.tracks c = true) (hold : ls.Distinct c) (hnew : (m.layers ls).Distinct c) :
    change.KeepsInherited e ls (m.layers ls) c := by
  intro htouch _ tag _
  have hbase : membersOf (e.bind (m.layers ls).tag?) c = membersOf (e.bind ls.tag?) c := by
    cases e with
    | none => rfl
    | some key =>
      rw [Option.bind_some, Option.bind_some,
        Layers.membersOf_tag?_of_distinct fun layer => hnew layer key,
        Layers.membersOf_tag?_of_distinct fun layer => hold layer key]
      simp only [(untouched hls h hc htouch _).entry]
  rw [joined, joined, hbase]

/-! ## Runs -/

theorem Mutation.each_keepsInherited_of_distinct {ls : Layers} {e : Option String}
    {ms : List Mutation} (hls : ls.Indexed)
    (h : ∀ c, Plan.inherits c = false → ls.Distinct c ∧ ∀ m ∈ ms, m.Distinct c) :
    Each (fun e change old new => ∀ c, Plan.inherits c = false → change.KeepsInherited e old new c)
      ls e ms := by
  induction ms generalizing ls e with
  | nil => trivial
  | cons m rest ih =>
    have hstep : ∀ c, Plan.inherits c = false → (m.layers ls).Distinct c := fun c hc =>
      (h c hc).1.mutate hls ((h c hc).2 m List.mem_cons_self)
    constructor
    · intro change hchange c hc
      have htracks : Change.tracks c = true := by
        cases c <;> first | rfl | exact absurd hc.symm Bool.false_ne_true
      exact keepsInherited_of_distinct hls hchange htracks (h c hc).1 (hstep c hc)
    · refine ih (hls.mutate m) fun c hc => ⟨hstep c hc, fun m' hm' => ?_⟩
      exact (h c hc).2 m' (List.mem_cons_of_mem _ hm')

namespace Knowledge

theorem run_readsFresh_of_each {ms : List Mutation}
    (hms : Mutation.Each (fun e change old new =>
      ∀ c, Plan.inherits c = false → change.KeepsInherited e old new c) {} (some "htmlelement") ms)
    {as : List Action} (has : Action.mutations as <+: ms) :
    (run {} as).ReadsFresh (· ≠ .events) := by
  have hstart : Coherent (· ≠ .events) {} := ⟨by decide, Memo.sound_empty _ _ _⟩
  refine (hstart.run ?_ has).readsFresh
  refine hms.imp fun hcovers hall c hc => ?_
  by_cases hinherits : Plan.inherits c = true
  · exact hcovers.keeps_of_inherits hc hinherits
  · have hinherits := Bool.eq_false_iff.mpr hinherits
    exact (hcovers.keeps_iff_keepsInherited hinherits).mpr (hall c hinherits)

/-- In whatever way questions come between the mutations, every reading but that of
events is what the layers give, if and only if each change that misses the css
members keeps those that are inherited. -/
theorem run_readsFresh_iff (ms : List Mutation) :
    (∀ as, Action.mutations as <+: ms → (run {} as).ReadsFresh (· ≠ .events)) ↔
      Mutation.Each (fun e change old new =>
        ∀ c, Plan.inherits c = false → change.KeepsInherited e old new c)
        {} (some "htmlelement") ms := by
  constructor
  · intro h
    have hkeeps := @each_keeps_of_members_eq_fresh (· ≠ .events) {} ms (by decide) rfl
      fun as has => (h as has).members
    refine hkeeps.imp fun hcovers hall c hinherits => ?_
    refine (hcovers.keeps_iff_keepsInherited hinherits).mp (hall c ?_)
    rintro rfl
    exact Bool.false_ne_true hinherits.symm
  · intro hms as has
    exact run_readsFresh_of_each hms has

/-- Collections whose tags repeat no css name cannot make a view stale. -/
theorem run_readsFresh_of_distinct {ms : List Mutation}
    (h : ∀ c, Plan.inherits c = false → ∀ m ∈ ms, m.Distinct c)
    {as : List Action} (has : Action.mutations as <+: ms) :
    (run {} as).ReadsFresh (· ≠ .events) :=
  run_readsFresh_of_each (Mutation.each_keepsInherited_of_distinct Layers.indexed_empty
    fun c hc => ⟨Layers.distinct_empty, h c hc⟩) has

/-- The base of all elements with css parts. -/
def baseWithParts (parts : List Descriptor) : Collection :=
  { tags := [{ name := "htmlelement", members := Shelf.set (Shelf.ofFn fun _ => []) .cssParts parts }] }

/-- The base has a css part in two layers, and in one of them twice.  Then a lower
layer describes the base, too, without any css part. -/
def repeatedPart : List Action :=
  [.mutate (.absorb .userConfig (baseWithParts
      [{ name := "thumb" }, { name := "Thumb", description := some "second" }])),
    .mutate (.absorb .discovered (baseWithParts
      [{ name := "thumb", description := some "third" }])),
    .ask (.members .cssParts "div"),
    .mutate (.absorb .builtIn (baseWithParts []))]

/-- The view that was asked for stays, although the part is described by another
layer now. -/
theorem cssParts_stale_of_repeated_part :
    ((run {} repeatedPart).members .cssParts "div").values.map (·.description) = [some "third"] ∧
      ((run {} repeatedPart).fresh.members .cssParts "div").values.map (·.description) =
        [some "second"] := by
  constructor <;> decide +kernel

end Knowledge
end Inlay
