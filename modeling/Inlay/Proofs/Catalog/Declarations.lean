import Inlay.Proofs.Catalog.Store

/-!
# Declarations of tags

Of the layers that describe a tag, the first one that says where it is declared is kept.
In a session only the discovered layer says so, and then the declaration of a tag is the one that
this layer has: `OnlyDiscovered.declaration_tag?`.
-/

namespace Inlay

/-! ## Merged tags -/

theorem Tag.declaration_foldl_merge (t : Tag) (ts : List Tag) :
    (ts.foldl Tag.merge t).declaration = t.declaration.or (ts.findSome? (·.declaration)) := by
  induction ts generalizing t with
  | nil => exact (Option.or_none).symm
  | cons u rest ih =>
    have hmerge : (t.merge u).declaration = t.declaration.or u.declaration :=
      Option.orElse_eq_or
    rw [List.foldl_cons, ih, hmerge, List.findSome?_cons, Option.or_assoc]
    cases u.declaration <;> rfl

theorem Tag.isDeclared_foldl_merge (t : Tag) (ts : List Tag) :
    (ts.foldl Tag.merge t).isDeclared = (t.isDeclared || ts.any (·.isDeclared)) := by
  induction ts generalizing t with
  | nil => exact (Bool.or_false _).symm
  | cons u rest ih => rw [List.foldl_cons, ih, List.any_cons, ← Bool.or_assoc]; rfl

/-- The first declaration stays. -/
theorem Layers.declaration_joinTags (ts : List Tag) :
    (joinTags ts).bind (·.declaration) = ts.findSome? (·.declaration) := by
  cases ts with
  | nil => rfl
  | cons t rest =>
    rw [joinTags, Option.bind_some, Tag.declaration_foldl_merge, List.findSome?_cons]
    cases t.declaration <;> rfl

theorem Layers.isDeclared_joinTags (ts : List Tag) :
    (joinTags ts).any (·.isDeclared) = ts.any (·.isDeclared) := by
  cases ts with
  | nil => rfl
  | cons t rest => exact Tag.isDeclared_foldl_merge t rest

theorem Layers.isDeclared_tag? {ls : Layers} (layer : Layer) {key : String} {t : Tag}
    (ht : (ls.get layer).tags.find? key = some t) (hdeclared : t.isDeclared = true) :
    (ls.tag? key).any (·.isDeclared) = true := by
  rw [tag?, isDeclared_joinTags, List.any_eq_true]
  refine ⟨t, List.mem_filterMap.mpr ⟨ls.get layer, ?_, ht⟩, hdeclared⟩
  cases layer <;> simp [toList, get]

/-! ## Layers without declarations -/

/-- No entry of a store says where its tag is declared. -/
def Store.Undeclared (s : Store) : Prop :=
  ∀ key t, s.tags.find? key = some t → t.declaration = none

theorem Store.undeclared_empty : ({} : Store).Undeclared :=
  fun _ t ht => absurd ht.symm (Option.some_ne_none t)

theorem Store.Undeclared.absorb {s : Store} (h : s.Undeclared) (layer : Layer) {c : Collection}
    (hc : ∀ t ∈ c.tags, t.declaration = none) : (s.absorb layer c).2.Undeclared := by
  intro key t ht
  rw [absorb_tags] at ht
  by_cases hkey : key ∈ c.tags.map NameMap.key
  · obtain ⟨u, hu, -, hfind⟩ := find?_putTags_of_mem layer (m := s.tags) hkey
    obtain rfl := Option.some.inj (ht.symm.trans hfind)
    exact hc u hu
  · rw [find?_putTags_of_notMem layer hkey] at ht
    exact h key t ht

/-- Only the discovered layer says where tags are declared. -/
def Layers.OnlyDiscovered (ls : Layers) : Prop :=
  ∀ layer, layer ≠ .discovered → (ls.get layer).Undeclared

namespace Layers.OnlyDiscovered

variable {ls : Layers}

theorem entry (h : ls.OnlyDiscovered) (layer : Layer) (hlayer : layer ≠ .discovered)
    (key : String) : ((ls.get layer).tags.find? key).bind (·.declaration) = none := by
  cases ht : (ls.get layer).tags.find? key with
  | none => rfl
  | some t => exact h layer hlayer key t ht

/-- Where a tag is declared, the discovered layer says. -/
theorem declaration_tag? (h : ls.OnlyDiscovered) (key : String) :
    (ls.tag? key).bind (·.declaration) =
      (ls.discovered.tags.find? key).bind (·.declaration) := by
  have hbuiltIn : (ls.builtIn.tags.find? key).bind (·.declaration) = none :=
    h.entry .builtIn (by decide) key
  have huser : (ls.userConfig.tags.find? key).bind (·.declaration) = none :=
    h.entry .userConfig (by decide) key
  have hextension : (ls.extension.tags.find? key).bind (·.declaration) = none :=
    h.entry .extension (by decide) key
  rw [tag?, declaration_joinTags, ← List.head?_filterMap, List.filterMap_filterMap,
    List.head?_filterMap, toList, List.findSome?_cons, hbuiltIn, List.findSome?_cons, huser,
    List.findSome?_cons, List.findSome?_cons, hextension]
  cases (ls.discovered.tags.find? key).bind (·.declaration) <;> rfl

end Layers.OnlyDiscovered

/-- The collections are variables here, since the standard ones are too large to be
looked into. -/
theorem Layers.onlyDiscovered_absorb {a b : Collection} (ha : ∀ t ∈ a.tags, t.declaration = none)
    (hb : ∀ t ∈ b.tags, t.declaration = none) :
    ({ builtIn := (Store.absorb {} .builtIn a).2, extension := (Store.absorb {} .extension b).2 } :
      Layers).OnlyDiscovered := by
  intro layer hlayer
  cases layer with
  | builtIn => exact Store.undeclared_empty.absorb _ ha
  | userConfig => exact Store.undeclared_empty
  | discovered => exact absurd rfl hlayer
  | extension => exact Store.undeclared_empty.absorb _ hb

end Inlay
