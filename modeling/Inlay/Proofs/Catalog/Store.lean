import Inlay.Catalog.Store
import Inlay.Proofs.Catalog.Replacing

/-!
# Entries of a layer

What putting tags into a layer and taking tags out of it does to the entry under
each key, to the list of keys, and to the tags that are handed back.

Both operations walk a list of names.  The layer that they leave is the one in which all values are put
in together, or all names taken out, and the tags that are handed back are collected
along the way, by induction on the list.
-/

namespace Inlay

@[simp] theorem key_stamp (layer : Layer) (t : Tag) :
    NameMap.key (t.stamp layer) = NameMap.key t := rfl

namespace Store

open NameMap

/-! ## Putting tags in -/

section Put

variable (layer : Layer)

theorem putTags_cons_fst (m : NameMap Tag) (t : Tag) (rest : List Tag) :
    (putTags layer m (t :: rest)).1 =
      (m.find? (key t)).toList ++ (putTags layer (m.insertReplace (t.stamp layer)).2 rest).1 := by
  rw [← key_stamp layer t, ← insertReplace_fst]
  rfl

theorem putTags_cons_snd (m : NameMap Tag) (t : Tag) (rest : List Tag) :
    (putTags layer m (t :: rest)).2 =
      (putTags layer (m.insertReplace (t.stamp layer)).2 rest).2 := rfl

/-- The tags stand in the layer as stamped, each in the place of the one of its name. -/
theorem putTags_snd (m : NameMap Tag) (ts : List Tag) :
    (putTags layer m ts).2 = m.replaceAll (ts.map (Tag.stamp layer)) := by
  induction ts generalizing m with
  | nil => rfl
  | cons t rest ih =>
    rw [putTags_cons_snd, ih]
    rfl

theorem indexed_putTags {m : NameMap Tag} (h : m.Indexed) (ts : List Tag) :
    (putTags layer m ts).2.Indexed := by
  rw [putTags_snd]
  exact h.replaceAll _

theorem find?_putTags (m : NameMap Tag) (ts : List Tag) (k : String) :
    (putTags layer m ts).2.find? k = ((lastNamed ts k).map (Tag.stamp layer)).or (m.find? k) := by
  rw [putTags_snd, find?_replaceAll, lastNamed_map (key_stamp layer)]

theorem find?_putTags_of_notMem {m : NameMap Tag} {ts : List Tag} {k : String}
    (h : k ∉ ts.map key) : (putTags layer m ts).2.find? k = m.find? k := by
  have hnone : lastNamed ts k = none := by
    rw [← Option.not_isSome_iff_eq_none, lastNamed_isSome_iff]
    exact h
  rw [find?_putTags, hnone]
  rfl

/-- Under the key of a tag that was put in stands one of the tags that were put
in under that key. -/
theorem find?_putTags_of_mem {m : NameMap Tag} {ts : List Tag} {k : String}
    (h : k ∈ ts.map key) :
    ∃ t ∈ ts, key t = k ∧ (putTags layer m ts).2.find? k = some (t.stamp layer) := by
  obtain ⟨t, ht⟩ := Option.isSome_iff_exists.mp (lastNamed_isSome_iff.mpr h)
  obtain ⟨hmem, hkey⟩ := mem_of_lastNamed ht
  refine ⟨t, hmem, hkey, ?_⟩
  rw [find?_putTags, ht]
  rfl

/-- An entry under the key of a tag that is put in is handed back. -/
theorem mem_putTags_fst {m : NameMap Tag} {ts : List Tag} {k : String} {old : Tag}
    (h : k ∈ ts.map key) (hold : m.find? k = some old) : old ∈ (putTags layer m ts).1 := by
  induction ts generalizing m with
  | nil => exact absurd h List.not_mem_nil
  | cons t rest ih =>
    rw [putTags_cons_fst, List.mem_append]
    by_cases hk : k = key t
    · left
      rw [← hk, hold]
      exact List.mem_singleton_self old
    · right
      have hk' : k ≠ key (t.stamp layer) := hk
      rw [List.map_cons, List.mem_cons] at h
      exact ih (h.resolve_left hk) (by rw [find?_insertReplace_ne hk', hold])

/-- What is handed back was in the layer before, or was put in and then replaced in its turn. -/
theorem mem_of_mem_putTags_fst {m : NameMap Tag} {ts : List Tag} {old : Tag}
    (h : old ∈ (putTags layer m ts).1) :
    (∃ t ∈ ts, m.find? (key t) = some old) ∨ ∃ t ∈ ts, old = t.stamp layer := by
  induction ts generalizing m with
  | nil => exact absurd h List.not_mem_nil
  | cons t rest ih =>
    rw [putTags_cons_fst, List.mem_append, Option.mem_toList] at h
    rcases h with h | h
    · exact .inl ⟨t, List.mem_cons_self, h⟩
    rcases ih h with ⟨u, hu, hfind⟩ | ⟨u, hu, rfl⟩
    · by_cases hkey : key u = key (t.stamp layer)
      · rw [hkey, find?_insertReplace_self] at hfind
        exact .inr ⟨t, List.mem_cons_self, (Option.some.inj hfind).symm⟩
      · rw [find?_insertReplace_ne hkey] at hfind
        exact .inl ⟨u, List.mem_cons_of_mem t hu, hfind⟩
    · exact .inr ⟨u, List.mem_cons_of_mem t hu, rfl⟩

/-- The keys that are not put in stay where they are. -/
theorem filter_keys_putTags {p : String → Bool} {m : NameMap Tag} {ts : List Tag}
    (h : ∀ t ∈ ts, p (key t) = false) :
    (putTags layer m ts).2.keys.filter p = m.keys.filter p := by
  induction ts generalizing m with
  | nil => rfl
  | cons t rest ih =>
    have ht : p (key t) = false := h t List.mem_cons_self
    rw [putTags_cons_snd, ih fun t' ht' => h t' (List.mem_cons_of_mem _ ht'),
      keys_insertReplace, key_stamp]
    split
    · rfl
    · rw [List.filter_append, List.filter_cons_of_neg (by rw [ht]; exact Bool.false_ne_true),
        List.filter_nil, List.append_nil]

end Put

/-! ## Taking tags out -/

theorem takeTags_cons_fst (m : NameMap Tag) (name : String) (rest : List String) :
    (takeTags m (name :: rest)).1 =
      (m.find? (lowerName name)).toList ++ (takeTags (m.remove name).2 rest).1 := rfl

theorem takeTags_cons_snd (m : NameMap Tag) (name : String) (rest : List String) :
    (takeTags m (name :: rest)).2 = (takeTags (m.remove name).2 rest).2 := rfl

theorem takeTags_snd (m : NameMap Tag) (names : List String) :
    (takeTags m names).2 = m.removeAll names := by
  induction names generalizing m with
  | nil => rfl
  | cons name rest ih => exact ih (m.remove name).2

theorem indexed_takeTags {m : NameMap Tag} (h : m.Indexed) (names : List String) :
    (takeTags m names).2.Indexed := by
  induction names generalizing m with
  | nil => exact h
  | cons name rest ih => exact ih (h.remove name)

theorem find?_takeTags_of_notMem {m : NameMap Tag} {names : List String} {k : String}
    (h : k ∉ names.map lowerName) : (takeTags m names).2.find? k = m.find? k := by
  induction names generalizing m with
  | nil => rfl
  | cons name rest ih =>
    rw [List.map_cons, List.mem_cons, not_or] at h
    rw [takeTags_cons_snd, ih h.2]
    exact find?_remove_ne h.1

/-- Removing other names does not bring a key back. -/
theorem find?_takeTags_eq_none {m : NameMap Tag} {names : List String} {k : String}
    (h : m.Indexed) (hk : m.find? k = none) : (takeTags m names).2.find? k = none := by
  induction names generalizing m with
  | nil => exact hk
  | cons name rest ih =>
    have hstep : (m.remove name).2.find? k = none := by
      by_cases hn : k = lowerName name
      · rw [hn]
        exact find?_remove_self h name
      · rw [find?_remove_ne hn, hk]
    exact ih (h.remove name) hstep

theorem find?_takeTags_of_mem {m : NameMap Tag} {names : List String} {k : String}
    (h : m.Indexed) (hk : k ∈ names.map lowerName) : (takeTags m names).2.find? k = none := by
  induction names generalizing m with
  | nil => exact absurd hk List.not_mem_nil
  | cons name rest ih =>
    rw [takeTags_cons_snd]
    by_cases hn : k = lowerName name
    · refine find?_takeTags_eq_none (h.remove name) ?_
      rw [hn]
      exact find?_remove_self h name
    · rw [List.map_cons, List.mem_cons] at hk
      exact ih (h.remove name) (hk.resolve_left hn)

/-- An entry under a name that is taken out is handed back. -/
theorem mem_takeTags_fst {m : NameMap Tag} {names : List String} {k : String} {old : Tag}
    (h : k ∈ names.map lowerName) (hold : m.find? k = some old) :
    old ∈ (takeTags m names).1 := by
  induction names generalizing m with
  | nil => exact absurd h List.not_mem_nil
  | cons name rest ih =>
    rw [takeTags_cons_fst, List.mem_append]
    by_cases hk : k = lowerName name
    · left
      rw [← hk, hold]
      exact List.mem_singleton_self old
    · right
      rw [List.map_cons, List.mem_cons] at h
      exact ih (h.resolve_left hk) (by rw [find?_remove_ne hk, hold])

/-- The keys that are not taken out stay where they are. -/
theorem filter_keys_takeTags {p : String → Bool} {m : NameMap Tag} {names : List String}
    (h : ∀ name ∈ names, p (lowerName name) = false) :
    (takeTags m names).2.keys.filter p = m.keys.filter p := by
  induction names generalizing m with
  | nil => rfl
  | cons name rest ih =>
    have hn : p (lowerName name) = false := h name List.mem_cons_self
    rw [takeTags_cons_snd, ih fun n hn' => h n (List.mem_cons_of_mem _ hn'), keys_remove]
    by_cases hmem : lowerName name ∈ m.keys
    · obtain ⟨l₁, l₂, -, hkeys, herase⟩ := List.exists_erase_eq hmem
      rw [herase, hkeys, List.filter_append, List.filter_append,
        List.filter_cons_of_neg (by rw [hn]; exact Bool.false_ne_true)]
    · rw [List.erase_of_not_mem hmem]

/-! ## Absorbing and forgetting -/

theorem absorb_tags (s : Store) (layer : Layer) (c : Collection) :
    (s.absorb layer c).2.tags = (putTags layer s.tags c.tags).2 := rfl

theorem absorb_globals (s : Store) (layer : Layer) (c : Collection) (k : Category) :
    (s.absorb layer c).2.globals.get k =
      (s.globals.get k).replaceAll ((c.globals.get k).map (Descriptor.stamp { layer := layer })) :=
  Shelf.get_ofFn _ _

theorem forget_tags (s : Store) (names : Names) :
    (s.forget names).2.tags = (takeTags s.tags names.tags).2 := rfl

theorem forget_globals (s : Store) (names : Names) (k : Category) :
    (s.forget names).2.globals.get k = (s.globals.get k).removeAll (names.globals.get k) :=
  Shelf.get_ofFn _ _

end Store

/-! ## The four layers -/

namespace Layers

/-- The layers in the order in which they are merged. -/
def order : List Layer := [.builtIn, .userConfig, .discovered, .extension]

theorem toList_eq (ls : Layers) : ls.toList = order.map ls.get := rfl

@[simp] theorem get_set_self (ls : Layers) (layer : Layer) (s : Store) :
    (ls.set layer s).get layer = s := by
  cases layer <;> rfl

theorem get_set_ne {ls : Layers} {layer layer' : Layer} (s : Store) (h : layer' ≠ layer) :
    (ls.set layer s).get layer' = ls.get layer' := by
  cases layer <;> cases layer' <;> first | rfl | exact absurd rfl h

/-- What holds of every layer holds after one of them is set, if it holds of that one. -/
theorem forall_get_set {P : Layer → Store → Prop} {ls : Layers} {layer : Layer} {s : Store}
    (h : ∀ l, P l (ls.get l)) (hs : P layer s) (l : Layer) : P l ((ls.set layer s).get l) := by
  by_cases hl : l = layer
  · rw [hl, get_set_self]
    exact hs
  · rw [get_set_ne s hl]
    exact h l

theorem flatMap_toList_congr {α : Type} {a b : Layers} {f : Store → List α}
    (h : ∀ layer, f (a.get layer) = f (b.get layer)) : a.toList.flatMap f = b.toList.flatMap f := by
  rw [toList_eq, toList_eq, List.flatMap_map, List.flatMap_map]
  exact List.flatMap_congr fun layer _ => h layer

/-- The tag under a key depends on the entries under that key alone. -/
theorem tag?_congr {a b : Layers} {key : String}
    (h : ∀ layer, (a.get layer).tags.find? key = (b.get layer).tags.find? key) :
    a.tag? key = b.tag? key := by
  have hentries : a.toList.filterMap (fun s => s.tags.find? key) =
      b.toList.filterMap fun s => s.tags.find? key := by
    rw [toList_eq, toList_eq, List.filterMap_map, List.filterMap_map]
    exact List.filterMap_congr fun layer _ => h layer
  rw [tag?, hentries, ← tag?]

theorem tagNames_congr {a b : Layers} (h : ∀ layer, (a.get layer).tags = (b.get layer).tags)
    (except : Option String) : a.tagNames except = b.tagNames except := by
  have hvalues : a.toList.flatMap (fun s => s.tags.values) =
      b.toList.flatMap fun s => s.tags.values :=
    flatMap_toList_congr fun layer => congrArg NameMap.values (h layer)
  rw [tagNames, hvalues, ← tagNames]

theorem globals_congr {a b : Layers} {c : Category}
    (h : ∀ layer, (a.get layer).globals.get c = (b.get layer).globals.get c) :
    a.globals c = b.globals c := by
  have hvalues : a.toList.flatMap (fun s => (s.globals.get c).values) =
      b.toList.flatMap fun s => (s.globals.get c).values :=
    flatMap_toList_congr fun layer => congrArg NameMap.values (h layer)
  rw [globals, hvalues, ← globals]

end Layers
end Inlay
