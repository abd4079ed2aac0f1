import Inlay.Proofs.Catalog.Consulting
import Inlay.Proofs.Workspace.Requests

/-!
# The discovered layer

The discovered layer of a session holds the tags that the discovered files define, and
nothing else.  Definitions are taken out by name, whoever else defines that name; then
the definitions of these names that other files still have are put in again.  `Mirrors`
states what the layer is to the definitions, and `Mirrors.forget` that
taking out and putting in again leaves it that.  `discovered_layer_after`
says so of every session that any requests lead to.
-/

namespace Inlay

/-- A map of tags holds a tag for each name that is defined, as one of the
definitions gives it. -/
structure Mirrors (m : NameMap Tag) (ds : List Definition) : Prop where
  entry : ∀ {key t}, m.find? key = some t →
    ∃ d ∈ ds, lowerName d.tag = key ∧ t = d.toTag.stamp .discovered
  known : ∀ d ∈ ds, (m.find? (lowerName d.tag)).isSome

namespace Mirrors

variable {m : NameMap Tag} {ds : List Definition}

theorem empty : Mirrors NameMap.empty [] :=
  ⟨fun h => absurd h.symm (Option.some_ne_none _), List.forall_mem_nil _⟩

/-- Only which definitions there are matters. -/
theorem congr {ds' : List Definition} (h : Mirrors m ds) (hds : ∀ d, d ∈ ds' ↔ d ∈ ds) :
    Mirrors m ds' := by
  constructor
  · intro key t ht
    obtain ⟨d, hd, hkey, rfl⟩ := h.entry ht
    exact ⟨d, (hds d).mpr hd, hkey, rfl⟩
  · intro d hd
    exact h.known d ((hds d).mp hd)

theorem map_key_toTag (ds : List Definition) :
    (ds.map Definition.toTag).map NameMap.key = ds.map fun d => lowerName d.tag := by
  rw [List.map_map]
  rfl

/-- Definitions that are put in are mirrored. -/
theorem absorb (h : Mirrors m ds) (more : List Definition) :
    Mirrors (Store.putTags .discovered m (more.map Definition.toTag)).2 (ds ++ more) := by
  constructor
  · intro key t ht
    by_cases hkey : key ∈ (more.map Definition.toTag).map NameMap.key
    · obtain ⟨u, hu, hkey', hfind⟩ := Store.find?_putTags_of_mem .discovered (m := m) hkey
      obtain ⟨d, hd, rfl⟩ := List.mem_map.mp hu
      rw [hfind] at ht
      exact ⟨d, List.mem_append_right ds hd, hkey', (Option.some.inj ht).symm⟩
    · rw [Store.find?_putTags_of_notMem .discovered hkey] at ht
      obtain ⟨d, hd, hkey', rfl⟩ := h.entry ht
      exact ⟨d, List.mem_append_left more hd, hkey', rfl⟩
  · intro d hd
    by_cases hkey : lowerName d.tag ∈ (more.map Definition.toTag).map NameMap.key
    · obtain ⟨u, _, _, hfind⟩ := Store.find?_putTags_of_mem .discovered (m := m) hkey
      rw [hfind, Option.isSome_some]
    · rw [Store.find?_putTags_of_notMem .discovered hkey]
      rw [map_key_toTag] at hkey
      rcases List.mem_append.mp hd with hd | hd
      · exact h.known d hd
      · exact absurd (List.mem_map_of_mem hd) hkey

/-- Taking the names of some definitions out leaves a mirror of the definitions of
other names. -/
theorem takeTags (hm : m.Indexed) (h : Mirrors m ds) {gone rest : List Definition}
    (hds : ∀ d, d ∈ ds ↔ d ∈ gone ∨ d ∈ rest) :
    Mirrors (Store.takeTags m (Definition.names gone).tags).2
      (rest.filter fun d => !(Definition.names gone).tags.contains (lowerName d.tag)) := by
  have hnames : (Definition.names gone).tags.map lowerName = (Definition.names gone).tags := by
    show (gone.map fun d => lowerName d.tag).map lowerName = gone.map fun d => lowerName d.tag
    rw [List.map_map]
    exact List.map_congr_left fun d _ => lowerName_lowerName d.tag
  constructor
  · intro key t ht
    by_cases hkey : key ∈ (Definition.names gone).tags
    · rw [Store.find?_takeTags_of_mem hm (by rw [hnames]; exact hkey)] at ht
      exact absurd ht.symm (Option.some_ne_none t)
    · rw [Store.find?_takeTags_of_notMem (by rw [hnames]; exact hkey)] at ht
      obtain ⟨d, hd, rfl, rfl⟩ := h.entry ht
      refine ⟨d, List.mem_filter.mpr ⟨?_, ?_⟩, rfl, rfl⟩
      · rcases (hds d).mp hd with hd | hd
        · exact absurd (List.mem_map_of_mem hd) hkey
        · exact hd
      · rw [Bool.not_eq_true', Bool.eq_false_iff]
        exact fun hmem => hkey (List.contains_iff_mem.mp hmem)
  · intro d hd
    obtain ⟨hrest, hkept⟩ := List.mem_filter.mp hd
    rw [Bool.not_eq_true', Bool.eq_false_iff] at hkept
    rw [Store.find?_takeTags_of_notMem]
    · exact h.known d ((hds d).mpr (.inr hrest))
    · rw [hnames]
      exact fun hmem => hkept (List.contains_iff_mem.mpr hmem)

/-- The definitions of some files go, and those of the same names that are left are
put in again.  What is left is mirrored. -/
theorem forget (hm : m.Indexed) (h : Mirrors m ds) {gone rest again : List Definition}
    (hds : ∀ d, d ∈ ds ↔ d ∈ gone ∨ d ∈ rest)
    (hagain : ∀ d, d ∈ again ↔
      d ∈ rest ∧ (Definition.names gone).tags.contains (lowerName d.tag) = true) :
    Mirrors (Store.putTags .discovered (Store.takeTags m (Definition.names gone).tags).2
      (again.map Definition.toTag)).2 rest := by
  -- What is left consists of what no name took out and of what is put in again.
  refine ((h.takeTags hm hds).absorb again).congr fun d => ?_
  rw [List.mem_append, List.mem_filter, hagain, Bool.not_eq_true']
  constructor
  · intro hd
    cases hc : (Definition.names gone).tags.contains (lowerName d.tag) with
    | true => exact .inr ⟨hd, rfl⟩
    | false => exact .inl ⟨hd, rfl⟩
  · rintro (hd | hd)
    · exact hd.1
    · exact hd.1

end Mirrors

theorem Entries.mem_iff_of_lookup {α : Type} {es : List (String × α)} {key : String} {value : α}
    (hes : (es.map (·.1)).Nodup) (h : es.lookup key = some value) (e : String × α) :
    e ∈ es ↔ e = (key, value) ∨ e ∈ erase key es := by
  have hmem : (key, value) ∈ es := by
    obtain ⟨l₁, l₂, rfl, _⟩ := List.lookup_eq_some_iff.mp h
    exact List.mem_append_right l₁ List.mem_cons_self
  constructor
  · intro he
    by_cases hkey : e.1 = key
    · exact .inl (List.inj_on_of_nodup_map hes he hmem hkey)
    · refine .inr (List.mem_filter.mpr ⟨he, ?_⟩)
      rw [beq_eq_false_iff_ne.mpr hkey, Bool.not_false]
  · rintro (rfl | he)
    · exact hmem
    · exact (List.mem_filter.mp he).1

namespace Session

/-- The definitions of all discovered files. -/
def definitions (s : Session) : List Definition :=
  s.discovered.flatMap fun f => f.2.result.definitions

/-- Each file is discovered once, and the discovered layer mirrors their definitions. -/
structure Mirrored (s : Session) : Prop where
  once : (s.discovered.map (·.1)).Nodup
  indexed : s.knowledge.layers.discovered.tags.Indexed
  mirrors : Mirrors s.knowledge.layers.discovered.tags s.definitions

theorem mem_survivors {discovered : List (String × DiscoveredFile)} {names : Names}
    {d : Definition} :
    d ∈ survivors discovered names ↔
      d ∈ (discovered.flatMap fun f => f.2.result.definitions) ∧
        names.tags.contains (lowerName d.tag) = true := by
  rw [survivors, List.mem_filter]
  simp only [List.mem_flatMap, List.mem_mergeSort]

theorem definitions_of_lookup {s : Session} (h : (s.discovered.map (·.1)).Nodup) {file : String}
    {old : DiscoveredFile} (hold : s.discovered.lookup file = some old) (d : Definition) :
    d ∈ s.definitions ↔ d ∈ old.result.definitions ∨
      d ∈ (Entries.erase file s.discovered).flatMap fun f => f.2.result.definitions := by
  rw [definitions]
  simp only [List.mem_flatMap, Entries.mem_iff_of_lookup h hold]
  constructor
  · rintro ⟨f, rfl | hf, hd⟩
    · exact .inl hd
    · exact .inr ⟨f, hf, hd⟩
  · rintro (hd | ⟨f, hf, hd⟩)
    · exact ⟨(file, old), .inl rfl, hd⟩
    · exact ⟨f, .inr hf, hd⟩

/-- The discovered layer of a session that forgets definitions. -/
theorem tags_forgetDefinitions (s : Session) (ds : List Definition) :
    (s.forgetDefinitions ds).knowledge.layers.discovered.tags =
      (Store.putTags .discovered
        (Store.takeTags s.knowledge.layers.discovered.tags (Definition.names ds).tags).2
        ((survivors s.discovered (Definition.names ds)).map Definition.toTag)).2 := by
  rw [forgetDefinitions]
  split
  · next hnone =>
    have hsurvivors : survivors s.discovered (Definition.names []) = [] :=
      List.filter_eq_nil_iff.mpr fun _ _ => Bool.false_ne_true
    rw [List.isEmpty_iff.mp hnone, hsurvivors]
    rfl
  · show (((s.knowledge.mutate (.forget .discovered _)).mutate
      (.absorb .discovered _)).layers).discovered.tags = _
    rw [Knowledge.layers_mutate, Knowledge.layers_mutate]
    rfl

theorem tags_addDefinitions (s : Session) (ds : List Definition) :
    (s.addDefinitions ds).knowledge.layers.discovered.tags =
      (Store.putTags .discovered s.knowledge.layers.discovered.tags
        (ds.map Definition.toTag)).2 := by
  rw [addDefinitions]
  split
  · next hnone =>
    rw [List.isEmpty_iff.mp hnone]
    rfl
  · show ((s.knowledge.mutate (.absorb .discovered _)).layers).discovered.tags = _
    rw [Knowledge.layers_mutate]
    rfl

namespace Mirrored

variable {parsers : Parsers} {s : Session}

/-- The rest of a session does not matter. -/
theorem congr (h : s.Mirrored) {s' : Session} (hdiscovered : s'.discovered = s.discovered)
    (hlayer : s'.knowledge.layers.discovered = s.knowledge.layers.discovered) : s'.Mirrored := by
  refine ⟨?_, ?_, ?_⟩
  · rw [hdiscovered]
    exact h.once
  · rw [hlayer]
    exact h.indexed
  · rw [hlayer, definitions, hdiscovered]
    exact h.mirrors

theorem configure (h : s.Mirrored) (c : Config) (files : Files) :
    (s.configure parsers c files).Mirrored := by
  refine h.congr rfl ?_
  show (((s.knowledge.mutate (.clearLayer .userConfig)).mutate
    (.absorb .userConfig (c.userCollection parsers.json files))).layers).discovered = _
  rw [Knowledge.layers_mutate, Knowledge.layers_mutate]
  rfl

theorem drop (h : s.Mirrored) (file : String) : (s.dropDiscovered file).Mirrored := by
  rw [dropDiscovered]
  split
  · exact h
  · next old hold =>
    refine ⟨?_, ?_, ?_⟩
    · rw [discovered_forgetDefinitions]
      exact h.once.sublist (List.filter_sublist.map _)
    · rw [tags_forgetDefinitions]
      exact Store.indexed_putTags _ (Store.indexed_takeTags h.indexed _) _
    · rw [tags_forgetDefinitions, definitions, discovered_forgetDefinitions]
      exact h.mirrors.forget h.indexed (definitions_of_lookup h.once hold) fun d => mem_survivors

theorem learn (h : s.Mirrored) {file : String} (d : DiscoveredFile)
    (hfile : s.discovered.lookup file = none) : (s.learn file d).Mirrored := by
  have hlayer : (s.learn file d).knowledge.layers.discovered.tags = _ :=
    tags_addDefinitions s d.result.definitions
  refine ⟨?_, ?_, ?_⟩
  · have hnew : file ∉ s.discovered.map (·.1) := by
      intro hmem
      obtain ⟨f, hf, rfl⟩ := List.mem_map.mp hmem
      exact bne_iff_ne.mp (List.lookup_eq_none_iff.mp hfile f hf) rfl
    show ((s.discovered ++ [(file, d)]).map (·.1)).Nodup
    rw [List.map_append, List.map_singleton, ← List.concat_eq_append]
    exact h.once.concat hnew
  · rw [hlayer]
    exact Store.indexed_putTags _ h.indexed _
  · rw [hlayer]
    refine (h.mirrors.absorb d.result.definitions).congr fun x => ?_
    rw [definitions]
    show x ∈ (s.discovered ++ [(file, d)]).flatMap _ ↔ _
    rw [List.flatMap_append, List.flatMap_singleton]
    rfl

theorem record (h : s.Mirrored) (qs : List Question) :
    { s with knowledge := qs.foldl Knowledge.record s.knowledge }.Mirrored := by
  refine h.congr rfl ?_
  show (qs.foldl Knowledge.record s.knowledge).layers.discovered = _
  rw [Knowledge.layers_of_fresh_eq (Knowledge.fresh_foldl_record qs s.knowledge)]

theorem stable : Stable parsers (fun _ => True) Mirrored where
  configure h := h.configure
  eraseEntry h _ := h.congr rfl rfl
  count h _ := h.congr rfl rfl
  drop h := h.drop
  learn _ h _ hfile := h.learn _ hfile
  load _ h _ := h.congr rfl rfl
  consult h _ c := h.record (c.run _).2
  check {s host file entry} _ h _ := by
    obtain ⟨qs, hqs⟩ := checkFile_fst parsers host s file entry
    have hchecked := h.record qs
    rw [hqs]
    exact hchecked.congr rfl rfl

theorem new : Session.new.Mirrored := by
  have hlayer : Session.new.knowledge.layers.discovered = {} := by
    rw [Session.new, Knowledge.layers_standard]
  refine ⟨List.nodup_nil, ?_, ?_⟩
  · rw [hlayer]
    exact NameMap.indexed_empty
  · rw [hlayer]
    exact Mirrors.empty

end Mirrored

/-- However a session has been used, the discovered layer knows a tag if and only if
some file defines it, and it knows it as one of these definitions describes it. -/
theorem discovered_layer_after (parsers : Parsers) (rs : List Request) (key : String) :
    (((new.after parsers rs).knowledge.layers.discovered.tags.find? key).isSome ↔
      ∃ f ∈ (new.after parsers rs).discovered,
        ∃ d ∈ f.2.result.definitions, lowerName d.tag = key) ∧
    ∀ t, (new.after parsers rs).knowledge.layers.discovered.tags.find? key = some t →
      ∃ f ∈ (new.after parsers rs).discovered, ∃ d ∈ f.2.result.definitions,
        lowerName d.tag = key ∧ t = d.toTag.stamp .discovered := by
  have h : (new.after parsers rs).Mirrored :=
    Mirrored.stable.after Mirrored.new fun _ _ _ _ => trivial
  have hentry : ∀ t, (new.after parsers rs).knowledge.layers.discovered.tags.find? key = some t →
      ∃ f ∈ (new.after parsers rs).discovered, ∃ d ∈ f.2.result.definitions,
        lowerName d.tag = key ∧ t = d.toTag.stamp .discovered := by
    intro t ht
    obtain ⟨d, hd, hkey, heq⟩ := h.mirrors.entry ht
    obtain ⟨f, hf, hd⟩ := List.mem_flatMap.mp hd
    exact ⟨f, hf, d, hd, hkey, heq⟩
  refine ⟨⟨?_, ?_⟩, hentry⟩
  · intro hsome
    obtain ⟨t, ht⟩ := Option.isSome_iff_exists.mp hsome
    obtain ⟨f, hf, d, hd, hkey, _⟩ := hentry t ht
    exact ⟨f, hf, d, hd, hkey⟩
  · rintro ⟨f, hf, d, hd, rfl⟩
    exact h.mirrors.known d (List.mem_flatMap.mpr ⟨f, hf, hd⟩)

end Session
end Inlay
