import Inlay.Proofs.Workspace.Discovered
import Inlay.Proofs.Workspace.Informed

/-!
# Discovering a file again

A file that is handed out anew is discovered again, even if it declares what it declared
before.  Its definitions are taken out, those of other files are put in for them, and then its
own are put in last.  So its own definitions describe its tags from then on:
`tag?_sync_renewed`.  Nothing changes if they did so before, `sync_renewed_iff`, and that is
so for a tag that no other file defines, since an entry of the discovered layer is the last
definition in some file: `Dated`.  Where another file has been discovered later, the tag is
described by that one before and by this one afterwards: `sync_renewed_two_definers`.
-/

namespace Inlay

namespace Definition

/-- The last of some definitions of the tag under a key. -/
def last? (ds : List Definition) (key : String) : Option Definition :=
  (ds.filter fun d => lowerName d.tag == key).getLast?

variable {ds : List Definition} {key : String} {d : Definition}

theorem last?_append (ds more : List Definition) (key : String) :
    last? (ds ++ more) key = (last? more key).or (last? ds key) := by
  rw [last?, List.filter_append, List.getLast?_append]
  rfl

theorem last?_cons (d : Definition) (ds : List Definition) (key : String) :
    last? (d :: ds) key = (last? ds key).or (if lowerName d.tag = key then some d else none) := by
  rw [← List.singleton_append, last?_append, last?, last?]
  congr 1
  by_cases h : lowerName d.tag = key <;> simp [h]

theorem mem_of_last? (h : last? ds key = some d) : d ∈ ds ∧ lowerName d.tag = key := by
  obtain ⟨hmem, hkey⟩ := List.mem_filter.mp (List.mem_of_getLast? h)
  exact ⟨hmem, beq_iff_eq.mp hkey⟩

theorem last?_eq_none_iff : last? ds key = none ↔ ∀ d ∈ ds, lowerName d.tag ≠ key := by
  simp only [last?, List.getLast?_eq_none_iff, List.filter_eq_nil_iff, beq_iff_eq, ne_eq]

/-- The last of the definitions of several files is the last in one of them. -/
theorem last?_flatMap {α : Type} {f : α → List Definition} {xs : List α}
    (h : last? (xs.flatMap f) key = some d) : ∃ x ∈ xs, last? (f x) key = some d := by
  induction xs with
  | nil => exact absurd h.symm (Option.some_ne_none d)
  | cons x rest ih =>
    rw [List.flatMap_cons, last?_append, Option.or_eq_some_iff] at h
    rcases h with h | ⟨-, h⟩
    · obtain ⟨y, hy, hlast⟩ := ih h
      exact ⟨y, List.mem_cons_of_mem x hy, hlast⟩
    · exact ⟨x, List.mem_cons_self, h⟩

/-- Definitions of other tags do not matter. -/
theorem last?_filter {p : Definition → Bool} (h : ∀ d ∈ ds, lowerName d.tag = key → p d = true) :
    last? (ds.filter p) key = last? ds key := by
  rw [last?, last?, List.filter_filter]
  congr 1
  refine List.filter_congr fun d hd => ?_
  by_cases hkey : lowerName d.tag = key
  · simp [hkey, h d hd hkey]
  · simp [hkey]

/-- Of the definitions that are put in, the last one of a tag stays. -/
theorem find?_putTags_toTag (layer : Layer) (m : NameMap Tag) (ds : List Definition)
    (key : String) :
    (Store.putTags layer m (ds.map toTag)).2.find? key =
      ((last? ds key).map fun d => d.toTag.stamp layer).or (m.find? key) := by
  have hlast : NameMap.lastNamed (ds.map toTag) key = (last? ds key).map toTag := by
    rw [NameMap.lastNamed, last?, List.filter_map, List.getLast?_map]
    rfl
  rw [Store.find?_putTags, hlast, Option.map_map]
  rfl

theorem mem_names {ds : List Definition} {key : String} :
    key ∈ (names ds).tags ↔ ∃ d ∈ ds, lowerName d.tag = key := List.mem_map

end Definition

namespace Session

/-! ## Entries of the discovered layer -/

/-- What the discovered layer holds under a key. -/
def discoveredTag? (s : Session) (key : String) : Option Tag :=
  s.knowledge.layers.discovered.tags.find? key

theorem discoveredTag?_addDefinitions (s : Session) (ds : List Definition) (key : String) :
    (s.addDefinitions ds).discoveredTag? key =
      ((Definition.last? ds key).map fun d => d.toTag.stamp .discovered).or
        (s.discoveredTag? key) := by
  rw [discoveredTag?, tags_addDefinitions, Definition.find?_putTags_toTag, ← discoveredTag?]

/-- Under a key that is forgotten stands what other files define, and other keys are left. -/
theorem discoveredTag?_forgetDefinitions {s : Session}
    (hs : s.knowledge.layers.discovered.tags.Indexed) (ds : List Definition) (key : String) :
    (s.forgetDefinitions ds).discoveredTag? key =
      if key ∈ (Definition.names ds).tags then
        (Definition.last? (survivors s.discovered (Definition.names ds)) key).map
          fun d => d.toTag.stamp .discovered
      else s.discoveredTag? key := by
  have hnames : (Definition.names ds).tags.map lowerName = (Definition.names ds).tags := by
    show (ds.map fun d => lowerName d.tag).map lowerName = ds.map fun d => lowerName d.tag
    rw [List.map_map]
    exact List.map_congr_left fun d _ => lowerName_lowerName d.tag
  rw [discoveredTag?, tags_forgetDefinitions, Definition.find?_putTags_toTag]
  split
  · next hkey =>
    rw [Store.find?_takeTags_of_mem hs (by rw [hnames]; exact hkey), Option.or_none]
  · next hkey =>
    have hnone : Definition.last? (survivors s.discovered (Definition.names ds)) key = none := by
      refine Definition.last?_eq_none_iff.mpr fun d hd hdkey => hkey ?_
      rw [← hdkey]
      exact List.contains_iff_mem.mp (mem_survivors.mp hd).2
    rw [hnone, Store.find?_takeTags_of_notMem (by rw [hnames]; exact hkey)]
    rfl

/-- Every entry of the discovered layer is the last definition of its tag in some file. -/
def Dated (s : Session) : Prop :=
  ∀ key t, s.discoveredTag? key = some t → ∃ f ∈ s.discovered, ∃ d,
    Definition.last? f.2.result.definitions key = some d ∧ t = d.toTag.stamp .discovered

namespace Dated

variable {s : Session}

theorem congr (h : s.Dated) {s' : Session} (hdiscovered : s'.discovered = s.discovered)
    (hlayer : s'.knowledge.layers.discovered = s.knowledge.layers.discovered) : s'.Dated := by
  intro key t ht
  rw [discoveredTag?, hlayer, ← discoveredTag?] at ht
  rw [hdiscovered]
  exact h key t ht

theorem drop (h : s.Dated) (hs : s.Mirrored) (file : String) : (s.dropDiscovered file).Dated := by
  rw [dropDiscovered]
  split
  · exact h
  · next old hold =>
    intro key t ht
    have hleft : ({ s with discovered := Entries.erase file s.discovered } :
        Session).knowledge.layers.discovered.tags.Indexed := hs.indexed
    rw [discovered_forgetDefinitions]
    rw [discoveredTag?_forgetDefinitions hleft] at ht
    split at ht
    · -- What is put in again comes from the files that are left.
      next hkey =>
      obtain ⟨d, hd, rfl⟩ := Option.map_eq_some_iff.mp ht
      rw [survivors, Definition.last?_filter] at hd
      · obtain ⟨f, hf, hlast⟩ := Definition.last?_flatMap hd
        exact ⟨f, List.mem_mergeSort.mp hf, d, hlast, rfl⟩
      · exact fun e _ hekey => List.contains_iff_mem.mpr (hekey ▸ hkey)
    · -- A file that defines a key which is left is not the one that is dropped.
      next hkey =>
      obtain ⟨f, hf, d, hlast, rfl⟩ := h key t ht
      refine ⟨f, ?_, d, hlast, rfl⟩
      rcases (Entries.mem_iff_of_lookup hs.once hold f).mp hf with rfl | hf
      · exact absurd (Definition.mem_names.mpr ⟨d, Definition.mem_of_last? hlast⟩) hkey
      · exact hf

theorem learn (h : s.Dated) (file : String) (d : DiscoveredFile) : (s.learn file d).Dated := by
  intro key t ht
  have hadded : (s.addDefinitions d.result.definitions).discoveredTag? key = some t := ht
  rw [discoveredTag?_addDefinitions, Option.or_eq_some_iff] at hadded
  rcases hadded with hown | ⟨-, hold⟩
  · obtain ⟨e, he, rfl⟩ := Option.map_eq_some_iff.mp hown
    exact ⟨(file, d), List.mem_append_right _ (List.mem_singleton_self _), e, he, rfl⟩
  · obtain ⟨f, hf, hlast⟩ := h key t hold
    exact ⟨f, List.mem_append_left _ hf, hlast⟩

end Dated

/-- What a session is known to be after any run. -/
structure Known (s : Session) : Prop where
  informed : Informed s.knowledge
  mirrored : s.Mirrored
  dated : s.Dated

namespace Known

variable {parsers : Parsers} {s : Session}

theorem record (h : s.Known) (qs : List Question) :
    { s with knowledge := qs.foldl Knowledge.record s.knowledge }.Known := by
  refine ⟨h.informed.record qs, h.mirrored.record qs, h.dated.congr rfl ?_⟩
  show (qs.foldl Knowledge.record s.knowledge).layers.discovered = _
  rw [Knowledge.layers_of_fresh_eq (Knowledge.fresh_foldl_record qs s.knowledge)]

theorem informed_forgetDefinitions (h : Informed s.knowledge) (ds : List Definition) :
    Informed (s.forgetDefinitions ds).knowledge := by
  rw [Session.forgetDefinitions]
  split
  · exact h
  · exact (h.forget _).absorb _

theorem informed_addDefinitions (h : Informed s.knowledge) (ds : List Definition) :
    Informed (s.addDefinitions ds).knowledge := by
  rw [Session.addDefinitions]
  split
  · exact h
  · exact h.absorb _

theorem drop (h : s.Known) (file : String) : (s.dropDiscovered file).Known := by
  refine ⟨?_, h.mirrored.drop file, h.dated.drop h.mirrored file⟩
  rw [dropDiscovered]
  split
  · exact h.informed
  · refine informed_forgetDefinitions ?_ _
    exact h.informed

theorem configure (h : s.Known) (c : Config) (files : Files) :
    (s.configure parsers c files).Known := by
  refine ⟨h.informed.reconfigure _, h.mirrored.configure c files, h.dated.congr rfl ?_⟩
  show (((s.knowledge.mutate (.clearLayer .userConfig)).mutate
    (.absorb .userConfig (c.userCollection parsers.json files))).layers).discovered = _
  rw [Knowledge.layers_mutate, Knowledge.layers_mutate]
  rfl

theorem discovering : Discovering (fun _ => True) Known where
  eraseEntry h _ := ⟨h.informed, h.mirrored.congr rfl rfl, h.dated.congr rfl rfl⟩
  count h _ := ⟨h.informed, h.mirrored.congr rfl rfl, h.dated.congr rfl rfl⟩
  drop h := h.drop
  learn _ h _ hfile :=
    ⟨informed_addDefinitions h.informed _, h.mirrored.learn _ hfile, h.dated.learn _ _⟩

theorem stable : Stable parsers (fun _ => True) Known where
  toDiscovering := discovering
  configure h := h.configure
  load _ h _ := ⟨h.informed, h.mirrored.congr rfl rfl, h.dated.congr rfl rfl⟩
  consult h _ c := h.record (c.run _).2
  check {s host file entry} _ h _ := by
    obtain ⟨qs, hqs⟩ := checkFile_fst parsers host s file entry
    have hchecked := h.record qs
    rw [hqs]
    exact ⟨hchecked.informed, hchecked.mirrored.congr rfl rfl, hchecked.dated.congr rfl rfl⟩

theorem new : Session.new.Known := by
  have hknowledge : Session.new.knowledge = Knowledge.standard := by rw [Session.new]
  refine ⟨?_, Mirrored.new, fun key t ht => ?_⟩
  · rw [hknowledge]
    exact Informed.standard
  · rw [discoveredTag?, hknowledge, Knowledge.layers_standard] at ht
    exact absurd ht.symm (Option.some_ne_none t)

theorem after (parsers : Parsers) (rs : List Request) : (Session.new.after parsers rs).Known :=
  stable.after new fun _ _ _ _ => trivial

end Known

/-! ## Tags of a session -/

end Session

/-- The tag under a key as the layers give it when the discovered one has an entry. -/
def Layers.tagWith (ls : Layers) (entry : Option Tag) (key : String) : Option Tag :=
  joinTags ([ls.builtIn.tags.find? key, ls.userConfig.tags.find? key, entry,
    ls.extension.tags.find? key].filterMap id)

theorem Layers.tag?_eq_tagWith (ls : Layers) (key : String) :
    ls.tag? key = ls.tagWith (ls.discovered.tags.find? key) key := rfl

namespace Session

/-- The tag with a name, if its entry in the discovered layer were another one. -/
def tagWith (s : Session) (entry : Option Tag) (name : String) : Option Tag :=
  s.knowledge.layers.tagWith entry (lowerName name)

theorem Known.tag?_eq {s : Session} (h : s.Known) (name : String) :
    s.knowledge.tag? name = s.tagWith (s.discoveredTag? (lowerName name)) name := by
  rw [h.informed.coherent.tag?_eq, Layers.tag?_eq_tagWith]
  rfl

theorem tagWith_forgetDefinitions (s : Session) (ds : List Definition) :
    (s.forgetDefinitions ds).tagWith = s.tagWith := by
  funext entry name
  rw [forgetDefinitions]
  split
  · rfl
  · show (((s.knowledge.mutate (.forget .discovered _)).mutate
      (.absorb .discovered _)).layers).tagWith entry (lowerName name) = _
    rw [Knowledge.layers_mutate, Knowledge.layers_mutate]
    rfl

theorem tagWith_addDefinitions (s : Session) (ds : List Definition) :
    (s.addDefinitions ds).tagWith = s.tagWith := by
  funext entry name
  rw [addDefinitions]
  split
  · rfl
  · show ((s.knowledge.mutate (.absorb .discovered _)).layers).tagWith entry (lowerName name) = _
    rw [Knowledge.layers_mutate]
    rfl

/-- Discovering a file does not touch the other layers. -/
theorem tagWith_rediscover (host : Host) (s : Session) (file : String) (source : Source) :
    (s.rediscover host file source).tagWith = s.tagWith := by
  rw [rediscover_eq]
  refine (tagWith_addDefinitions _ _).trans ?_
  rw [dropDiscovered]
  split
  · rfl
  · exact tagWith_forgetDefinitions _ _

/-- What a file declares goes before what the session knows without that file. -/
theorem discoveredTag?_rediscover_eq (host : Host) (s : Session) (file : String) (source : Source)
    (key : String) :
    (s.rediscover host file source).discoveredTag? key =
      ((Definition.last? (host.discover file source.text).definitions key).map
        fun d => d.toTag.stamp .discovered).or
        (({ s with discoveries := s.discoveries + 1 }.dropDiscovered file).discoveredTag? key) := by
  rw [rediscover_eq]
  exact discoveredTag?_addDefinitions _ _ key

/-- A file that declares what it declared before is described by that, and the tags that it
does not define are left. -/
theorem discoveredTag?_rediscover {host : Host} {s : Session} (hs : s.Mirrored) {file : String}
    {source : Source} {old : DiscoveredFile} (hold : s.discovered.lookup file = some old)
    (hsame : host.discover file source.text = old.result) (key : String) :
    (s.rediscover host file source).discoveredTag? key =
      ((Definition.last? old.result.definitions key).map fun d => d.toTag.stamp .discovered).or
        (s.discoveredTag? key) := by
  have hleft : ({ s with discoveries := s.discoveries + 1,
                         discovered := Entries.erase file s.discovered } :
      Session).knowledge.layers.discovered.tags.Indexed := hs.indexed
  rw [discoveredTag?_rediscover_eq, hsame, dropDiscovered]
  dsimp only
  rw [hold]
  dsimp only
  rw [discoveredTag?_forgetDefinitions hleft]
  split
  · next hkey =>
    obtain ⟨d, hd, hdkey⟩ := Definition.mem_names.mp hkey
    cases hlast : Definition.last? old.result.definitions key with
    | none => exact absurd hdkey (Definition.last?_eq_none_iff.mp hlast d hd)
    | some e => rfl
  · rfl

/-! ## Bringing discovery up to date -/

/-- The session has discovered a file with the source that the host hands out, if it
hands one out. -/
def CurrentAt (host : Host) (s : Session) (file : String) : Prop :=
  ∀ source, host.source? file = some source →
    ∃ d, s.discovered.lookup file = some d ∧ d.source.id = source.id

section Sync

variable {host : Host} {s : Session} {file g : String} {source : Source}

theorem CurrentAt.syncFile_eq (h : s.CurrentAt host file) : s.syncFile host file = s := by
  rw [syncFile]
  split
  · rfl
  · next source hsource =>
    obtain ⟨d, hd, hid⟩ := h source hsource
    rw [hd]
    exact if_pos hid

theorem discovered_rediscover (host : Host) (s : Session) (file : String) (source : Source) :
    (s.rediscover host file source).discovered = Entries.erase file s.discovered ++
      [(file, { source := source, result := host.discover file source.text })] := by
  rw [rediscover_eq, learn, dropDiscovered]
  dsimp only
  split
  · next hnone => rw [Entries.erase_of_lookup_eq_none hnone]
  · rw [discovered_forgetDefinitions]

/-- Discovery leaves the configuration and the documents. -/
theorem rediscover_frame (host : Host) (s : Session) (file : String) (source : Source) :
    (s.rediscover host file source).config = s.config ∧
      (s.rediscover host file source).files = s.files := by
  have hadd : ∀ (s : Session) ds, (s.addDefinitions ds).config = s.config ∧
      (s.addDefinitions ds).files = s.files := by
    intro s ds
    rw [addDefinitions]
    split <;> exact ⟨rfl, rfl⟩
  have hforget : ∀ (s : Session) ds, (s.forgetDefinitions ds).config = s.config ∧
      (s.forgetDefinitions ds).files = s.files := by
    intro s ds
    rw [forgetDefinitions]
    split <;> exact ⟨rfl, rfl⟩
  have hdrop : ∀ s : Session, (s.dropDiscovered file).config = s.config ∧
      (s.dropDiscovered file).files = s.files := by
    intro s
    rw [dropDiscovered]
    split
    · exact ⟨rfl, rfl⟩
    · exact hforget _ _
  rw [rediscover_eq, learn]
  dsimp only
  rw [(hadd _ _).1, (hadd _ _).2]
  exact hdrop _

theorem lookup_rediscover_self (host : Host) (s : Session) (file : String) (source : Source) :
    (s.rediscover host file source).discovered.lookup file =
      some { source := source, result := host.discover file source.text } := by
  rw [discovered_rediscover, List.lookup_append, Entries.lookup_erase_self, List.lookup_cons_self]
  rfl

theorem lookup_rediscover_ne (h : g ≠ file) (host : Host) (s : Session) (source : Source) :
    (s.rediscover host file source).discovered.lookup g = s.discovered.lookup g := by
  have hne : (g == file) = false := beq_eq_false_iff_ne.mpr h
  rw [discovered_rediscover, List.lookup_append, Entries.lookup_erase_ne h, List.lookup_cons, hne]
  exact Option.or_none

theorem syncFile_of_unknown (hsource : host.source? file = some source)
    (hunknown : s.discovered.lookup file = none) :
    s.syncFile host file = s.rediscover host file source := by
  rw [syncFile, hsource]
  dsimp only
  rw [hunknown]

/-- Syncing a file makes it current. -/
theorem currentAt_syncFile_self (host : Host) (s : Session) (file : String) :
    (s.syncFile host file).CurrentAt host file := by
  intro source hsource
  rw [syncFile, hsource]
  dsimp only
  split
  · next old hold =>
    split
    · next hid => exact ⟨old, hold, hid⟩
    · exact ⟨_, lookup_rediscover_self host s file source, rfl⟩
  · exact ⟨_, lookup_rediscover_self host s file source, rfl⟩

/-- It leaves what is known of other files. -/
theorem lookup_syncFile_ne (h : g ≠ file) (host : Host) (s : Session) :
    (s.syncFile host file).discovered.lookup g = s.discovered.lookup g := by
  rw [syncFile]
  split
  · rfl
  · split
    · split
      · rfl
      · exact lookup_rediscover_ne h host s _
    · exact lookup_rediscover_ne h host s _

theorem CurrentAt.syncFile (h : s.CurrentAt host g) (file : String) :
    (s.syncFile host file).CurrentAt host g := by
  by_cases hg : g = file
  · rw [hg]
    exact currentAt_syncFile_self host s file
  · intro source hsource
    rw [lookup_syncFile_ne hg]
    exact h source hsource

theorem mem_syncFile {f : String × DiscoveredFile} (hf : f ∈ (s.syncFile host file).discovered) :
    f.1 = file ∨ f ∈ s.discovered := by
  have hrediscover : ∀ source, f ∈ (s.rediscover host file source).discovered →
      f.1 = file ∨ f ∈ s.discovered := by
    intro source hf
    rw [discovered_rediscover] at hf
    rcases List.mem_append.mp hf with hf | hf
    · exact .inr (List.mem_filter.mp hf).1
    · exact .inl (congrArg Prod.fst (List.mem_singleton.mp hf))
  rw [Session.syncFile] at hf
  split at hf
  · exact .inr hf
  · split at hf
    · split at hf
      · exact .inr hf
      · exact hrediscover _ hf
    · exact hrediscover _ hf

/-- Syncing some files makes them current, and keeps those current that were so. -/
theorem currentAt_foldl_syncFile (files : List String) (h : g ∈ files ∨ s.CurrentAt host g) :
    (files.foldl (Session.syncFile host) s).CurrentAt host g := by
  induction files generalizing s with
  | nil => exact h.resolve_left List.not_mem_nil
  | cons file rest ih =>
    refine ih ?_
    rcases h with h | h
    · rcases List.mem_cons.mp h with rfl | h
      · exact .inr (currentAt_syncFile_self host s g)
      · exact .inl h
    · exact .inr (h.syncFile file)

theorem mem_foldl_syncFile (files : List String) {f : String × DiscoveredFile}
    (hf : f ∈ (files.foldl (Session.syncFile host) s).discovered) :
    f.1 ∈ files ∨ f ∈ s.discovered := by
  induction files generalizing s with
  | nil => exact .inr hf
  | cons file rest ih =>
    rcases ih hf with hrest | hf
    · exact .inl (List.mem_cons_of_mem file hrest)
    · rcases mem_syncFile hf with heq | hf
      · exact .inl (heq ▸ List.mem_cons_self)
      · exact .inr hf

theorem mem_foldl_removeFile (files : List String) {f : String × DiscoveredFile}
    (hf : f ∈ (files.foldl Session.removeFile s).discovered) :
    f.1 ∉ files ∧ f ∈ s.discovered := by
  induction files generalizing s with
  | nil => exact ⟨List.not_mem_nil, hf⟩
  | cons file rest ih =>
    obtain ⟨hrest, hf⟩ := ih hf
    have herase : (s.removeFile file).discovered = Entries.erase file s.discovered := by
      rw [Session.removeFile, dropDiscovered]
      dsimp only
      split
      · next hnone => exact (Entries.erase_of_lookup_eq_none hnone).symm
      · rw [discovered_forgetDefinitions]
    rw [herase] at hf
    obtain ⟨hmem, hne⟩ := List.mem_filter.mp hf
    rw [Bool.not_eq_true', beq_eq_false_iff_ne] at hne
    exact ⟨fun h => (List.mem_cons.mp h).elim hne hrest, hmem⟩

end Sync

/-- Discovery is up to date: no file is gone, and each has been discovered with the source that
the host hands out. -/
structure UpToDate (host : Host) (s : Session) : Prop where
  listed : ∀ f ∈ s.discovered, f.1 ∈ host.files
  current : ∀ file ∈ host.files, s.CurrentAt host file

/-- Syncing brings discovery up to date. -/
theorem upToDate_sync (host : Host) (s : Session) : (s.sync host).UpToDate host := by
  refine ⟨fun f hf => ?_, fun file hfile => currentAt_foldl_syncFile host.files (.inl hfile)⟩
  rcases mem_foldl_syncFile host.files hf with hf | hf
  · exact hf
  · -- What is left of the files that had been discovered are those that are not gone.
    obtain ⟨hkept, hf⟩ := mem_foldl_removeFile _ hf
    by_contra hgone
    refine hkept (KeyOrder.mem_list.mpr (List.mem_filter.mpr ⟨List.mem_map_of_mem hf, ?_⟩))
    rw [List.contains_eq_mem, decide_eq_false hgone, Bool.not_false]

/-! ## A file that is handed out anew -/

end Session

/-- Another host that differs from a host in the source of one file. -/
structure Host.Renews (host host' : Host) (file : String) (source : Source) : Prop where
  files : host'.files = host.files
  others : ∀ g, g ≠ file → host'.source? g = host.source? g
  renewed : host'.source? file = some source

namespace Session

section Renewed

variable {host host' : Host} {s : Session} {file : String} {source : Source} {old : DiscoveredFile}

theorem foldl_syncFile_of_current {files : List String}
    (h : ∀ g ∈ files, s.CurrentAt host g) : files.foldl (Session.syncFile host) s = s := by
  induction files with
  | nil => rfl
  | cons g rest ih =>
    obtain ⟨hg, hrest⟩ := List.forall_mem_cons.mp h
    rw [List.foldl_cons, hg.syncFile_eq]
    exact ih hrest

/-- The one file that is not current is discovered anew. -/
theorem foldl_syncFile_renewed {files : List String} (hfile : file ∈ files)
    (hothers : ∀ g ∈ files, g ≠ file → s.CurrentAt host g)
    (hrenewed : s.syncFile host file = s.rediscover host file source) :
    files.foldl (Session.syncFile host) s = s.rediscover host file source := by
  induction files with
  | nil => exact absurd hfile List.not_mem_nil
  | cons g rest ih =>
    obtain ⟨hg, hrest⟩ := List.forall_mem_cons.mp hothers
    rw [List.foldl_cons]
    by_cases hgfile : g = file
    · subst hgfile
      rw [← hrenewed]
      refine foldl_syncFile_of_current fun x hx => ?_
      by_cases hxg : x = g
      · rw [hxg]
        exact currentAt_syncFile_self host s g
      · exact (hrest x hx hxg).syncFile g
    · rw [(hg hgfile).syncFile_eq]
      exact ih ((List.mem_cons.mp hfile).resolve_left (Ne.symm hgfile)) hrest

theorem UpToDate.sync_renewed (h : s.UpToDate host) (hrenews : host.Renews host' file source)
    (hold : s.discovered.lookup file = some old) (hid : old.source.id ≠ source.id) :
    s.sync host' = s.rediscover host' file source := by
  have hmem : ∀ f ∈ s.discovered, f.1 ∈ host'.files := by
    rw [hrenews.files]
    exact h.listed
  have hgone : (s.discovered.map (·.1)).filter (fun g => !host'.files.contains g) = [] := by
    refine List.filter_eq_nil_iff.mpr fun g hg => ?_
    obtain ⟨f, hf, rfl⟩ := List.mem_map.mp hg
    simp [hmem f hf]
  rw [sync, hgone, KeyOrder.list_nil]
  show host'.files.foldl (Session.syncFile host') s = _
  refine foldl_syncFile_renewed ?_ ?_ ?_
  · obtain ⟨before, behind, hsplit, -⟩ := List.lookup_eq_some_iff.mp hold
    exact hmem (file, old) (hsplit ▸ List.mem_append_right _ List.mem_cons_self)
  · intro g hg hne source hsource
    rw [hrenews.files] at hg
    rw [hrenews.others g hne] at hsource
    exact h.current g hg source hsource
  · rw [syncFile, hrenews.renewed, hold]
    exact if_neg hid

/-- When a file is handed out anew and declares what it declared before, its tags are described
by its own last definitions of them. -/
theorem tag?_sync_renewed (hs : s.Known) (h : s.UpToDate host)
    (hrenews : host.Renews host' file source) (hold : s.discovered.lookup file = some old)
    (hid : old.source.id ≠ source.id) (hsame : host'.discover file source.text = old.result)
    (name : String) :
    (s.sync host').knowledge.tag? name =
      s.tagWith (((Definition.last? old.result.definitions (lowerName name)).map
        fun d => d.toTag.stamp .discovered).or (s.discoveredTag? (lowerName name))) name := by
  have hsync : (s.sync host').Known := Known.discovering.sync trivial hs
  rw [hsync.tag?_eq, h.sync_renewed hrenews hold hid, tagWith_rediscover,
    discoveredTag?_rediscover hs.mirrored hold hsame]

/-- A tag that no other file defines is described by the last definition in its file. -/
theorem Known.discoveredTag?_of_only (hs : s.Known) (hold : s.discovered.lookup file = some old)
    {key : String} {d : Definition} (hd : Definition.last? old.result.definitions key = some d)
    (honly : ∀ f ∈ s.discovered, f.1 ≠ file →
      ∀ e ∈ f.2.result.definitions, lowerName e.tag ≠ key) :
    s.discoveredTag? key = some (d.toTag.stamp .discovered) := by
  obtain ⟨hmem, hkey⟩ := Definition.mem_of_last? hd
  have hdefined : d ∈ s.definitions :=
    (definitions_of_lookup hs.mirrored.once hold d).mpr (.inl hmem)
  obtain ⟨t, ht⟩ := Option.isSome_iff_exists.mp (hs.mirrored.mirrors.known d hdefined)
  rw [hkey] at ht
  obtain ⟨f, hf, e, he, rfl⟩ := hs.dated key t ht
  obtain ⟨hemem, hekey⟩ := Definition.mem_of_last? he
  have hfile : f.1 = file := by
    by_contra hne
    exact honly f hf hne e hemem hekey
  have hsame : f = (file, old) := by
    have hsplit := (Entries.mem_iff_of_lookup hs.mirrored.once hold f).mp hf
    refine hsplit.resolve_right fun herased => ?_
    have hkept := (List.mem_filter.mp herased).2
    rw [Bool.not_eq_true', beq_eq_false_iff_ne] at hkept
    exact hkept hfile
  subst hsame
  rw [hd] at he
  obtain rfl := Option.some.inj he
  exact ht

end Renewed

/-- When a file is handed out anew and declares what it declared before, a tag stays what it was
if and only if the last definition of it in the file, if there is one, describes it as it was.
That is so if no other file defines the tag. -/
theorem sync_renewed_iff (parsers : Parsers) (rs : List Request) {host host' : Host} {file : String}
    {source : Source} {old : DiscoveredFile} (h : (new.after parsers rs).UpToDate host)
    (hrenews : host.Renews host' file source)
    (hold : (new.after parsers rs).discovered.lookup file = some old)
    (hid : old.source.id ≠ source.id)
    (hsame : host'.discover file source.text = old.result) (name : String) :
    (((new.after parsers rs).sync host').knowledge.tag? name =
      (new.after parsers rs).knowledge.tag? name ↔
      ∀ d, Definition.last? old.result.definitions (lowerName name) = some d →
        (new.after parsers rs).tagWith (some (d.toTag.stamp .discovered)) name =
          (new.after parsers rs).knowledge.tag? name) ∧
    ((∀ f ∈ (new.after parsers rs).discovered, f.1 ≠ file →
        ∀ d ∈ f.2.result.definitions, lowerName d.tag ≠ lowerName name) →
      ((new.after parsers rs).sync host').knowledge.tag? name =
        (new.after parsers rs).knowledge.tag? name) := by
  have hs := Known.after parsers rs
  have htag := tag?_sync_renewed hs h hrenews hold hid hsame name
  rw [htag, hs.tag?_eq]
  cases hlast : Definition.last? old.result.definitions (lowerName name) with
  | none =>
    exact ⟨⟨fun _ d hd => absurd hd.symm (Option.some_ne_none d), fun _ => rfl⟩, fun _ => rfl⟩
  | some d =>
    refine ⟨⟨fun heq e he => ?_, fun heq => heq d rfl⟩, fun honly => ?_⟩
    · obtain rfl := Option.some.inj he
      exact heq
    · rw [hs.discoveredTag?_of_only hold hlast honly]
      rfl

/-- A component that has the name of its file as description. -/
def component (tag file : String) : Definition :=
  { tag := tag, declaration := { fileName := file, span := Span.of 0 1 }, description := some file }

/-- A host with two files that declare one component each.  The first file is handed out under
an identity that is given. -/
def hostOfTwo (tagOf : String → String) (id : Nat) : Host :=
  { files := ["a.ts", "b.ts"]
    source? := fun file =>
      if file = "a.ts" then some { id := id, text := "" }
      else if file = "b.ts" then some { id := 0, text := "" } else none
    imports := fun _ => []
    discover := fun file _ => { definitions := [component (tagOf file) file] }
    types := fun _ _ => .any }

/-- A session that has discovered nothing discovers both files of a host, one after the other. -/
theorem sync_two {host : Host} {s : Session} {first second : String} {source source' : Source}
    (hfiles : host.files = [first, second]) (hne : second ≠ first)
    (hfirst : host.source? first = some source) (hsecond : host.source? second = some source')
    (hnone : s.discovered = []) :
    s.sync host = (s.rediscover host first source).rediscover host second source' := by
  have hunknown : ∀ file, s.discovered.lookup file = none := by
    rw [hnone]
    exact fun _ => rfl
  have hunknown' : (s.rediscover host first source).discovered.lookup second = none := by
    rw [lookup_rediscover_ne hne]
    exact hunknown second
  rw [sync, hnone, hfiles, List.map_nil, List.filter_nil, KeyOrder.list_nil]
  show (s.syncFile host first).syncFile host second = _
  rw [syncFile_of_unknown hfirst (hunknown first), syncFile_of_unknown hsecond hunknown']

section Two

variable (tagOf : String → String) (id : Nat)

theorem source?_hostOfTwo :
    (hostOfTwo tagOf id).source? "a.ts" = some { id := id, text := "" } ∧
      (hostOfTwo tagOf id).source? "b.ts" = some { id := 0, text := "" } := by
  simp [hostOfTwo]

theorem renews_hostOfTwo (id' : Nat) :
    (hostOfTwo tagOf id).Renews (hostOfTwo tagOf id') "a.ts" { id := id', text := "" } :=
  ⟨rfl, fun _ hg => (if_neg hg).trans (if_neg hg).symm, (source?_hostOfTwo tagOf id').1⟩

/-- A session that discovers both files. -/
def discoverTwo : List Request := [.sync (hostOfTwo tagOf 0)]

theorem after_sync (parsers : Parsers) (s : Session) (host : Host) :
    s.after parsers [.sync host] = s.sync host := rfl

theorem upToDate_discoverTwo :
    (new.after (.ofSource "" []) (discoverTwo tagOf)).UpToDate (hostOfTwo tagOf 0) := by
  rw [discoverTwo, after_sync]
  exact upToDate_sync _ _

/-- The files are discovered one after the other. -/
theorem after_discoverTwo :
    new.after (.ofSource "" []) (discoverTwo tagOf) =
      (new.rediscover (hostOfTwo tagOf 0) "a.ts" { id := 0, text := "" }).rediscover
        (hostOfTwo tagOf 0) "b.ts" { id := 0, text := "" } := by
  obtain ⟨ha, hb⟩ := source?_hostOfTwo tagOf 0
  rw [discoverTwo, after_sync]
  exact sync_two rfl (by decide) ha hb (by rw [new])

theorem discovered_discoverTwo :
    (new.after (.ofSource "" []) (discoverTwo tagOf)).discovered =
      [("a.ts", { source := { id := 0, text := "" },
                  result := { definitions := [component (tagOf "a.ts") "a.ts"] } }),
        ("b.ts", { source := { id := 0, text := "" },
                   result := { definitions := [component (tagOf "b.ts") "b.ts"] } })] := by
  have hnew : new.discovered = [] := by rw [new]
  rw [after_discoverTwo, discovered_rediscover, discovered_rediscover, hnew]
  simp [Entries.erase, hostOfTwo]

end Two

/-- Two files define different tags, and the first is discovered again. -/
theorem sync_renewed_iff_of_two_tags :
    let tagOf := fun file => if file = "a.ts" then "x-a" else "x-b"
    let s := new.after (.ofSource "" []) (discoverTwo tagOf)
    let old : DiscoveredFile :=
      { source := { id := 0, text := "" }, result := { definitions := [component "x-a" "a.ts"] } }
    (s.UpToDate (hostOfTwo tagOf 0) ∧
      (hostOfTwo tagOf 0).Renews (hostOfTwo tagOf 1) "a.ts" { id := 1, text := "" } ∧
      s.discovered.lookup "a.ts" = some old ∧
      (hostOfTwo tagOf 1).discover "a.ts" "" = old.result) ∧
    (s.sync (hostOfTwo tagOf 1)).knowledge.tag? "x-a" = s.knowledge.tag? "x-a" := by
  intro tagOf s old
  have hdiscovered := discovered_discoverTwo tagOf
  have hold : s.discovered.lookup "a.ts" = some old := by
    rw [hdiscovered]
    rfl
  have hupToDate : s.UpToDate (hostOfTwo tagOf 0) := upToDate_discoverTwo tagOf
  have hrenews := renews_hostOfTwo tagOf 0 1
  refine ⟨⟨hupToDate, hrenews, hold, rfl⟩, ?_⟩
  refine (sync_renewed_iff (.ofSource "" []) (discoverTwo tagOf) hupToDate hrenews hold
    (by decide) rfl
    "x-a").2 fun f hf hne d hd => ?_
  rw [hdiscovered, List.mem_cons, List.mem_singleton] at hf
  obtain rfl := hf.resolve_left fun h => hne (congrArg Prod.fst h)
  obtain rfl := List.mem_singleton.mp hd
  decide

/-- What no other layer has is the entry in the discovered one.  The collections are variables
here, since the standard ones are too large to be looked into. -/
theorem tagWith_absorb (a b : Collection) {key : String} (ha : key ∉ a.tags.map NameMap.key)
    (hb : key ∉ b.tags.map NameMap.key) (entry : Option Tag) :
    ({ builtIn := (Store.absorb {} .builtIn a).2, extension := (Store.absorb {} .extension b).2 } :
      Layers).tagWith entry key = entry := by
  have hbuiltIn : (Store.absorb {} .builtIn a).2.tags.find? key = none := by
    rw [Store.absorb_tags, Store.find?_putTags_of_notMem _ ha]
    rfl
  have hextension : (Store.absorb {} .extension b).2.tags.find? key = none := by
    rw [Store.absorb_tags, Store.find?_putTags_of_notMem _ hb]
    rfl
  rw [Layers.tagWith, hbuiltIn, hextension]
  cases entry <;> rfl

/-- In a new session the discovered layer alone describes a tag that is not a standard one. -/
theorem tagWith_new (entry : Option Tag) {name : String}
    (hstandard : lowerName name ∉ Standard.collection.tags.map NameMap.key)
    (hbase : lowerName name ∉ Standard.baseCollection.tags.map NameMap.key) :
    new.tagWith entry name = entry := by
  have hknowledge : new.knowledge = Knowledge.standard := by rw [new]
  rw [tagWith, hknowledge, Knowledge.layers_standard]
  exact tagWith_absorb _ _ hstandard hbase entry

/-- Two files define the same tag.  It is described by the second one, which has been discovered
later, until the first is discovered again. -/
theorem sync_renewed_two_definers :
    let tagOf := fun _ => "x-el"
    let s := new.after (.ofSource "" []) (discoverTwo tagOf)
    let old : DiscoveredFile :=
      { source := { id := 0, text := "" }, result := { definitions := [component "x-el" "a.ts"] } }
    (s.UpToDate (hostOfTwo tagOf 0) ∧
      (hostOfTwo tagOf 0).Renews (hostOfTwo tagOf 1) "a.ts" { id := 1, text := "" } ∧
      s.discovered.lookup "a.ts" = some old ∧
      (hostOfTwo tagOf 1).discover "a.ts" "" = old.result) ∧
    (s.knowledge.tag? "x-el").map (·.description) = some (some "b.ts") ∧
    ((s.sync (hostOfTwo tagOf 1)).knowledge.tag? "x-el").map (·.description) =
      some (some "a.ts") := by
  intro tagOf s old
  have hold : s.discovered.lookup "a.ts" = some old := by
    rw [discovered_discoverTwo tagOf]
    rfl
  have hupToDate : s.UpToDate (hostOfTwo tagOf 0) := upToDate_discoverTwo tagOf
  have hrenews := renews_hostOfTwo tagOf 0 1
  have hknown : s.Known := Known.after (.ofSource "" []) (discoverTwo tagOf)
  have htagWith : ∀ entry, s.tagWith entry "x-el" = entry := by
    intro entry
    have hs : s.tagWith = new.tagWith := by
      show (new.after (.ofSource "" []) (discoverTwo tagOf)).tagWith = _
      rw [after_discoverTwo, tagWith_rediscover, tagWith_rediscover]
    rw [hs]
    exact tagWith_new entry (by decide +kernel) (by decide +kernel)
  have hlower : lowerName "x-el" = "x-el" := by decide
  have hlast : ∀ file, Definition.last? [component "x-el" file] "x-el" =
      some (component "x-el" file) := by
    intro file
    rw [Definition.last?_cons]
    exact if_pos hlower
  have hentry : s.discoveredTag? "x-el" =
      some ((component "x-el" "b.ts").toTag.stamp .discovered) := by
    show (new.after (.ofSource "" []) (discoverTwo tagOf)).discoveredTag? "x-el" = _
    rw [after_discoverTwo, discoveredTag?_rediscover_eq]
    show ((Definition.last? [component "x-el" "b.ts"] "x-el").map _).or _ = _
    rw [hlast]
    rfl
  refine ⟨⟨hupToDate, hrenews, hold, rfl⟩, ?_, ?_⟩
  · rw [hknown.tag?_eq, htagWith, hlower, hentry]
    rfl
  · rw [tag?_sync_renewed hknown hupToDate hrenews hold (by decide) rfl, htagWith, hlower]
    show (((Definition.last? [component "x-el" "a.ts"] "x-el").map _).or _).map _ = _
    rw [hlast]
    rfl

end Session
end Inlay
