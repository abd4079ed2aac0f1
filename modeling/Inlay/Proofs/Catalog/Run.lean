import Inlay.Catalog.Knowledge
import Inlay.Proofs.Catalog.Store

/-!
# Runs of the knowledge base

A run is a list of actions: mutations of the layers, and questions, which only
fill the memo.  The effect of a mutation splits into three parts that can be
told from the layers alone: the layers afterwards, the base of all elements
afterwards, and the change from which the plan of dropped views is made.

`Change.Covers` says what the description of a change promises about the two
states of the layers, and `covers_change?` that every mutation keeps the promise.
All that is proved about memos rests on it and not on how the layers are stored.
-/

namespace Inlay

/-- What is done to the layers from outside. -/
inductive Mutation where
  | absorb (layer : Layer) (c : Collection)
  | forget (layer : Layer) (names : Names)
  | clearLayer (layer : Layer)
  | setExtension (name : Option String)

/-- A step of a run. -/
inductive Action where
  | mutate (m : Mutation)
  | ask (q : Question)

namespace Mutation

/-- The layers behind a mutation. -/
def layers (m : Mutation) (ls : Layers) : Layers :=
  match m with
  | .absorb layer c => ls.set layer ((ls.get layer).absorb layer c).2
  | .forget layer names => ls.set layer ((ls.get layer).forget names).2
  | .clearLayer layer => ls.set layer {}
  | .setExtension _ => ls

/-- The base of all elements behind a mutation. -/
def extension (m : Mutation) (e : Option String) : Option String :=
  match m with
  | .setExtension name => name.map lowerName
  | _ => e

/-- The change that a mutation of the layers is, unless it drops the whole memo. -/
def change? (m : Mutation) (ls : Layers) : Option Change :=
  match m with
  | .absorb layer c =>
    some ((Change.ofCollection c).union (Change.ofNames {} ((ls.get layer).absorb layer c).1))
  | .forget layer names => some (Change.ofNames names ((ls.get layer).forget names).1)
  | .clearLayer _ => none
  | .setExtension _ => none

end Mutation

/-- The mutations of a run, in their order. -/
def Action.mutations : List Action → List Mutation
  | [] => []
  | .mutate m :: rest => m :: mutations rest
  | .ask _ :: rest => mutations rest

namespace Knowledge

def mutate (kb : Knowledge) : Mutation → Knowledge
  | .absorb layer c => kb.absorb layer c
  | .forget layer names => kb.forget layer names
  | .clearLayer layer => kb.clearLayer layer
  | .setExtension name => kb.setExtension name

def act (kb : Knowledge) : Action → Knowledge
  | .mutate m => kb.mutate m
  | .ask q => kb.record q

/-- The knowledge base at the end of a run. -/
def run (kb : Knowledge) (as : List Action) : Knowledge := as.foldl act kb

end Knowledge

/-! ## What a change promises -/

namespace Change

/-- The keys of the tags that a change touches. -/
def keys (change : Change) : List String := change.names.tags.map lowerName

/-- What is not named by a change is the same in both states of the layers. -/
structure Covers (change : Change) (old new : Layers) : Prop where
  entry : ∀ {key}, key ∉ change.keys → ∀ layer,
    (new.get layer).tags.find? key = (old.get layer).tags.find? key
  tags : change.names.tags = [] → ∀ layer, (new.get layer).tags = (old.get layer).tags
  globals : ∀ {c}, change.names.globals.get c = [] → ∀ layer,
    (new.get layer).globals.get c = (old.get layer).globals.get c

/-- A change of one layer is covered when that layer is. -/
theorem covers_set {change : Change} {ls : Layers} {layer : Layer} {s : Store}
    (hentry : ∀ {key}, key ∉ change.keys → s.tags.find? key = (ls.get layer).tags.find? key)
    (htags : change.names.tags = [] → s.tags = (ls.get layer).tags)
    (hglobals : ∀ {c}, change.names.globals.get c = [] →
      s.globals.get c = (ls.get layer).globals.get c) :
    change.Covers ls (ls.set layer s) := by
  constructor
  · intro key hkey
    exact Layers.forall_get_set
      (P := fun l s => s.tags.find? key = (ls.get l).tags.find? key) (fun _ => rfl) (hentry hkey)
  · intro hnone
    exact Layers.forall_get_set (P := fun l s => s.tags = (ls.get l).tags) (fun _ => rfl)
      (htags hnone)
  · intro c hnone
    exact Layers.forall_get_set (P := fun l s => s.globals.get c = (ls.get l).globals.get c)
      (fun _ => rfl) (hglobals hnone)

section Covered

variable {change : Change} {old new : Layers}

theorem Covers.tag?_eq (h : change.Covers old new) {key : String} (hkey : key ∉ change.keys) :
    new.tag? key = old.tag? key :=
  Layers.tag?_congr (h.entry hkey)

theorem Covers.globals_eq (h : change.Covers old new) {c : Category}
    (hc : change.names.globals.get c = []) : new.globals c = old.globals c :=
  Layers.globals_congr (h.globals hc)

/-- Without a name of a tag, every tag is as it was. -/
theorem Covers.tags_eq (h : change.Covers old new) (hnone : change.names.tags = [])
    (extension : Option String) : new.tags extension = old.tags extension := by
  have hnames : new.tagNames extension = old.tagNames extension :=
    Layers.tagNames_congr (h.tags hnone) extension
  have htag : ∀ key, new.tag? key = old.tag? key := by
    intro key
    apply h.tag?_eq
    rw [keys, hnone]
    exact List.not_mem_nil
  rw [Layers.tags, Layers.tags, hnames]
  simp only [htag]

end Covered

/-- The tags of a collection are named in lower case, so naming them lowers
nothing. -/
theorem keys_absorb (c : Collection) (replaced : List Tag) :
    ((ofCollection c).union (ofNames {} replaced)).keys = c.tags.map NameMap.key := by
  show (c.tags.map (fun t : Tag => lowerName t.name) ++ []).map lowerName = c.tags.map NameMap.key
  rw [List.append_nil, List.map_map]
  exact List.map_congr_left fun t _ => lowerName_lowerName t.name

theorem globals_absorb (c : Collection) (replaced : List Tag) (k : Category) :
    ((ofCollection c).union (ofNames {} replaced)).names.globals.get k =
      (c.globals.get k).map fun d => lowerName d.name := by
  cases k <;> exact List.append_nil _

theorem covers_absorb (ls : Layers) (layer : Layer) (c : Collection) (replaced : List Tag) :
    ((ofCollection c).union (ofNames {} replaced)).Covers ls
      (ls.set layer ((ls.get layer).absorb layer c).2) := by
  apply covers_set
  · intro key hkey
    rw [keys_absorb] at hkey
    exact Store.find?_putTags_of_notMem layer hkey
  · intro hnone
    have htags : c.tags = [] := List.map_eq_nil_iff.mp (List.append_eq_nil_iff.mp hnone).1
    rw [Store.absorb_tags, htags]
    rfl
  · intro k hnone
    rw [globals_absorb, List.map_eq_nil_iff] at hnone
    rw [Store.absorb_globals, hnone]
    rfl

theorem covers_forget (ls : Layers) (layer : Layer) (names : Names) (removed : List Tag) :
    (ofNames names removed).Covers ls (ls.set layer ((ls.get layer).forget names).2) := by
  apply covers_set
  · intro key hkey
    exact Store.find?_takeTags_of_notMem hkey
  · intro hnone
    have htags : names.tags = [] := hnone
    rw [Store.forget_tags, htags]
    rfl
  · intro k hnone
    have hglobals : names.globals.get k = [] := hnone
    rw [Store.forget_globals, hglobals]
    rfl

end Change

theorem Mutation.covers_change? {m : Mutation} {ls : Layers} {change : Change}
    (h : m.change? ls = some change) : change.Covers ls (m.layers ls) := by
  cases m with
  | absorb layer c =>
    rw [← Option.some.inj h]
    exact Change.covers_absorb ls layer c _
  | forget layer names =>
    rw [← Option.some.inj h]
    exact Change.covers_forget ls layer names _
  | clearLayer layer => exact absurd h (Option.some_ne_none change).symm
  | setExtension name => exact absurd h (Option.some_ne_none change).symm

theorem Mutation.extension_of_change? {m : Mutation} {ls : Layers} {change : Change}
    (h : m.change? ls = some change) (e : Option String) : m.extension e = e := by
  cases m with
  | absorb layer c => rfl
  | forget layer names => rfl
  | clearLayer layer => rfl
  | setExtension name => exact absurd h (Option.some_ne_none change).symm

end Inlay
