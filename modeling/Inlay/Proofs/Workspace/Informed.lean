import Inlay.Proofs.Catalog.Bubbling
import Inlay.Proofs.Catalog.Inherited
import Inlay.Proofs.Lint.Agreement
import Inlay.Proofs.Workspace.Requests

/-!
# The knowledge base of a session

The knowledge base of a session is changed in two ways.  Definitions come and go in the
discovered layer, which is the last but for the base of all elements, so that what
bubbles stays what it was.  And the configured layer is made anew, which drops the whole
memo.  Therefore the memo of a session is sound for all that checks of markup ask
for, including events: `Informed` is kept by both.
-/

namespace Inlay

namespace Knowledge

theorem extension_standard : standard.extension = some "htmlelement" := by
  rw [standard_eq, extension_mutate, extension_mutate]
  rfl

/-- The configured layer is made anew from a collection. -/
def reconfigured (kb : Knowledge) (c : Collection) : Knowledge :=
  (kb.clearLayer .userConfig).absorb .userConfig c

theorem layers_reconfigured (kb : Knowledge) (c : Collection) :
    (kb.reconfigured c).layers =
      (Mutation.absorb .userConfig c).layers ((Mutation.clearLayer .userConfig).layers kb.layers) :=
  layers_mutate (kb.clearLayer .userConfig) (.absorb .userConfig c)

theorem extension_reconfigured (kb : Knowledge) (c : Collection) :
    (kb.reconfigured c).extension = kb.extension :=
  extension_mutate (kb.clearLayer .userConfig) (.absorb .userConfig c)

/-- The whole memo is dropped. -/
theorem memo_reconfigured (kb : Knowledge) (c : Collection) : (kb.reconfigured c).memo = {} :=
  memo_mutate_of_empty (kb.clearLayer .userConfig) rfl (.absorb .userConfig c)

end Knowledge

open Category (IsChecked)

/-- A knowledge base as sessions have it.  The base of all elements is the only tag of
its layer. -/
structure Informed (kb : Knowledge) : Prop where
  coherent : kb.Coherent IsChecked
  indexed : kb.layers.Indexed
  base : ∀ k ∈ kb.layers.extension.tags.keys, kb.extension = some k

namespace Informed

variable {kb : Knowledge}

theorem record (h : Informed kb) (qs : List Question) : Informed (qs.foldl Knowledge.record kb) := by
  have hfresh := Knowledge.fresh_foldl_record qs kb
  refine ⟨h.coherent.foldl_record qs, ?_, ?_⟩
  · rw [Knowledge.layers_of_fresh_eq hfresh]
    exact h.indexed
  · rw [Knowledge.layers_of_fresh_eq hfresh, Knowledge.extension_of_fresh_eq hfresh]
    exact h.base

/-- A mutation of the discovered layer keeps what its plan leaves. -/
theorem mutate (h : Informed kb) {m : Mutation} {change : Change}
    (hm : ∀ layer, layer ≠ .discovered → (m.layers kb.layers).get layer = kb.layers.get layer)
    (hchange : m.change? kb.layers = some change) : Informed (kb.mutate m) := by
  refine ⟨?_, ?_, ?_⟩
  · refine h.coherent.mutate fun change hchange c hc => ?_
    have hcovers := Mutation.covers_change? hchange
    by_cases hevents : c = .events
    · rw [hevents]
      exact hcovers.keeps_events_iff.mpr
        (Mutation.keepsBubbling_of_discovered h.indexed hm h.base hchange)
    · exact hcovers.keeps_of_inherits hevents hc
  · rw [Knowledge.layers_mutate]
    exact h.indexed.mutate m
  · have hextension : (m.layers kb.layers).extension = kb.layers.extension :=
      hm .extension (by decide)
    rw [Knowledge.layers_mutate, Knowledge.extension_mutate, m.extension_of_change? hchange,
      hextension]
    exact h.base

theorem absorb (h : Informed kb) (c : Collection) : Informed (kb.absorb .discovered c) :=
  h.mutate (m := .absorb .discovered c) (fun _ hl => Layers.get_set_ne _ hl) rfl

theorem forget (h : Informed kb) (names : Names) : Informed (kb.forget .discovered names) :=
  h.mutate (m := .forget .discovered names) (fun _ hl => Layers.get_set_ne _ hl) rfl

/-- Making the configured layer anew leaves an empty memo. -/
theorem reconfigure (h : Informed kb) (c : Collection) :
    Informed ((kb.clearLayer .userConfig).absorb .userConfig c) := by
  show Informed (kb.reconfigured c)
  refine ⟨⟨?_, ?_⟩, ?_, ?_⟩
  · rw [Knowledge.extension_reconfigured]
    exact h.coherent.lowered
  · rw [Knowledge.memo_reconfigured]
    exact Memo.sound_empty _ _ _
  · rw [Knowledge.layers_reconfigured]
    exact (h.indexed.mutate _).mutate _
  · rw [Knowledge.layers_reconfigured, Knowledge.extension_reconfigured]
    exact h.base

theorem standard : Informed Knowledge.standard := by
  have hmemo : Knowledge.standard.memo = {} := by
    rw [Knowledge.standard_eq]
    exact Knowledge.memo_mutate_of_empty _ (Knowledge.memo_mutate_of_empty {} rfl _) _
  refine ⟨⟨?_, ?_⟩, ?_, ?_⟩
  · rw [Knowledge.extension_standard]
    decide
  · rw [hmemo]
    exact Memo.sound_empty _ _ _
  · rw [Knowledge.standard_eq, Knowledge.layers_mutate, Knowledge.layers_mutate]
    exact (Layers.indexed_empty.mutate _).mutate _
  · rw [Knowledge.layers_standard, Knowledge.extension_standard]
    intro k hk
    have hkey : k ∈ Standard.baseCollection.tags.map NameMap.key := by
      by_contra hnot
      rw [← NameMap.find?_isSome_iff, Store.absorb_tags,
        Store.find?_putTags_of_notMem .extension hnot] at hk
      exact Bool.false_ne_true hk
    have hname : Standard.baseCollection.tags.map NameMap.key = ["htmlelement"] := by decide
    rw [hname] at hkey
    rw [List.mem_singleton.mp hkey]

end Informed
end Inlay
