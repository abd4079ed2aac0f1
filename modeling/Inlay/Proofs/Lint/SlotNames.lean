import Inlay.Proofs.Catalog.Views
import Inlay.Proofs.Lint.StaticText

/-!
# Names of slots

A child goes into the slot of its parent that a static `slot` attribute names, or without one into the
slot that has no name.  The rule about slots tells names apart by case, but it reads them from a view
of members, which does not: of several slots whose names differ in case the view has one, in the
spelling that is declared first.  So a name is reported if it is not declared, and also if it is
declared in another spelling before: `reports_slot_iff`.  The empty name has one spelling.
-/

namespace Inlay

open Markup

namespace UnknownSlot

open Engine

/-! ## What the rule finds -/

section Hooks

variable {s : Scene} {n parent : Node} {kb : Knowledge} {slot : String} {names : List String}
  {a : Attribute}

theorem value_parentSlots (hparent : s.tree.parent? n = some parent)
    (hkind : parent.kind = .element) (hnames : (kb.members .slots parent.tag).names ≠ []) :
    (parentSlots s n).value kb = some (parent.tag, (kb.members .slots parent.tag).names) := by
  rw [parentSlots, hparent]
  dsimp only
  rw [if_neg (not_not.mpr hkind), Consult.value_bind, Consult.value_pure]
  exact if_neg fun hempty => hnames (List.isEmpty_iff.mp hempty)

theorem onAttribute_ne_nil_iff (hbinding : a.binding = .plain ∨ a.binding = .boolean)
    (hslot : a.lower = "slot") (hstatic : staticSlot? a = some slot)
    (hnames : (parentSlots s n).value kb = some (parent.tag, names)) :
    (onAttribute s n a).value kb ≠ [] ↔ slot ∉ names := by
  have hbinding' : ¬(a.binding ≠ .plain ∧ a.binding ≠ .boolean) := by
    rcases hbinding with h | h <;> simp [h]
  rw [onAttribute, if_neg hbinding', if_neg (not_not.mpr hslot), hstatic]
  dsimp only
  rw [Consult.value_bind, hnames]
  dsimp only
  by_cases hmem : slot ∈ names
  · simp [hmem, Consult.value_pure]
  · simp [hmem, Consult.value_pure]

theorem onNode_ne_nil_iff (hkind : n.kind = .element) (hslot : n.attribute? "slot" = none)
    (hnames : (parentSlots s n).value kb = some (parent.tag, names)) :
    (onNode s n).value kb ≠ [] ↔ "" ∉ names := by
  rw [onNode, if_neg (not_not.mpr hkind), hslot, if_neg (by simp), Consult.value_bind, hnames]
  dsimp only
  by_cases hmem : "" ∈ names
  · simp [hmem, Consult.value_pure]
  · simp [hmem, Consult.value_pure]

end Hooks

/-! ## Declared slots -/

section Reports

variable {s : Scene} {n parent : Node}

/-- A name is listed for the parent if it is the first spelling in which it is declared. -/
theorem mem_names_iff (as : List Action) (tag slot : String) :
    slot ∈ ((Knowledge.run {} as).members .slots tag).names ↔
      firstSpelled slot ((Knowledge.run {} as).layers.slotNames tag) = some slot := by
  rw [(Knowledge.indexed_run_members as .slots tag).mem_names_iff, Knowledge.name_run_slots]

theorem names_ne_nil {as : List Action} {tag : String}
    (h : (Knowledge.run {} as).layers.slotNames tag ≠ []) :
    ((Knowledge.run {} as).members .slots tag).names ≠ [] := by
  obtain ⟨slot, hslot⟩ := List.exists_mem_of_ne_nil _ h
  have hfound := firstSpelled_isSome hslot
  rw [← Knowledge.name_run_slots, Option.isSome_map] at hfound
  exact (Knowledge.indexed_run_members as .slots tag).names_ne_nil hfound

/-- A child of an element with slots is reported for a name if no slot is declared under it, exactly
as it is spelled, or if the name is declared in another spelling before.  Without a name it is
reported if no slot is declared without one. -/
theorem reports_slot_iff (as : List Action) (typeOf : HostExpression → StaticType)
    (memo : BindingMemo) (hon : (s.settings.severity? unknownSlot.info).isSome)
    (hparent : s.tree.parent? n = some parent) (hkind : parent.kind = .element)
    (hslots : (Knowledge.run {} as).layers.slotNames parent.tag ≠ []) :
    let kb := Knowledge.run {} as
    let names := kb.layers.slotNames parent.tag
    (∀ a slot, a.binding = .plain ∨ a.binding = .boolean → a.lower = "slot" →
      staticSlot? a = some slot →
        (reportsOf unknownSlot s typeOf memo n a kb ≠ [] ↔
          slot ∉ names ∨ ∃ first, firstSpelled slot names = some first ∧ first ≠ slot)) ∧
    (n.kind = .element → n.attribute? "slot" = none →
      (reportsOfNode unknownSlot s n kb ≠ [] ↔ "" ∉ names)) := by
  intro kb names
  have hrule : unknownSlot ∈ markupRules := by simp [markupRules]
  have hfound : (parentSlots s n).value kb =
      some (parent.tag, (kb.members .slots parent.tag).names) :=
    value_parentSlots hparent hkind (names_ne_nil hslots)
  constructor
  · intro a slot hbinding hslot hstatic
    have hvalue := onAttribute_ne_nil_iff hbinding hslot hstatic hfound
    rw [mem_names_iff] at hvalue
    rw [reportsOf_onAttribute hrule (fun _ _ _ _ _ => rfl), Rule.diagnostics_ne_nil_iff,
      and_iff_right hon, ← firstSpelled_ne_iff]
    exact hvalue
  · intro hn hnone
    have hvalue := onNode_ne_nil_iff hn hnone hfound
    rw [mem_names_iff] at hvalue
    rw [reportsOfNode, Rule.diagnostics_ne_nil_iff, and_iff_right hon, ← firstSpelled_empty_iff]
    exact hvalue

end Reports

/-! ## Cards with slots -/

/-- A tag `x-card` with slots of some names is made known. -/
def cards (slots : List String) : List Action :=
  [.mutate (.absorb .builtIn { tags := [
    { name := "x-card"
      members := (Shelf.ofFn fun _ => []).set .slots (slots.map fun slot => { name := slot }) }] })]

def card : Node :=
  { id := 0, tag := "x-card", kind := .element, whole := ⟨0, 40⟩, nameSpan := ⟨1, 7⟩,
    startTag := ⟨0, 8⟩ }

/-- A child of the card. -/
def child (attributes : List Attribute) : Node :=
  { id := 1, tag := "p", kind := .element, whole := ⟨8, 31⟩, nameSpan := ⟨9, 10⟩,
    startTag := ⟨8, 27⟩, attributes := attributes, parent := some 0 }

def slotAttribute (slot : String) : Attribute :=
  { id := 0, node := 1, name := "slot", binding := .plain, whole := ⟨11, 26⟩, nameSpan := ⟨11, 15⟩
    assignment := some { id := 0, owner := 0, value := .text slot, span := ⟨16, 26⟩ } }

/-- The card with the child, under the usual settings. -/
def cardScene (n : Node) : Scene :=
  { document := { fileName := "a.ts", dialect := .markup, location := ⟨5, 45⟩, parts := [] }
    tree := { roots := [.mk card [.mk n []]], problems := [] }
    settings := {} }

/-- A slot that is declared in this spelling only is not reported.  A child without a name is. -/
theorem reports_slot_iff_of_card :
    let as := cards ["header", "Footer"]
    let kb := Knowledge.run {} as
    let a := slotAttribute "Footer"
    kb.layers.slotNames "x-card" = ["header", "Footer"] ∧
      reportsOf unknownSlot (cardScene (child [a])) (fun _ => .any) [] (child [a]) a kb = [] ∧
      reportsOfNode unknownSlot (cardScene (child [])) (child []) kb ≠ [] := by
  intro as kb a
  have hnames : kb.layers.slotNames "x-card" = ["header", "Footer"] := by decide +kernel
  have hslots : kb.layers.slotNames card.tag ≠ [] := by
    show kb.layers.slotNames "x-card" ≠ []
    rw [hnames]
    exact List.cons_ne_nil _ _
  have hon : ∀ n, ((cardScene n).settings.severity? unknownSlot.info).isSome := fun _ => rfl
  have hparent : ∀ attributes, (cardScene (child attributes)).tree.parent? (child attributes) =
      some card := fun _ => rfl
  obtain ⟨hattribute, -⟩ := reports_slot_iff as (fun _ => .any) [] (hon _) (hparent [a]) rfl hslots
  obtain ⟨-, hnode⟩ := reports_slot_iff as (fun _ => .any) [] (hon _) (hparent []) rfl hslots
  refine ⟨hnames, ?_, ?_⟩
  · by_contra hreports
    have hnot := (hattribute a "Footer" (.inl rfl) (by decide) rfl).mp hreports
    rw [← firstSpelled_ne_iff] at hnot
    exact hnot (by decide +kernel)
  · refine (hnode rfl rfl).mpr ?_
    decide +kernel

/-- The slot is declared, but behind another spelling of its name. -/
theorem declared_slot_reported :
    let as := cards ["right", "Right"]
    let kb := Knowledge.run {} as
    let a := slotAttribute "Right"
    "Right" ∈ kb.layers.slotNames "x-card" ∧
      (reportsOf unknownSlot (cardScene (child [a])) (fun _ => .any) [] (child [a]) a kb).map
        (·.finding.message) =
          ["Invalid slot name 'Right'. Valid slot names are \"right\"."] := by
  intro as kb a
  constructor <;> decide +kernel

end UnknownSlot

end Inlay
