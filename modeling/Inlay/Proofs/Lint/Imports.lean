import Inlay.Proofs.Catalog.Declarations
import Inlay.Proofs.Lint.Independence

/-!
# Findings about imports

The rule about imports looks at nodes only, so what it reports in a walk is what it
finds of each node, in their order: `filter_diagnosticsOf`.  Of a node it reads nothing but the
kind and what is known about the tag.
-/

namespace Inlay

open Markup

/-- The rule reports nothing of attributes and assignments. -/
structure Rule.LooksAtNodes (r : Rule) : Prop where
  onAttribute : ∀ s n a, r.onAttribute s n a = pure []
  onAssignment : ∀ s n a x types, r.onAssignment s n a x types = []

namespace Engine

variable {rules : List Enabled} {s : Scene} {typeOf : HostExpression → StaticType}
  {memo : BindingMemo} {kb : Knowledge}

theorem value_run_of_silent {look : Rule → Consult (List Finding)}
    (h : ∀ e ∈ rules, (look e.rule).value kb = []) :
    (Enabled.run s look rules).value kb = [] := by
  rw [Enabled.value_run, List.flatMap_eq_nil_iff]
  intro e he
  rw [h e he, List.map_nil]

theorem diagnostics_checkAttribute_of_silent (h : ∀ e ∈ rules, e.rule.LooksAtNodes) (n : Node)
    (a : Attribute) : ((checkAttribute rules s typeOf memo n a).value kb).diagnostics = [] := by
  have hname : (Enabled.run s (fun r => r.onAttribute s n a) rules).value kb = [] :=
    value_run_of_silent fun e he => by rw [(h e he).onAttribute]; rfl
  rw [checkAttribute, Consult.value_bind]
  cases a.assignment with
  | none => exact hname
  | some x =>
    have hassigned : ∀ types : BindingTypes,
        (Enabled.run s (fun r => pure (r.onAssignment s n a x types)) rules).value kb = [] :=
      fun types => value_run_of_silent fun e he => by rw [(h e he).onAssignment]; rfl
    exact List.append_eq_nil_iff.mpr ⟨hname, hassigned _⟩

theorem diagnostics_checkAttributes_of_silent (h : ∀ e ∈ rules, e.rule.LooksAtNodes) (n : Node)
    (as : List Attribute) :
    ((checkAttributes rules s typeOf memo n as).value kb).diagnostics = [] := by
  induction as with
  | nil => rfl
  | cons a rest ih =>
    exact List.append_eq_nil_iff.mpr ⟨diagnostics_checkAttribute_of_silent h n a, ih⟩

theorem diagnostics_checkNode_of_silent (h : ∀ e ∈ rules, e.rule.LooksAtNodes) (n : Node) :
    ((checkNode rules s typeOf memo n).value kb).diagnostics =
      (Enabled.run s (fun r => r.onNode s n) rules).value kb := by
  rw [checkNode, Consult.value_bind]
  dsimp only
  split
  · rfl
  · exact (congrArg _ (diagnostics_checkAttributes_of_silent h n n.attributes)).trans
      (List.append_nil _)

/-- Rules that look at nodes only report what they find of each node. -/
theorem diagnostics_checkNodes_of_silent (h : ∀ e ∈ rules, e.rule.LooksAtNodes) (ns : List Node) :
    ((checkNodes rules s typeOf memo ns).value kb).diagnostics =
      ns.flatMap fun n => (Enabled.run s (fun r => r.onNode s n) rules).value kb := by
  induction ns with
  | nil => rfl
  | cons n rest ih =>
    exact congrArg₂ List.append (diagnostics_checkNode_of_silent h n) ih

end Engine

namespace MissingImport

/-! ## Of one node -/

/-- What the rule finds of a node, by what is known about its tag. -/
def found? (s : Scene) (n : Node) (tag : Option Tag) : Option Finding :=
  if n.kind = .element then
    s.visibleFiles.bind fun visible =>
      tag.bind fun t => (hiddenFile? s visible t).map (finding n t)
  else none

theorem value_onNode (s : Scene) (n : Node) (kb : Knowledge) :
    (onNode s n).value kb = (found? s n (kb.tag? n.tag)).toList := by
  rw [onNode, found?]
  by_cases hkind : n.kind = .element
  · rw [if_neg (not_not.mpr hkind), if_pos hkind]
    cases s.visibleFiles with
    | none => rfl
    | some visible =>
      have hvalue : (Consult.tag? n.tag).value kb = kb.tag? n.tag := rfl
      dsimp only
      rw [Consult.value_bind, hvalue]
      cases kb.tag? n.tag with
      | none => rfl
      | some t => rfl
  · rw [if_pos hkind, if_neg hkind]
    rfl

/-- The file of the document need not be excepted where it is visible. -/
theorem hiddenFile?_eq {s : Scene} {visible : List String} (hfile : s.document.fileName ∈ visible)
    (t : Tag) :
    hiddenFile? s visible t =
      if t.isBuiltIn || !t.isDeclared then none
      else (t.declaration.map (·.fileName)).filter fun file => !visible.contains file := by
  have hsame : (fun file => file != s.document.fileName && !visible.contains file) =
      fun file => !visible.contains file := by
    funext file
    by_cases heq : file = s.document.fileName
    · simp [heq, hfile]
    · simp [heq]
  rw [hiddenFile?, hsame]

theorem looksAtNodes : missingImport.LooksAtNodes := ⟨fun _ _ _ => rfl, fun _ _ _ _ _ => rfl⟩

/-- A finding of the rule in a document. -/
def diagnostic (severity : Severity) (d : Document) (f : Finding) : Diagnostic :=
  { rule := info.name, severity := severity, fileName := d.fileName, location := d.location,
    finding := f }

/-- The diagnostic comes from the rule. -/
def reports (d : Diagnostic) : Bool := d.rule == info.name

theorem enabledRules_only (s : Settings) {severity : Severity}
    (hon : s.severity? info = some severity) :
    enabledRules markupRules (s.only (· == info.name)) = [⟨missingImport, severity⟩] := by
  have hseverity : ∀ r ∈ markupRules,
      ((s.only (· == info.name)).severity? r.info).map (Enabled.mk r) =
        if r.info.name == info.name then (s.severity? r.info).map (Enabled.mk r) else none := by
    intro r hr
    rw [s.severity?_only _ hr]
    split <;> rfl
  have hnamed : markupRules.filter (fun r => r.info.name == info.name) = [missingImport] := rfl
  have hmap : (s.severity? info).map (Enabled.mk missingImport) = some ⟨missingImport, severity⟩ :=
    congrArg _ hon
  rw [enabledRules, List.filterMap_congr hseverity, ← List.filterMap_filter, hnamed]
  exact List.filterMap_cons_some (f := fun r => (s.severity? r.info).map (Enabled.mk r)) hmap

/-- The diagnostics of the rule in a document are its findings of the nodes, in their order. -/
theorem filter_diagnosticsOf (s : Scene) (types : TypeProvider) (memo : BindingMemo)
    (kb : Knowledge) {severity : Severity} (hon : s.settings.severity? info = some severity) :
    (Engine.diagnosticsOf s types memo kb).filter reports =
      s.tree.nodes.filterMap fun n =>
        (found? s n (kb.tag? n.tag)).map (diagnostic severity s.document) := by
  have honly := diagnosticsOf_only s types memo kb (· == info.name)
  have hrules : enabledRules markupRules (s.only (· == info.name)).settings =
      [⟨missingImport, severity⟩] := enabledRules_only s.settings hon
  rw [Engine.diagnosticsOf_eq, hrules, Engine.diagnostics_checkNodes_of_silent
    (List.forall_mem_singleton.mpr looksAtNodes)] at honly
  rw [List.filterMap_eq_flatMap_toList]
  refine honly.symm.trans (List.flatMap_congr fun n _ => ?_)
  rw [Enabled.value_run, List.flatMap_singleton]
  show ((onNode (s.only _) n).value kb).map _ = _
  rw [value_onNode, ← Option.toList_map]
  rfl

end MissingImport

namespace Layers

/-- The file whose definition of a tag the discovered layer holds. -/
def definer? (ls : Layers) (tag : String) : Option String :=
  ((ls.discovered.tags.find? (lowerName tag)).bind (·.declaration)).map (·.fileName)

/-- Some layer knows the tag as a standard one. -/
def isStandard (ls : Layers) (tag : String) : Bool :=
  (ls.tag? (lowerName tag)).any (·.isBuiltIn)

/-- The file to be imported for an element, if it is not among the visible ones. -/
def hiddenDefiner? (ls : Layers) (visible : List String) (n : Node) : Option String :=
  if n.kind = .element ∧ ls.isStandard n.tag = false then
    (ls.definer? n.tag).filter fun file => !visible.contains file
  else none

/-- What there is to report of a node. -/
def missingImport? (ls : Layers) (visible : List String) (n : Node) : Option Finding :=
  (ls.hiddenDefiner? visible n).bind fun file =>
    (ls.tag? (lowerName n.tag)).map fun t => MissingImport.finding n t file

variable {ls : Layers}

/-- Every tag whose declaration the discovered layer has counts as declared. -/
def Declares (ls : Layers) : Prop :=
  ∀ key t, ls.discovered.tags.find? key = some t → t.isDeclared = true

/-- Where discovery alone declares tags, the rule reports what the file of the discovered
definition gives. -/
theorem found?_eq (honly : ls.OnlyDiscovered) (hdeclares : ls.Declares) {s : Scene}
    {visible : List String} (hvisible : s.visibleFiles = some visible)
    (hfile : s.document.fileName ∈ visible) (n : Node) :
    MissingImport.found? s n (ls.tag? (lowerName n.tag)) = ls.missingImport? visible n := by
  have hdeclaration := honly.declaration_tag? (lowerName n.tag)
  rw [MissingImport.found?, missingImport?, hiddenDefiner?, hvisible, definer?, isStandard,
    ← hdeclaration, Option.bind_some]
  by_cases hkind : n.kind = .element
  · cases ht : ls.tag? (lowerName n.tag) with
    | none => simp
    | some t =>
      rw [ht, Option.bind_some] at hdeclaration
      have hfound : MissingImport.hiddenFile? s visible t =
          if t.isBuiltIn then none
          else (t.declaration.map (·.fileName)).filter fun file => !visible.contains file := by
        rw [MissingImport.hiddenFile?_eq hfile]
        cases hd : t.declaration with
        | none => simp
        | some d =>
          -- The entry that says where the tag is declared makes it a declared one.
          rw [hd] at hdeclaration
          obtain ⟨e, he, -⟩ := Option.bind_eq_some_iff.mp hdeclaration.symm
          have hdeclared := isDeclared_tag? .discovered he (hdeclares _ e he)
          rw [ht, Option.any_some] at hdeclared
          rw [hdeclared, Bool.not_true, Bool.or_false]
      rw [if_pos hkind, Option.bind_some, hfound]
      cases hbuiltIn : t.isBuiltIn with
      | true => simp [hbuiltIn]
      | false =>
        rw [if_neg Bool.false_ne_true, if_pos ⟨hkind, hbuiltIn⟩, Option.map_eq_bind]
        rfl
  · simp [hkind]

end Layers
end Inlay
