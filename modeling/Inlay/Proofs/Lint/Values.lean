import Inlay.Proofs.Lint.Agreement
import Inlay.Proofs.Lint.Independence

/-!
# Findings of one rule

A rule about bindings looks at assignments only, and one about names at attributes only.  What such
a rule reports of an attribute is what its hook finds, of an assignment with the types of the
binding that the knowledge base gives: `reportsOf_onAssignment`, `reportsOf_onAttribute`.  And what
a rule reports of a document is what it reports of the nodes and of the attributes of elements:
`filter_diagnosticsOf_nodes`.  So a statement about the diagnostics of one rule is a statement about
its hooks.
-/

namespace Inlay

open Markup

namespace Knowledge

/-- The type of what an attribute of a tag is bound to; any value, where nothing is known. -/
def target (kb : Knowledge) (tag : String) (a : Attribute) : StaticType :=
  (((BindingTypes.member? tag a).value kb).map fun found => found.2.type).getD .any

/-- A tag has what an attribute is bound to. -/
def finds (kb : Knowledge) (tag : String) (a : Attribute) : Bool :=
  ((BindingTypes.member? tag a).value kb).isSome

end Knowledge

namespace BindingTypes

/-- The binding of a value of another type. -/
def withValue (types : BindingTypes) (value : StaticType) : BindingTypes :=
  { types with value := value, raw := value }

variable {typeOf : HostExpression → StaticType} {kb : Knowledge} {tag : String} {a : Attribute}
  {x : Assignment}

theorem target_compute : ((compute typeOf tag a x).value kb).target = kb.target tag a := by
  rw [compute, Consult.value_bind, Consult.value_pure, ofTarget, Knowledge.target, Option.map_map]
  rfl

theorem isFound_compute :
    ((compute typeOf tag a x).value kb).isFound = kb.finds tag a := by
  rw [compute, Consult.value_bind, Consult.value_pure, ofTarget, Knowledge.finds, Option.isSome_map]

/-- What is not found takes any value. -/
theorem target_eq_any (h : ((compute typeOf tag a x).value kb).isFound = false) :
    kb.target tag a = .any := by
  rw [compute, Consult.value_bind, Consult.value_pure] at h
  rw [Knowledge.target]
  cases hfound : (member? tag a).value kb with
  | none => rfl
  | some found =>
    rw [hfound] at h
    exact absurd h Bool.true_eq_false.mp

variable (typeOf kb tag a) in
theorem value_compute_of_text {text : String} (h : x.value = .text text) :
    ((compute typeOf tag a x).value kb).value = .stringLiteral text ∧
      ((compute typeOf tag a x).value kb).directive = none := by
  rw [compute, Consult.value_bind, Consult.value_pure, ofTarget, h]
  exact ⟨rfl, rfl⟩

variable (typeOf kb tag a) in
/-- An expression that is no call holds no directive. -/
theorem value_compute_of_hole {hole : Hole} (h : x.value = .expression hole)
    (hcall : hole.call = none) :
    ((compute typeOf tag a x).value kb).value = typeOf hole.expression ∧
      ((compute typeOf tag a x).value kb).directive = none := by
  rw [compute, Consult.value_bind, Consult.value_pure, ofTarget, h]
  have hdirective : directive? typeOf (typeOf hole.expression) (.expression hole) = none := by
    rw [directive?, Directive.ofHole?, hcall, Option.bind_none]
  refine ⟨?_, hdirective⟩
  show ((directive? typeOf (typeOf hole.expression) (.expression hole)).bind _).getD _ = _
  rw [hdirective]
  rfl

end BindingTypes

/-! ## One rule among all -/

theorem filter_markupRules {r : Rule} (hr : r ∈ markupRules) :
    markupRules.filter (fun q => q.info.name == r.info.name) = [r] := by
  simp only [markupRules, List.mem_cons, List.not_mem_nil, or_false] at hr
  rcases hr with rfl | rfl | rfl | rfl | rfl | rfl | rfl | rfl | rfl | rfl | rfl | rfl | rfl | rfl
  all_goals rfl

/-- At most one of the rules that run has the name of a rule. -/
theorem filter_enabledRules {r : Rule} (hr : r ∈ markupRules) (settings : Settings) :
    (enabledRules markupRules settings).filter (fun e => e.rule.info.name == r.info.name) =
      ((settings.severity? r.info).map (Enabled.mk r)).toList := by
  have hfilter : ∀ rs : List Rule,
      (enabledRules rs settings).filter (fun e => e.rule.info.name == r.info.name) =
        enabledRules (rs.filter fun q => q.info.name == r.info.name) settings := by
    intro rs
    rw [enabledRules, enabledRules, List.filter_filterMap, List.filterMap_filter]
    refine List.filterMap_congr fun q _ => ?_
    cases settings.severity? q.info with
    | none => exact (ite_self none).symm
    | some severity => rfl
  rw [hfilter, filter_markupRules hr, enabledRules, List.filterMap_cons]
  cases settings.severity? r.info with
  | none => rfl
  | some severity => rfl

theorem Enabled.filter_value_run (s : Scene) (look : Rule → Consult (List Finding))
    (rules : List Enabled) (kb : Knowledge) (name : String) :
    ((Enabled.run s look rules).value kb).filter (fun d => d.rule == name) =
      (Enabled.run s look (rules.filter fun e => e.rule.info.name == name)).value kb := by
  rw [Enabled.value_run, Enabled.value_run]
  induction rules with
  | nil => rfl
  | cons e rest ih =>
    rw [List.flatMap_cons, List.filter_append, ih, List.filter_map, List.filter_cons]
    have hrule : (fun d : Diagnostic => d.rule == name) ∘ e.diagnose s =
        fun _ => e.rule.info.name == name := rfl
    rw [hrule]
    cases e.rule.info.name == name with
    | true => rw [List.filter_true, if_pos rfl, List.flatMap_cons]
    | false => rw [List.filter_false, if_neg Bool.false_ne_true]; rfl

/-- What a rule finds, as diagnostics.  A rule that does not run makes none. -/
def Rule.diagnostics (r : Rule) (s : Scene) (found : List Finding) : List Diagnostic :=
  (s.settings.severity? r.info).toList.flatMap fun severity =>
    found.map ((Enabled.mk r severity).diagnose s)

namespace Rule

variable {r : Rule} {s : Scene} {found : List Finding}

@[simp] theorem diagnostics_nil : r.diagnostics s [] = [] := by
  rw [diagnostics]
  cases s.settings.severity? r.info <;> rfl

theorem diagnostics_of_severity {severity : Severity}
    (hon : s.settings.severity? r.info = some severity) :
    r.diagnostics s found = found.map ((Enabled.mk r severity).diagnose s) := by
  rw [diagnostics, hon, Option.toList_some, List.flatMap_singleton]

theorem diagnostics_ne_nil_iff :
    r.diagnostics s found ≠ [] ↔ (s.settings.severity? r.info).isSome ∧ found ≠ [] := by
  cases hon : s.settings.severity? r.info with
  | none => simp [diagnostics, hon]
  | some severity => simp [diagnostics_of_severity hon]

theorem length_diagnostics (hon : (s.settings.severity? r.info).isSome) :
    (r.diagnostics s found).length = found.length := by
  obtain ⟨severity, hseverity⟩ := Option.isSome_iff_exists.mp hon
  rw [diagnostics_of_severity hseverity, List.length_map]

theorem finding_of_mem_diagnostics {d : Diagnostic} (h : d ∈ r.diagnostics s found) :
    d.finding ∈ found := by
  obtain ⟨severity, -, hd⟩ := List.mem_flatMap.mp h
  obtain ⟨f, hf, rfl⟩ := List.mem_map.mp hd
  exact hf

end Rule

/-- Of what the rules find in one place, the part that is one rule's. -/
theorem Enabled.filter_run {r : Rule} (hr : r ∈ markupRules) (s : Scene)
    (look : Rule → Consult (List Finding)) (kb : Knowledge) :
    ((Enabled.run s look (enabledRules markupRules s.settings)).value kb).filter
      (fun d => d.rule == r.info.name) = r.diagnostics s ((look r).value kb) := by
  rw [filter_value_run, filter_enabledRules hr, value_run, Rule.diagnostics]
  cases s.settings.severity? r.info with
  | none => rfl
  | some severity => rfl

namespace Engine

/-- The diagnostics of a rule that an attribute gets. -/
def reportsOf (r : Rule) (s : Scene) (typeOf : HostExpression → StaticType) (memo : BindingMemo)
    (n : Node) (a : Attribute) (kb : Knowledge) : List Diagnostic :=
  ((checkAttribute (enabledRules markupRules s.settings) s typeOf memo n a).value
    kb).diagnostics.filter fun d => d.rule == r.info.name

/-- An attribute of a node with what is assigned to it, and a memo that holds for the node. -/
structure Assigns (typeOf : HostExpression → StaticType) (memo : BindingMemo) (kb : Knowledge)
    (n : Node) (a : Attribute) (x : Assignment) : Prop where
  mem : a ∈ n.attributes
  assignment : a.assignment = some x
  memo : MemoHolds typeOf kb memo n

section Attributes

variable {r : Rule} {s : Scene} {typeOf : HostExpression → StaticType} {memo : BindingMemo}
  {n : Node} {a : Attribute} {kb : Knowledge} {x : Assignment}

/-- A rule that looks at assignments only reports what it finds of the one of the attribute. -/
theorem reportsOf_onAssignment (hr : r ∈ markupRules)
    (hsilent : ∀ s n a, r.onAttribute s n a = pure []) (h : Assigns typeOf memo kb n a x) :
    reportsOf r s typeOf memo n a kb =
      r.diagnostics s
        (r.onAssignment s n a x ((BindingTypes.compute typeOf n.tag a x).value kb)) := by
  rw [reportsOf, checkAttribute, Consult.value_bind, h.assignment]
  dsimp only
  rw [Consult.value_bind, Consult.value_bind, Consult.value_pure, checkAssignment,
    Consult.value_bind, Consult.value_pure, Report.append, List.filter_append,
    Enabled.filter_run hr, Enabled.filter_run hr, hsilent, Consult.value_pure,
    Rule.diagnostics_nil, value_resolve_of_memo h.memo h.mem h.assignment]
  rfl

theorem reportsOf_eq (hr : r ∈ markupRules) (hsilent : ∀ s n a, r.onAttribute s n a = pure [])
    {severity : Severity} (hon : s.settings.severity? r.info = some severity)
    (h : Assigns typeOf memo kb n a x) :
    reportsOf r s typeOf memo n a kb =
      (r.onAssignment s n a x ((BindingTypes.compute typeOf n.tag a x).value kb)).map
        ((Enabled.mk r severity).diagnose s) := by
  rw [reportsOf_onAssignment hr hsilent h, Rule.diagnostics_of_severity hon]

/-- A rule that looks at names only reports what it finds of the attribute, with or without an
assignment. -/
theorem reportsOf_onAttribute (hr : r ∈ markupRules)
    (hsilent : ∀ s n a x types, r.onAssignment s n a x types = []) :
    reportsOf r s typeOf memo n a kb = r.diagnostics s ((r.onAttribute s n a).value kb) := by
  rw [reportsOf, checkAttribute, Consult.value_bind]
  cases a.assignment with
  | none => exact Enabled.filter_run hr s _ kb
  | some x =>
    dsimp only
    rw [Consult.value_bind, Consult.value_bind, Consult.value_pure, checkAssignment,
      Consult.value_bind, Consult.value_pure, Report.append, List.filter_append,
      Enabled.filter_run hr, Enabled.filter_run hr, hsilent, Consult.value_pure,
      Rule.diagnostics_nil, List.append_nil]

end Attributes

/-- The diagnostics of a rule that a node itself gets. -/
def reportsOfNode (r : Rule) (s : Scene) (n : Node) (kb : Knowledge) : List Diagnostic :=
  r.diagnostics s ((r.onNode s n).value kb)

section Document

variable {r : Rule} {s : Scene} {typeOf : HostExpression → StaticType} {memo : BindingMemo}
  {kb : Knowledge}

theorem filter_checkAttributes (n : Node) (as : List Attribute) :
    ((checkAttributes (enabledRules markupRules s.settings) s typeOf memo n as).value
      kb).diagnostics.filter (fun d => d.rule == r.info.name) =
        as.flatMap fun a => reportsOf r s typeOf memo n a kb := by
  induction as with
  | nil => rfl
  | cons a rest ih =>
    rw [List.flatMap_cons, ← ih]
    exact List.filter_append _ _

theorem filter_checkNode (hr : r ∈ markupRules) (n : Node) :
    ((checkNode (enabledRules markupRules s.settings) s typeOf memo n).value
      kb).diagnostics.filter (fun d => d.rule == r.info.name) =
        reportsOfNode r s n kb ++
          if n.kind = .element then
            n.attributes.flatMap fun a => reportsOf r s typeOf memo n a kb
          else [] := by
  rw [checkNode, Consult.value_bind]
  dsimp only
  by_cases hkind : n.kind = .element
  · rw [if_neg (not_not.mpr hkind), if_pos hkind]
    simp only [Consult.value_bind, Consult.value_pure, Report.append, List.filter_append,
      Enabled.filter_run hr, filter_checkAttributes, reportsOfNode]
  · rw [if_pos hkind, if_neg hkind, List.append_nil]
    exact Enabled.filter_run hr s _ kb

/-- What a rule reports of a document: node by node, and behind each element what it reports of
the attributes. -/
theorem filter_diagnosticsOf_nodes (hr : r ∈ markupRules) (types : TypeProvider) :
    (diagnosticsOf s types memo kb).filter (fun d => d.rule == r.info.name) =
      s.tree.nodes.flatMap fun n => reportsOfNode r s n kb ++
        if n.kind = .element then
          n.attributes.flatMap fun a => reportsOf r s (types s.document.fileName) memo n a kb
        else [] := by
  rw [diagnosticsOf_eq]
  induction s.tree.nodes with
  | nil => rfl
  | cons n rest ih =>
    simp only [checkNodes, Consult.value_bind, Consult.value_pure, Report.append,
      List.filter_append, filter_checkNode hr, ih, List.flatMap_cons]

/-- A rule that reports nothing of nodes reports of a document what it reports of the attributes
of its elements, in their order. -/
theorem filter_diagnosticsOf (hr : r ∈ markupRules) (hsilent : ∀ s n, r.onNode s n = pure [])
    (types : TypeProvider) :
    (diagnosticsOf s types memo kb).filter (fun d => d.rule == r.info.name) =
      (s.tree.nodes.filter (·.kind = .element)).flatMap fun n =>
        n.attributes.flatMap fun a => reportsOf r s (types s.document.fileName) memo n a kb := by
  rw [filter_diagnosticsOf_nodes hr]
  simp only [reportsOfNode, hsilent, Consult.value_pure, Rule.diagnostics_nil, List.nil_append]
  induction s.tree.nodes with
  | nil => rfl
  | cons n rest ih =>
    rw [List.flatMap_cons, List.filter_cons, ih]
    by_cases hkind : n.kind = .element
    · rw [if_pos hkind, if_pos (decide_eq_true hkind), List.flatMap_cons]
    · rw [if_neg hkind, if_neg (by simpa using hkind), List.nil_append]

end Document

end Engine

end Inlay
