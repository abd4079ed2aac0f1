import Inlay.Lint.Engine
import Inlay.Proofs.Catalog.Consulting

/-!
# Checks and memos

A check of markup reads tags, and members of the four categories in which the plans of
changes see the base of all elements.  No rule asks for css members.  So a memo that is
sound for the four categories makes no difference to a check: `agrees_checkMarkup`.

The other memo, that of the types of bindings, makes no difference as long as it
holds the types that would be computed: `value_checkMarkup_of_memo`.  The
types that a check reports are such types, by `mem_bindings_checkMarkup`.
-/

namespace Inlay

open Markup

/-- The categories that rules about markup ask for. -/
abbrev Category.IsChecked (c : Category) : Prop := Plan.inherits c = true

open Category (IsChecked)

theorem agrees_checked (c : Category) (hc : IsChecked c) (tag : String) :
    (Consult.members c tag).Agrees IsChecked :=
  Consult.agrees_members hc tag

namespace BindingTypes

theorem agrees_member? (tag : String) (a : Attribute) : (member? tag a).Agrees IsChecked := by
  have hfind : ∀ c, IsChecked c →
      (do return (← Consult.member? c tag a.name).map fun d => (c, d) :
        Consult (Option (Category × Descriptor))).Agrees IsChecked :=
    fun c hc => (Consult.agrees_member? hc tag a.name).bind fun _ => Consult.agrees_pure _
  rw [member?]
  split
  · exact hfind .attributes rfl
  · exact hfind .attributes rfl
  · exact hfind .events rfl
  · refine (hfind .properties rfl).bind fun found => ?_
    split
    · exact Consult.agrees_pure _
    · exact hfind .attributes rfl

variable {typeOf : HostExpression → StaticType}

theorem agrees_compute (tag : String) (a : Attribute) (x : Assignment) :
    (compute typeOf tag a x).Agrees IsChecked :=
  (agrees_member? tag a).bind fun _ => Consult.agrees_pure _

theorem agrees_resolve (memo : BindingMemo) (tag : String) (a : Attribute) (x : Assignment) :
    (resolve memo typeOf tag a x).Agrees IsChecked := by
  rw [resolve]
  split
  · exact Consult.agrees_pure _
  · exact agrees_compute tag a x

end BindingTypes

/-! ## Rules -/

/-- A rule that a sound memo makes no difference to. -/
structure Rule.Agrees (r : Rule) : Prop where
  onNode : ∀ s n, (r.onNode s n).Agrees IsChecked
  onAttribute : ∀ s n a, (r.onAttribute s n a).Agrees IsChecked

/-- A rule that only looks at assignments. -/
theorem Rule.agrees_onAssignment (info : RuleInfo)
    (look : Scene → Node → Attribute → Assignment → BindingTypes → List Finding) :
    Rule.Agrees { info := info, onAssignment := look } :=
  ⟨fun _ _ => Consult.agrees_pure [], fun _ _ _ => Consult.agrees_pure []⟩

theorem unknownTagName_agrees : unknownTagName.Agrees := by
  refine ⟨fun s n => ?_, fun _ _ _ => Consult.agrees_pure []⟩
  show (UnknownTagName.onNode s n).Agrees IsChecked
  rw [UnknownTagName.onNode]
  split
  · exact Consult.agrees_pure []
  · refine (Consult.agrees_hasTag n.tag).bind fun known => ?_
    split
    · exact Consult.agrees_pure []
    · exact Consult.agrees_tags.bind fun _ => Consult.agrees_pure _

theorem missingImport_agrees : missingImport.Agrees := by
  refine ⟨fun s n => ?_, fun _ _ _ => Consult.agrees_pure []⟩
  show (MissingImport.onNode s n).Agrees IsChecked
  rw [MissingImport.onNode]
  split
  · exact Consult.agrees_pure []
  · split
    · exact Consult.agrees_pure []
    · refine (Consult.agrees_tag? n.tag).bind fun t => ?_
      split
      · exact Consult.agrees_pure []
      · exact Consult.agrees_pure _

theorem unclosedTag_agrees : unclosedTag.Agrees :=
  ⟨fun _ _ => Consult.agrees_pure _, fun _ _ _ => Consult.agrees_pure []⟩

theorem unknownAttribute_agrees : unknownAttribute.Agrees := by
  refine ⟨fun _ _ => Consult.agrees_pure [], fun s n a => ?_⟩
  show (UnknownAttribute.onAttribute s n a).Agrees IsChecked
  rw [UnknownAttribute.onAttribute]
  split
  · exact Consult.agrees_pure []
  · split
    · exact Consult.agrees_pure []
    · refine (Consult.agrees_hasTag n.tag).bind fun known => ?_
      split
      · exact Consult.agrees_pure []
      · refine (agrees_checked .attributes rfl n.tag).bind fun attributes => ?_
        split <;> exact Consult.agrees_pure _

theorem unknownProperty_agrees : unknownProperty.Agrees := by
  refine ⟨fun _ _ => Consult.agrees_pure [], fun s n a => ?_⟩
  show (UnknownProperty.onAttribute s n a).Agrees IsChecked
  rw [UnknownProperty.onAttribute]
  split
  · exact Consult.agrees_pure []
  · refine (Consult.agrees_hasTag n.tag).bind fun known => ?_
    split
    · exact Consult.agrees_pure []
    · refine (agrees_checked .properties rfl n.tag).bind fun properties => ?_
      refine (agrees_checked .attributes rfl n.tag).bind fun attributes => ?_
      split <;> exact Consult.agrees_pure _

theorem unknownEvent_agrees : unknownEvent.Agrees := by
  refine ⟨fun _ _ => Consult.agrees_pure [], fun s n a => ?_⟩
  show (UnknownEvent.onAttribute s n a).Agrees IsChecked
  rw [UnknownEvent.onAttribute]
  split
  · exact Consult.agrees_pure []
  · refine (agrees_checked .events rfl n.tag).bind fun events => ?_
    split <;> exact Consult.agrees_pure _

theorem UnknownSlot.agrees_parentSlots (s : Scene) (n : Node) :
    (parentSlots s n).Agrees IsChecked := by
  rw [parentSlots]
  split
  · exact Consult.agrees_pure none
  · next parent _ =>
    split
    · exact Consult.agrees_pure none
    · refine (agrees_checked .slots rfl parent.tag).bind fun names => ?_
      exact Consult.agrees_pure _

theorem unknownSlot_agrees : unknownSlot.Agrees := by
  refine ⟨fun s n => ?_, fun s n a => ?_⟩
  · show (UnknownSlot.onNode s n).Agrees IsChecked
    rw [UnknownSlot.onNode]
    split
    · exact Consult.agrees_pure []
    · split
      · exact Consult.agrees_pure []
      · refine (UnknownSlot.agrees_parentSlots s n).bind fun found => ?_
        split
        · exact Consult.agrees_pure []
        · split <;> exact Consult.agrees_pure _
  · show (UnknownSlot.onAttribute s n a).Agrees IsChecked
    rw [UnknownSlot.onAttribute]
    split
    · exact Consult.agrees_pure []
    · split
      · exact Consult.agrees_pure []
      · split
        · exact Consult.agrees_pure []
        · refine (UnknownSlot.agrees_parentSlots s n).bind fun found => ?_
          split
          · exact Consult.agrees_pure []
          · split <;> exact Consult.agrees_pure _

theorem markupRules_agree : ∀ r ∈ markupRules, r.Agrees := by
  intro r hr
  simp only [markupRules, List.mem_cons, List.not_mem_nil, or_false] at hr
  rcases hr with rfl | rfl | rfl | rfl | rfl | rfl | rfl | rfl | rfl | rfl | rfl | rfl | rfl | rfl
  · exact unknownTagName_agrees
  · exact missingImport_agrees
  · exact unclosedTag_agrees
  · exact unknownAttribute_agrees
  · exact unknownProperty_agrees
  · exact unknownEvent_agrees
  · exact unknownSlot_agrees
  all_goals exact Rule.agrees_onAssignment _ _

/-! ## Checks -/

theorem Enabled.agrees_run (s : Scene) {look : Rule → Consult (List Finding)}
    {rules : List Enabled} (h : ∀ e ∈ rules, (look e.rule).Agrees IsChecked) :
    (Enabled.run s look rules).Agrees IsChecked :=
  Consult.agrees_collect fun e he => (h e he).bind fun _ => Consult.agrees_pure _

namespace Engine

variable {rules : List Enabled} {s : Scene} {typeOf : HostExpression → StaticType}
  {memo : BindingMemo}

theorem agrees_checkAssignment (n : Node) (a : Attribute) (x : Assignment) (types : BindingTypes) :
    (checkAssignment rules s n a x types).Agrees IsChecked :=
  (Enabled.agrees_run s fun _ _ => Consult.agrees_pure _).bind fun _ => Consult.agrees_pure _

theorem agrees_checkAttribute (hrules : ∀ e ∈ rules, e.rule.Agrees) (n : Node) (a : Attribute) :
    (checkAttribute rules s typeOf memo n a).Agrees IsChecked := by
  rw [checkAttribute]
  refine (Enabled.agrees_run s fun e he => (hrules e he).onAttribute s n a).bind fun found => ?_
  dsimp only
  split
  · exact Consult.agrees_pure _
  · next x _ =>
    refine (BindingTypes.agrees_resolve memo n.tag a x).bind fun types => ?_
    exact (agrees_checkAssignment n a x types).bind fun _ => Consult.agrees_pure _

theorem agrees_checkAttributes (hrules : ∀ e ∈ rules, e.rule.Agrees) (n : Node)
    (as : List Attribute) : (checkAttributes rules s typeOf memo n as).Agrees IsChecked := by
  induction as with
  | nil => exact Consult.agrees_pure _
  | cons a rest ih =>
    exact (agrees_checkAttribute hrules n a).bind fun _ => ih.bind fun _ => Consult.agrees_pure _

theorem agrees_checkNode (hrules : ∀ e ∈ rules, e.rule.Agrees) (n : Node) :
    (checkNode rules s typeOf memo n).Agrees IsChecked := by
  rw [checkNode]
  refine (Enabled.agrees_run s fun e he => (hrules e he).onNode s n).bind fun found => ?_
  dsimp only
  split
  · exact Consult.agrees_pure _
  · exact (agrees_checkAttributes hrules n n.attributes).bind fun _ => Consult.agrees_pure _

theorem agrees_checkNodes (hrules : ∀ e ∈ rules, e.rule.Agrees) (ns : List Node) :
    (checkNodes rules s typeOf memo ns).Agrees IsChecked := by
  induction ns with
  | nil => exact Consult.agrees_pure _
  | cons n rest ih =>
    exact (agrees_checkNode hrules n).bind fun _ => ih.bind fun _ => Consult.agrees_pure _

theorem mem_rules_of_mem_enabledRules {rs : List Rule} {settings : Settings} {e : Enabled}
    (h : e ∈ enabledRules rs settings) : e.rule ∈ rs := by
  obtain ⟨r, hr, he⟩ := List.mem_filterMap.mp h
  obtain ⟨severity, _, rfl⟩ := Option.map_eq_some_iff.mp he
  exact hr

theorem agrees_checkMarkup (s : Scene) (types : TypeProvider) (memo : BindingMemo) :
    (checkMarkup s types memo).Agrees IsChecked := by
  rw [checkMarkup, checkMarkupWith]
  split
  · exact Consult.agrees_pure _
  · refine agrees_checkNodes (fun e he => ?_) s.tree.nodes
    exact markupRules_agree e.rule (mem_rules_of_mem_enabledRules he)

/-! ## Types of bindings -/

variable {kb : Knowledge}

/-- A memo gives a node's bindings the types that would be computed. -/
def MemoHolds (typeOf : HostExpression → StaticType) (kb : Knowledge) (memo : BindingMemo)
    (n : Node) : Prop :=
  ∀ a ∈ n.attributes, ∀ x, a.assignment = some x → ∀ t, memo.lookup x.id = some t →
    t = (BindingTypes.compute typeOf n.tag a x).value kb

theorem value_resolve_of_memo {n : Node} (h : MemoHolds typeOf kb memo n) {a : Attribute}
    (ha : a ∈ n.attributes) {x : Assignment} (hx : a.assignment = some x) :
    (BindingTypes.resolve memo typeOf n.tag a x).value kb =
      (BindingTypes.compute typeOf n.tag a x).value kb := by
  rw [BindingTypes.resolve]
  split
  · next t ht => exact h a ha x hx t ht
  · rfl

theorem value_checkAttribute_of_memo {n : Node} (h : MemoHolds typeOf kb memo n) {a : Attribute}
    (ha : a ∈ n.attributes) :
    (checkAttribute rules s typeOf memo n a).value kb =
      (checkAttribute rules s typeOf [] n a).value kb := by
  rw [checkAttribute, checkAttribute]
  cases hx : a.assignment with
  | none => rfl
  | some x =>
    have hresolve := value_resolve_of_memo h ha hx
    simp only [Consult.value_bind, hresolve]
    rfl

theorem value_checkAttributes_of_memo {n : Node} (h : MemoHolds typeOf kb memo n)
    {as : List Attribute} (has : ∀ a ∈ as, a ∈ n.attributes) :
    (checkAttributes rules s typeOf memo n as).value kb =
      (checkAttributes rules s typeOf [] n as).value kb := by
  induction as with
  | nil => rfl
  | cons a rest ih =>
    rw [List.forall_mem_cons] at has
    simp only [checkAttributes, Consult.value_bind, value_checkAttribute_of_memo h has.1, ih has.2]

theorem value_checkNodes_of_memo {ns : List Node} (h : ∀ n ∈ ns, MemoHolds typeOf kb memo n) :
    (checkNodes rules s typeOf memo ns).value kb = (checkNodes rules s typeOf [] ns).value kb := by
  induction ns with
  | nil => rfl
  | cons n rest ih =>
    rw [List.forall_mem_cons] at h
    have hnode : (checkNode rules s typeOf memo n).value kb =
        (checkNode rules s typeOf [] n).value kb := by
      rw [checkNode, checkNode, Consult.value_bind, Consult.value_bind]
      dsimp only
      split
      · rfl
      · rw [Consult.value_bind, Consult.value_bind,
          value_checkAttributes_of_memo h.1 fun _ ha => ha]
    simp only [checkNodes, Consult.value_bind, hnode, ih h.2]

/-- A memo that holds what would be computed can be done without. -/
theorem value_checkMarkup_of_memo {types : TypeProvider}
    (h : ∀ n ∈ s.tree.nodes, MemoHolds (types s.document.fileName) kb memo n) :
    (checkMarkup s types memo).value kb = (checkMarkup s types []).value kb := by
  rw [checkMarkup, checkMarkup, checkMarkupWith, checkMarkupWith]
  split
  · rfl
  · exact value_checkNodes_of_memo h

/-- The binding is one of the node, with the types that are computed for it. -/
def Computed (typeOf : HostExpression → StaticType) (kb : Knowledge) (n : Node)
    (b : Nat × BindingTypes) : Prop :=
  ∃ a ∈ n.attributes, ∃ x, a.assignment = some x ∧
    b = (x.id, (BindingTypes.compute typeOf n.tag a x).value kb)

theorem mem_bindings_checkAttributes {n : Node} {as : List Attribute}
    (has : ∀ a ∈ as, a ∈ n.attributes) {b : Nat × BindingTypes}
    (h : b ∈ ((checkAttributes rules s typeOf [] n as).value kb).bindings) :
    Computed typeOf kb n b := by
  induction as with
  | nil => exact absurd h List.not_mem_nil
  | cons a rest ih =>
    rw [List.forall_mem_cons] at has
    rw [checkAttributes, Consult.value_bind, Consult.value_bind, Consult.value_pure] at h
    rcases List.mem_append.mp h with h | h
    · rw [checkAttribute, Consult.value_bind] at h
      cases hx : a.assignment with
      | none =>
        simp only [hx] at h
        exact absurd h List.not_mem_nil
      | some x =>
        simp only [hx] at h
        exact ⟨a, has.1, x, hx, List.mem_singleton.mp h⟩
    · exact ih has.2 h

theorem mem_bindings_checkNodes {ns : List Node} {b : Nat × BindingTypes}
    (h : b ∈ ((checkNodes rules s typeOf [] ns).value kb).bindings) :
    ∃ n ∈ ns, Computed typeOf kb n b := by
  induction ns with
  | nil => exact absurd h List.not_mem_nil
  | cons n rest ih =>
    rw [checkNodes, Consult.value_bind, Consult.value_bind, Consult.value_pure] at h
    rcases List.mem_append.mp h with h | h
    · refine ⟨n, List.mem_cons_self, ?_⟩
      rw [checkNode, Consult.value_bind] at h
      dsimp only at h
      split at h
      · exact absurd h List.not_mem_nil
      · rw [Consult.value_bind, Consult.value_pure] at h
        exact mem_bindings_checkAttributes (fun _ ha => ha) h
    · obtain ⟨m, hm, hb⟩ := ih h
      exact ⟨m, List.mem_cons_of_mem n hm, hb⟩

/-- What a check reports for the memo is what would be computed. -/
theorem mem_bindings_checkMarkup {types : TypeProvider} {b : Nat × BindingTypes}
    (h : b ∈ ((checkMarkup s types []).value kb).bindings) :
    ∃ n ∈ s.tree.nodes, Computed (types s.document.fileName) kb n b := by
  rw [checkMarkup, checkMarkupWith] at h
  split at h
  · exact absurd h List.not_mem_nil
  · exact mem_bindings_checkNodes h

end Engine
end Inlay
