import Inlay.Proofs.Lint.StaticText

/-!
# Directives whose arguments do not fit

Of a directive that refuses its arguments it is not known what it renders, so there is nothing to
compare with the target of its binding.  The rule about directives reports it, and the rules about
the types of values look for a directive first and stay silent.

The rule about boolean bindings compares no value.  It asks only whether the target takes a boolean,
and of a directive it asks nothing, so it reports such a binding like any other:
`reportsOf_refused_directive`.
-/

namespace Inlay

open Markup

/-- A directive refuses arguments of which there are too many or too few.  The callback of a guarded
value is refused, too, where it is known to be no function. -/
inductive DirectiveKind.Refuses (typeOf : HostExpression → StaticType) :
    DirectiveKind → List HostExpression → Prop
  | count {kind : DirectiveKind} {arguments : List HostExpression}
      (h : kind.takes arguments.length = false) : Refuses typeOf kind arguments
  | callback {deps callback : HostExpression} (hknown : (typeOf callback).isVague = false)
      (hcall : (typeOf callback).callSignature? = none) : Refuses typeOf .guard [deps, callback]

namespace Directive

variable {typeOf : HostExpression → StaticType} {kind : DirectiveKind}
  {arguments : List HostExpression}

/-- Of a directive that refuses its arguments nothing is known but its name. -/
theorem ofCall_of_refuses (h : kind.Refuses typeOf arguments) :
    ofCall typeOf kind arguments = { kind := kind, isMisused := true } := by
  cases h with
  | count h =>
    rw [ofCall.eq_def, h]
    rfl
  | callback hknown hcall => simp [ofCall, DirectiveKind.takes, hknown, hcall]

end Directive

namespace InvalidDirective

open Engine

/-- The finding about a directive that refuses its arguments. -/
def refused (a : Attribute) (kind : DirectiveKind) : Finding :=
  { span := a.whole
    message := "Invalid arguments for the " ++ ("'" ++ kind.name ++ "' directive") ++ "." }

/-- The rules that compare the type of a value with something. -/
def valueRules : List Rule :=
  [noncallableEvent, complexAttribute, nullableAttribute, incompatibleType]

section Hooks

variable {s : Scene} {n : Node} {a : Attribute} {x : Assignment} {types : BindingTypes}
  {d : Directive}

theorem check_of_isMisused (hdirective : types.directive = some d) (hmisused : d.isMisused = true) :
    check a types = [refused a d.kind] := by
  rw [check, hdirective, Option.bind_some, message?, if_pos hmisused]
  rfl

/-- A rule about values finds nothing of a directive that is misused. -/
theorem onAssignment_of_isMisused {r : Rule} (hr : r ∈ valueRules)
    (hdirective : types.directive = some d) (hmisused : d.isMisused = true) :
    r.onAssignment s n a x types = [] := by
  have hcomparable : IncompatibleType.isComparable types = false := by
    simp only [IncompatibleType.isComparable, hdirective, hmisused, Bool.not_true, Bool.false_and]
  simp only [valueRules, List.mem_cons, List.not_mem_nil, or_false] at hr
  rcases hr with rfl | rfl | rfl | rfl
  · show NoncallableEvent.check a types = []
    simp [NoncallableEvent.check, hdirective]
  · show ComplexAttribute.check s.settings n.tag a x.value types = []
    simp [ComplexAttribute.check, hdirective]
  · show NullableAttribute.check a x.value types = []
    simp [NullableAttribute.check, hdirective]
  · show IncompatibleType.check s.settings n.tag a x.value types = []
    simp [IncompatibleType.check, hcomparable]

/-- Whether a boolean binding is reported does not depend on the value. -/
theorem invalidBoolean_check_ne_nil_iff
    (hfound : types.isFound = false → types.target = .any) :
    InvalidBoolean.check a types ≠ [] ↔
      a.binding = .boolean ∧ types.target.assignable .boolean = false := by
  have hany : types.isFound = false → types.target.assignable .boolean = true := by
    intro h
    rw [hfound h]
    rfl
  rw [InvalidBoolean.check]
  cases hisFound : types.isFound with
  | false => simp [hany hisFound]
  | true =>
    by_cases hbinding : a.binding = .boolean
    · cases types.target.assignable .boolean <;> simp [hbinding]
    · simp [hbinding]

end Hooks

section Reports

variable {s : Scene} {typeOf : HostExpression → StaticType} {memo : BindingMemo} {kb : Knowledge}
  {n : Node} {a : Attribute} {x : Assignment} {hole : Hole} {call : CallShape}
  {kind : DirectiveKind}

/-- The types of a binding hold the directive that refuses its arguments. -/
theorem directive_compute_of_refuses (hx : x.value = .expression hole)
    (hcall : hole.call = some call) (hkind : DirectiveKind.ofName? call.callee = some kind)
    (hrefuses : kind.Refuses typeOf call.arguments) :
    ((BindingTypes.compute typeOf n.tag a x).value kb).directive =
      some { kind := kind, isMisused := true } := by
  rw [BindingTypes.compute, Consult.value_bind, Consult.value_pure, hx]
  show Directive.ofHole? typeOf hole _ = _
  rw [Directive.ofHole?, hcall, Option.bind_some, hkind, ← Directive.ofCall_of_refuses hrefuses]

/-- A built-in directive that refuses its arguments is reported as such, and no rule about the types
of values reports the attribute.  The rule about boolean bindings does, if it is one to a target
that takes no boolean. -/
theorem reportsOf_refused_directive (h : Assigns typeOf memo kb n a x)
    (hx : x.value = .expression hole) (hcall : hole.call = some call)
    (hkind : DirectiveKind.ofName? call.callee = some kind)
    (hrefuses : kind.Refuses typeOf call.arguments) :
    reportsOf invalidDirective s typeOf memo n a kb =
        invalidDirective.diagnostics s [refused a kind] ∧
      (∀ r ∈ valueRules, reportsOf r s typeOf memo n a kb = []) ∧
      (reportsOf invalidBoolean s typeOf memo n a kb ≠ [] ↔
        (s.settings.severity? invalidBoolean.info).isSome ∧ a.binding = .boolean ∧
          (kb.target n.tag a).assignable .boolean = false) := by
  have hdirective : ((BindingTypes.compute typeOf n.tag a x).value kb).directive =
      some { kind := kind, isMisused := true } :=
    directive_compute_of_refuses hx hcall hkind hrefuses
  refine ⟨?_, fun r hr => ?_, ?_⟩
  · rw [reportsOf_onAssignment (by simp [markupRules]) (fun _ _ _ => rfl) h]
    show invalidDirective.diagnostics s (check a _) = _
    rw [check_of_isMisused hdirective rfl]
  · have hvalues : ∀ r ∈ valueRules, r ∈ markupRules ∧ ∀ s n a, r.onAttribute s n a = pure [] := by
      simp [valueRules, markupRules, noncallableEvent, complexAttribute, nullableAttribute,
        incompatibleType]
    obtain ⟨hmarkup, hsilent⟩ := hvalues r hr
    rw [reportsOf_onAssignment hmarkup hsilent h, onAssignment_of_isMisused hr hdirective rfl,
      Rule.diagnostics_nil]
  · have htarget : ((BindingTypes.compute typeOf n.tag a x).value kb).target = kb.target n.tag a :=
      BindingTypes.target_compute
    rw [reportsOf_onAssignment (by simp [markupRules]) (fun _ _ _ => rfl) h,
      Rule.diagnostics_ne_nil_iff, ← htarget]
    exact and_congr_right fun _ => invalidBoolean_check_ne_nil_iff fun hfound =>
      htarget.trans (BindingTypes.target_eq_any hfound)

end Reports

/-- A hole with the call of a function of some arguments. -/
def holeOfCall (callee : String) (arguments : List HostExpression) : Hole :=
  { id := 0, expression := { span := ⟨14, 15⟩, text := "f" }, span := ⟨12, 16⟩,
    call := some { callee := callee, arguments := arguments } }

open IncompatibleType (knowing stateAttribute stateElement usualScene assigns_stateElement)

/-- Objects are bound to an attribute of numbers, but the directive that guards them gets no
function. -/
theorem reportsOf_refused_directive_of_guard :
    let e : HostExpression := { span := ⟨14, 15⟩, text := "e" }
    let hole := holeOfCall "guard" [e, e]
    let value : Value := .expression hole
    let kb := knowing .number
    let typeOf : HostExpression → StaticType := fun _ => .array .null
    DirectiveKind.guard.Refuses typeOf [e, e] ∧
      (reportsOf invalidDirective usualScene typeOf [] (stateElement value) (stateAttribute value)
        kb).map (·.finding.message) = ["Invalid arguments for the 'guard' directive."] ∧
      (∀ r ∈ valueRules,
        reportsOf r usualScene typeOf [] (stateElement value) (stateAttribute value) kb = []) ∧
      reportsOf invalidBoolean usualScene typeOf [] (stateElement value) (stateAttribute value) kb =
        [] := by
  intro e hole value kb typeOf
  have hrefuses : DirectiveKind.guard.Refuses typeOf [e, e] := .callback rfl rfl
  have hx : value = .expression hole := rfl
  obtain ⟨hdirective, hvalues, hboolean⟩ := reportsOf_refused_directive (s := usualScene)
    (assigns_stateElement typeOf kb value) hx rfl (by decide) hrefuses
  refine ⟨hrefuses, ?_, hvalues, ?_⟩
  · rw [hdirective]
    decide +kernel
  · by_contra hreports
    exact absurd (hboolean.mp hreports).2.1 (by decide)

/-- A directive without the argument that it needs is bound as a boolean to an attribute of
numbers. -/
theorem refused_directive_reported_twice :
    let value : Value := .expression (holeOfCall "ifDefined" [])
    let a := { stateAttribute value with binding := .boolean }
    let n := { stateElement value with attributes := [a] }
    let kb := knowing .number
    let typeOf : HostExpression → StaticType := fun _ => .any
    DirectiveKind.ifDefined.Refuses typeOf [] ∧
      (reportsOf invalidDirective usualScene typeOf [] n a kb).map (·.finding.message) =
        ["Invalid arguments for the 'ifDefined' directive."] ∧
      (reportsOf invalidBoolean usualScene typeOf [] n a kb).map (·.finding.message) =
        ["The 'state' attribute is of type 'number', not a boolean."] := by
  intro value a n kb typeOf
  exact ⟨.count rfl, by decide +kernel, by decide +kernel⟩

end InvalidDirective

end Inlay
