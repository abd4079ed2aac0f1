import Inlay.Lint.Rule
import Inlay.Types.Assignable

/-!
# Rules about bindings

These rules compare the type of a value with the type of its target.  A directive
in the value sets most comparisons aside: what it renders is compared where that
is known, and nothing is compared when its arguments do not fit.
-/

namespace Inlay

open Markup

/-- The way to bind an expression to a name. -/
def expressionForm (modifier name : String) : String := modifier ++ name ++ "=$\x7b...\x7d"

def findingOn (a : Attribute) (message : String) (help : Option String) (payload : Payload) :
    Finding :=
  { span := a.whole, message := message, help := help, payload := payload }

def isExpression : Value → Bool
  | .expression _ => true
  | _ => false

namespace InvalidBoolean

def info : RuleInfo :=
  { name := "no-invalid-boolean-binding"
    description := "Disallow boolean bindings to non-boolean targets"
    usual := .error, strict := .error }

def check (a : Attribute) (types : BindingTypes) : List Finding :=
  if a.binding ≠ .boolean || !types.isFound || types.target.assignable .boolean then []
  else
    [findingOn a
      ("The '" ++ a.name ++ "' attribute is of type '" ++ types.target.render ++
        "', not a boolean.")
      (some ("Bind it with " ++ expressionForm "" a.name ++ " instead."))
      (.typeMismatch types.target .boolean)]

end InvalidBoolean

/-- Only targets that take a boolean are bound as booleans. -/
def invalidBoolean : Rule :=
  { info := InvalidBoolean.info, onAssignment := fun _ _ a _ types => InvalidBoolean.check a types }

namespace ExpressionlessProperty

def info : RuleInfo :=
  { name := "no-expressionless-property-binding"
    description := "Require an expression in property bindings"
    usual := .error, strict := .error }

def isStatic : Value → Bool
  | .presence | .text _ => true
  | _ => false

def check (a : Attribute) (value : Value) : List Finding :=
  if a.binding ≠ .property || !isStatic value then []
  else
    [findingOn a "You are using a property binding without an expression."
      (some ("Bind an expression with " ++ expressionForm "." a.name ++
        " or use a plain attribute."))
      .none]

end ExpressionlessProperty

/-- Properties are bound to expressions. -/
def expressionlessProperty : Rule :=
  { info := ExpressionlessProperty.info
    onAssignment := fun _ _ a assignment _ => ExpressionlessProperty.check a assignment.value }

namespace NoncallableEvent

def info : RuleInfo :=
  { name := "no-noncallable-event-binding"
    description := "Disallow non-callable values in event bindings"
    usual := .error, strict := .error }

def check (a : Attribute) (types : BindingTypes) : List Finding :=
  if a.binding ≠ .event || types.directive.isSome || types.value.isCallable ||
      types.value.hasListenerMethod then []
  else
    [findingOn a
      ("You are setting up an event listener with a non-callable type '" ++
        types.value.render ++ "'.")
      (some "Bind a function or an object with a handleEvent method.")
      .none]

end NoncallableEvent

/-- Listeners can be called, or have the method of a listener. -/
def noncallableEvent : Rule :=
  { info := NoncallableEvent.info
    onAssignment := fun _ _ a _ types => NoncallableEvent.check a types }

/-- No value of a type can be written as a text. -/
def isComplexTarget (target : StaticType) : Bool := target.members.all StaticType.isComplex

/-- A text is bound to a target that takes none. -/
def isTextToComplex (types : BindingTypes) (value : StaticType) : Bool :=
  types.isFound && isComplexTarget types.target && value.isPrimitive

/-- The allow-list for an attribute of a tag, where an expression is bound. -/
def allowed? (s : Settings) (tag : String) (a : Attribute) (value : Value) :
    Option (List String) :=
  if isExpression value then s.security.lookup? tag a.name else none

namespace ComplexAttribute

def info : RuleInfo :=
  { name := "no-complex-attribute-binding"
    description := "Disallow complex values in attribute bindings"
    usual := .error, strict := .error }

/-- What is wrong, if a value or a target is complex. -/
def message? (a : Attribute) (types : BindingTypes) : Option String :=
  if types.value.isComplex then
    some ("You are binding a non-primitive type '" ++ types.value.render ++
      "'. This could result in binding the string \"[object Object]\".")
  else if isTextToComplex types types.value then
    some ("The '" ++ a.name ++ "' attribute is of non-primitive type '" ++ types.target.render ++
      "' and cannot be set from a string.")
  else none

/-- Where there is an allow-list, that decides what is bound. -/
def check (s : Settings) (tag : String) (a : Attribute) (value : Value) (types : BindingTypes) :
    List Finding :=
  if a.binding ≠ .plain || types.directive.isSome || (allowed? s tag a value).isSome then []
  else
    ((message? a types).map fun message =>
      findingOn a message (some ("Use a property binding: " ++ expressionForm "." a.name))
        (.typeMismatch types.target types.value)).toList

end ComplexAttribute

/-- Attributes neither hold nor expect objects, arrays or functions. -/
def complexAttribute : Rule :=
  { info := ComplexAttribute.info
    onAssignment := fun s n a assignment types =>
      ComplexAttribute.check s.settings n.tag a assignment.value types }

namespace NullableAttribute

def info : RuleInfo :=
  { name := "no-nullable-attribute-binding"
    description := "Disallow nullable values in attribute bindings"
    usual := .error, strict := .error }

/-- The nullish members of a type that has any. -/
def nullishNames (t : StaticType) : String :=
  let hasNull := StaticType.isIn .null t.members
  let hasUndefined := StaticType.isIn .undefined t.members
  if hasNull && hasUndefined then "'null' and 'undefined'"
  else if hasNull then "'null'" else "'undefined'"

def check (a : Attribute) (value : Value) (types : BindingTypes) : List Finding :=
  if a.binding ≠ .plain || !isExpression value || types.directive.isSome ||
      !types.value.isNullable then []
  else
    [findingOn a
      ("This attribute binds the type '" ++ types.value.render ++ "' which can be " ++
        nullishNames types.value ++ ".")
      (some "Use the ifDefined directive to remove the attribute instead.")
      .none]

end NullableAttribute

/-- Attributes are not bound to `null` and `undefined`. -/
def nullableAttribute : Rule :=
  { info := NullableAttribute.info
    onAssignment := fun _ _ a assignment types => NullableAttribute.check a assignment.value types }

namespace IncompatibleType

def info : RuleInfo :=
  { name := "no-incompatible-type-binding"
    description := "Disallow values whose type does not fit the binding target"
    usual := .error, strict := .error }

/-- The type of the value is known.  A directive whose arguments do not fit, or
of which nothing is known, leaves nothing to compare. -/
def isComparable (types : BindingTypes) : Bool :=
  match types.directive with
  | some d => !d.isMisused && d.rendered.isSome
  | none => true

/-- The type that is compared in a plain attribute.  Presence is not compared at
all, the empty text counts as `true`, and nullish members of an expression are
left to another rule. -/
def plainValue? (value : Value) (types : BindingTypes) : Option StaticType :=
  match value with
  | .presence => none
  | .text "" => some (.booleanLiteral true)
  | .expression _ =>
    if types.directive.isNone then
      let stripped := types.value.withoutNullish
      some (if stripped.isNever then types.value else stripped)
    else some types.value
  | _ => some types.value

/-- The type that is compared. -/
def comparedValue? (a : Attribute) (value : Value) (types : BindingTypes) : Option StaticType :=
  if a.binding = .plain then plainValue? value types else some types.value

/-- The type is a text that writes a number. -/
def isNumericText : StaticType → Bool
  | .stringLiteral text =>
    let trimmed := trim text
    !trimmed.isEmpty && (Number.read? trimmed).isSome
  | _ => false

/-- What a boolean binding takes. -/
def presenceTypes : StaticType := .unionOf [.boolean, .null, .undefined]

/-- The value fits the target of a binding.  An attribute also takes a value
whose text fits. -/
def fits (binding : Binding) (target value : StaticType) : Bool :=
  match binding with
  | .event => true
  | .boolean => presenceTypes.assignable value
  | .property => target.assignable value
  | .plain => target.assignable value || target.assignable value.attributeText

def notAllowed (a : Attribute) (allowed : List String) (value : StaticType) : Finding :=
  findingOn a
    ("Type '" ++ value.render ++ "' is not allowed in '" ++ a.name ++ "'. Allowed types are " ++
      String.intercalate " | " allowed ++ ".")
    none
    (.typeMismatch (.unionOf (allowed.map .named)) value)

def mismatch (a : Attribute) (target value : StaticType) : Finding :=
  findingOn a
    ("Type '" ++ value.render ++ "' is not assignable to '" ++ target.render ++ "'.")
    none
    (.typeMismatch target value)

/-- A value is left to the rule about complex attributes. -/
def isLeftOut (a : Attribute) (types : BindingTypes) (value : StaticType) : Bool :=
  a.binding = .plain && (value.isComplex || isTextToComplex types value)

/-- Compare a value with the target: by the allow-list where there is one, then
as a number that a text writes, and then as a type. -/
def compare (s : Settings) (tag : String) (a : Attribute) (written : Value)
    (types : BindingTypes) (value : StaticType) : List Finding :=
  match if types.directive.isNone then allowed? s tag a written else none with
  | some allowed => if value.isAdmittedBy allowed then [] else [notAllowed a allowed value]
  | none =>
    if isLeftOut a types value then []
    else if isNumericText value && types.target.assignable .number then []
    else if fits a.binding types.target value then []
    else [mismatch a (if a.binding = .boolean then .boolean else types.target) value]

def check (s : Settings) (tag : String) (a : Attribute) (written : Value)
    (types : BindingTypes) : List Finding :=
  if a.binding = .event || !isComparable types then []
  else
    match comparedValue? a written types with
    | none => []
    | some value => compare s tag a written types value

end IncompatibleType

/-- Values fit their targets. -/
def incompatibleType : Rule :=
  { info := IncompatibleType.info
    onAssignment := fun s n a assignment types =>
      IncompatibleType.check s.settings n.tag a assignment.value types }

namespace InvalidDirective

def info : RuleInfo :=
  { name := "no-invalid-directive-binding"
    description := "Disallow directives in bindings they do not support"
    usual := .error, strict := .error }

/-- The attribute is bound plainly and has a name. -/
def isPlain (a : Attribute) (name : String) : Bool := a.binding = .plain && a.lower == name

/-- What is wrong with a directive on an attribute. -/
def message? (a : Attribute) (d : Directive) : Option String :=
  let quoted := "'" ++ d.kind.name ++ "' directive"
  if d.isMisused then some ("Invalid arguments for the " ++ quoted ++ ".")
  else
    match d.kind with
    | .classMap =>
      if isPlain a "class" then none
      else some ("The " ++ quoted ++ " can only be used in the 'class' attribute.")
    | .styleMap =>
      if isPlain a "style" then none
      else some ("The " ++ quoted ++ " can only be used in the 'style' attribute.")
    | .unsafeHtml => some ("The " ++ quoted ++ " can only be used in text content.")
    | _ => none

def check (a : Attribute) (types : BindingTypes) : List Finding :=
  ((types.directive.bind (message? a)).map fun message =>
    { span := a.whole, message := message : Finding }).toList

end InvalidDirective

/-- Directives stand where they can work, with arguments that fit. -/
def invalidDirective : Rule :=
  { info := InvalidDirective.info
    onAssignment := fun _ _ a _ types => InvalidDirective.check a types }

end Inlay
