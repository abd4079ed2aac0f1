import Inlay.Proofs.Lint.Values
import Inlay.Proofs.Number.WholeText

/-!
# Texts in plain attributes

A text that is written in a plain attribute is compared as the literal that it is, but the empty
text counts as `true`.  So a target that lists a text takes it, unless it is the empty text and the
target takes no `true` (`reportsOf_listed_text`).  A target that lists a whole number takes the
number, but its text only where the target takes every number or lists the text as well
(`reportsOf_listed_number`).

A text is primitive, and what is found of a primitive value does not depend on the order in which
the rule asks its questions: `compare_of_isPrimitive`.
-/

namespace Inlay

open Markup

namespace IncompatibleType

/-- A target takes a primitive value in a plain attribute: it is left to another rule, it takes
numbers and the value is the text of one, or it takes the value or its text. -/
def takes (target value : StaticType) : Bool :=
  isComplexTarget target || isNumericText value && target.assignable .number ||
    fits .plain target value

/-- What a text in a plain attribute counts as. -/
def textValue (text : String) : StaticType :=
  if text = "" then .booleanLiteral true else .stringLiteral text

/-- What is found of a primitive value in a plain attribute. -/
def findings (a : Attribute) (target value : StaticType) : List Finding :=
  if takes target value then [] else [mismatch a target value]

section Primitive

variable {s : Settings} {tag : String} {a : Attribute} {written : Value} {types : BindingTypes}
  {value : StaticType} {text : String}

theorem isComplex_eq_false_of_isPrimitive (h : value.isPrimitive = true) :
    value.isComplex = false := by
  rw [StaticType.isComplex, h, Bool.not_true, Bool.and_false]

/-- A primitive value is left to the rule about complex attributes for the target only, which is
not complex where it is not found. -/
theorem isLeftOut_of_isPrimitive (hplain : a.binding = .plain)
    (hfound : types.isFound = false → types.target = .any) (hprimitive : value.isPrimitive = true) :
    isLeftOut a types value = isComplexTarget types.target := by
  rw [isLeftOut, isComplex_eq_false_of_isPrimitive hprimitive, isTextToComplex, hprimitive,
    decide_eq_true hplain, Bool.true_and, Bool.false_or, Bool.and_true]
  cases hfound' : types.isFound with
  | true => rw [Bool.true_and]
  | false => rw [hfound hfound']; rfl

theorem compare_of_isPrimitive (hplain : a.binding = .plain)
    (hallowed : allowed? s tag a written = none)
    (hfound : types.isFound = false → types.target = .any) (hprimitive : value.isPrimitive = true) :
    compare s tag a written types value = findings a types.target value := by
  have hlist : (if types.directive.isNone then allowed? s tag a written else none) = none := by
    rw [hallowed, ite_self]
  rw [compare, hlist, isLeftOut_of_isPrimitive hplain hfound hprimitive, findings, takes, hplain]
  dsimp only
  rw [if_neg (show ¬ Binding.plain = .boolean from nofun)]
  cases isComplexTarget types.target <;>
    cases isNumericText value && types.target.assignable .number <;>
    cases fits .plain types.target value <;> rfl

/-- Where there is no directive, a plain attribute is looked at if its value is compared. -/
theorem check_of_compared (hplain : a.binding = .plain) (hdirective : types.directive = none)
    (hvalue : comparedValue? a written types = some value) :
    check s tag a written types = compare s tag a written types value := by
  have hnot : ¬ (a.binding = .event || !isComparable types) = true := by
    rw [hplain, isComparable, hdirective]
    exact Bool.false_ne_true
  rw [check, if_neg hnot, hvalue]

theorem comparedValue?_of_text (hplain : a.binding = .plain)
    (hvalue : types.value = .stringLiteral text) :
    comparedValue? a (.text text) types = some (textValue text) := by
  rw [comparedValue?, if_pos hplain, textValue]
  by_cases hempty : text = ""
  · rw [if_pos hempty, hempty]
    rfl
  · rw [if_neg hempty, ← hvalue]
    unfold plainValue?
    split
    · next h => cases h
    · next h => exact absurd (Value.text.inj h) hempty
    · next h => cases h
    · rfl

theorem check_text (hplain : a.binding = .plain) (hdirective : types.directive = none)
    (hvalue : types.value = .stringLiteral text)
    (hfound : types.isFound = false → types.target = .any) :
    check s tag a (.text text) types = findings a types.target (textValue text) := by
  have hprimitive : (textValue text).isPrimitive = true := by
    rw [textValue]
    split <;> rfl
  rw [check_of_compared hplain hdirective (comparedValue?_of_text hplain hvalue)]
  exact compare_of_isPrimitive hplain rfl hfound hprimitive

end Primitive

open Engine

section Reports

variable {s : Scene} {severity : Severity} {typeOf : HostExpression → StaticType}
  {memo : BindingMemo} {kb : Knowledge} {n : Node} {a : Attribute} {x : Assignment} {text : String}

/-- A finding of the rule in a document. -/
def diagnostic (s : Scene) (severity : Severity) (f : Finding) : Diagnostic :=
  (Enabled.mk incompatibleType severity).diagnose s f

theorem reportsOf_eq (hon : s.settings.severity? info = some severity)
    (h : Assigns typeOf memo kb n a x) :
    reportsOf incompatibleType s typeOf memo n a kb =
      (check s.settings n.tag a x.value ((BindingTypes.compute typeOf n.tag a x).value kb)).map
        (diagnostic s severity) :=
  Engine.reportsOf_eq (by simp [markupRules]) (fun _ _ _ => rfl) hon h

theorem reportsOf_text (hon : s.settings.severity? info = some severity)
    (h : Assigns typeOf memo kb n a x) (hplain : a.binding = .plain) (hx : x.value = .text text) :
    reportsOf incompatibleType s typeOf memo n a kb =
      (findings a (kb.target n.tag a) (textValue text)).map (diagnostic s severity) := by
  obtain ⟨hvalue, hdirective⟩ := BindingTypes.value_compute_of_text typeOf kb n.tag a hx
  rw [reportsOf_eq hon h, hx, check_text hplain hdirective hvalue fun hfound =>
    BindingTypes.target_compute.trans (BindingTypes.target_eq_any hfound),
    BindingTypes.target_compute]

end Reports

/-! ## An attribute of a known type -/

/-- Every tag has an attribute of the type. -/
def knowing (type : StaticType) : Knowledge :=
  ({} : Knowledge).absorb .builtIn
    { globals := (Shelf.ofFn fun _ => []).set .attributes [{ name := "state", type := type }] }

/-- The attribute with a value. -/
def stateAttribute (value : Value) : Attribute :=
  { id := 0, node := 0, name := "state", binding := .plain, whole := ⟨6, 14⟩, nameSpan := ⟨6, 11⟩,
    assignment := some { id := 0, owner := 0, value := value, span := ⟨12, 14⟩ } }

def stateElement (value : Value) : Node :=
  { id := 0, tag := "x-el", kind := .element, whole := ⟨0, 15⟩, nameSpan := ⟨1, 5⟩,
    startTag := ⟨0, 15⟩, attributes := [stateAttribute value] }

/-- A scene under the usual settings. -/
def usualScene : Scene :=
  { document := { fileName := "a.ts", dialect := .markup, location := ⟨5, 20⟩, parts := [] }
    tree := { roots := [], problems := [] }
    settings := {} }

theorem assigns_stateElement (typeOf : HostExpression → StaticType) (kb : Knowledge)
    (value : Value) : Assigns typeOf [] kb (stateElement value) (stateAttribute value)
      { id := 0, owner := 0, value := value, span := ⟨12, 14⟩ } where
  mem := List.mem_singleton_self _
  assignment := rfl
  memo := fun _ _ _ _ _ h => absurd h nofun

theorem on_usualScene : usualScene.settings.severity? info = some .error := by decide

section Reports

variable {s : Scene} {severity : Severity} {typeOf : HostExpression → StaticType}
  {memo : BindingMemo} {kb : Knowledge} {n : Node} {a : Attribute} {x : Assignment} {text : String}

/-! ## Texts that the target lists -/

/-- A target takes the empty text, which counts as `true`. -/
def takesEmpty (target : StaticType) : Bool :=
  isComplexTarget target || target.assignable (.booleanLiteral true) ||
    target.assignable (.stringLiteral "true")

theorem takes_true (target : StaticType) :
    takes target (.booleanLiteral true) = takesEmpty target := by
  have htext : (StaticType.booleanLiteral true).attributeText = .stringLiteral "true" := by
    rw [StaticType.attributeText, if_pos rfl]
  have hnumeric : isNumericText (.booleanLiteral true) = false := rfl
  rw [takes, takesEmpty, fits, htext, hnumeric, Bool.false_and, Bool.or_false, Bool.or_assoc]

theorem fits_stringLiteral (target : StaticType) (text : String) :
    fits .plain target (.stringLiteral text) = target.assignable (.stringLiteral text) := by
  have htext : (StaticType.stringLiteral text).attributeText = .stringLiteral text := by
    rw [StaticType.attributeText]
    all_goals exact nofun
  rw [fits, htext, Bool.or_self]

/-- A text that the target lists is not reported, unless it is the empty one and the target does
not take `true` in any way. -/
theorem reportsOf_listed_text (hon : s.settings.severity? info = some severity)
    (h : Assigns typeOf memo kb n a x) (hplain : a.binding = .plain) (hx : x.value = .text text)
    (hlisted : (kb.target n.tag a).assignable (.stringLiteral text) = true) :
    reportsOf incompatibleType s typeOf memo n a kb =
      if text = "" ∧ takesEmpty (kb.target n.tag a) = false then
        [diagnostic s severity (mismatch a (kb.target n.tag a) (.booleanLiteral true))]
      else [] := by
  rw [reportsOf_text hon h hplain hx, findings, textValue]
  by_cases hempty : text = ""
  · rw [if_pos hempty, takes_true]
    cases htakes : takesEmpty (kb.target n.tag a) with
    | true => rw [if_pos rfl, if_neg fun h => Bool.true_eq_false.mp h.2]; rfl
    | false => rw [if_neg Bool.false_ne_true, if_pos ⟨hempty, rfl⟩]; rfl
  · have htakes : takes (kb.target n.tag a) (.stringLiteral text) = true := by
      rw [takes, fits_stringLiteral, hlisted, Bool.or_true]
    rw [if_neg hempty, if_pos htakes, if_neg fun h => hempty h.1]
    rfl

/-- The empty text is taken where `true` is listed as a text beside it. -/
theorem reportsOf_listed_text_of_true :
    let t := StaticType.ofTexts ["", "true"]
    let value : Value := .text ""
    ((knowing t).target "x-el" (stateAttribute value)).assignable (.stringLiteral "") = true ∧
      reportsOf incompatibleType usualScene (fun _ => .any) [] (stateElement value)
        (stateAttribute value) (knowing t) = [] := by
  intro t value
  have hlisted : ((knowing t).target "x-el" (stateAttribute value)).assignable
      (.stringLiteral "") = true := by
    decide +kernel
  refine ⟨hlisted, ?_⟩
  have htakes : takesEmpty ((knowing t).target "x-el" (stateAttribute value)) = true := by
    decide +kernel
  rw [reportsOf_listed_text on_usualScene (assigns_stateElement _ _ value) rfl rfl hlisted]
  exact if_neg fun h => Bool.false_ne_true (h.2.symm.trans htakes)

/-- The empty text is one of those that are listed, and it is reported. -/
theorem empty_text_reported :
    let t := Descriptor.textsType ["auto", "manual", ""]
    let value : Value := .text ""
    ((knowing t).target "x-el" (stateAttribute value)).assignable (.stringLiteral "") = true ∧
      (reportsOf incompatibleType usualScene (fun _ => .any) [] (stateElement value)
        (stateAttribute value) (knowing t)).map (·.finding.message) =
          ["Type 'true' is not assignable to '\"auto\" | \"manual\" | \"\"'."] := by
  intro t value
  refine ⟨by decide +kernel, ?_⟩
  rw [reportsOf_text on_usualScene (assigns_stateElement _ _ value) rfl rfl]
  decide +kernel

/-! ## Texts of numbers that the target lists -/

theorem isNumericText_text {y : Number} {k : Nat} (hwhole : y.whole? = some k)
    (hk : k < Number.wholeLimit) : isNumericText (.stringLiteral y.text) = true := by
  obtain ⟨hne, htrim, hreads⟩ := Number.reads_text hwhole hk
  have hempty : y.text.isEmpty = false :=
    Bool.eq_false_iff.mpr fun h => hne (String.isEmpty_iff.mp h)
  rw [isNumericText, htrim, hempty, hreads]
  rfl

/-- A target takes the text of a number: all numbers, or the text itself. -/
def takesNumberText (target : StaticType) (y : Number) : Bool :=
  isComplexTarget target || target.assignable .number || target.assignable (.stringLiteral y.text)

theorem takes_text {y : Number} {k : Nat} (hwhole : y.whole? = some k) (hk : k < Number.wholeLimit)
    (target : StaticType) :
    takes target (.stringLiteral y.text) = takesNumberText target y := by
  rw [takes, isNumericText_text hwhole hk, Bool.true_and, fits_stringLiteral, takesNumberText]

/-- What is found of a number that is bound to a target that takes it: a list of allowed values
may be against numbers. -/
def numberFindings (settings : Settings) (tag : String) (a : Attribute) (y : Number) :
    List Finding :=
  match settings.security.lookup? tag a.name with
  | some allowed =>
    if allowed.contains "number" then [] else [notAllowed a allowed (.numberLiteral y)]
  | none => []

theorem check_number {y : Number} {hole : Hole} {types : BindingTypes} {settings : Settings}
    {tag : String} (hplain : a.binding = .plain) (hdirective : types.directive = none)
    (hvalue : types.value = .numberLiteral y)
    (hfits : types.target.assignable (.numberLiteral y) = true) :
    check settings tag a (.expression hole) types = numberFindings settings tag a y := by
  have hcompared : comparedValue? a (.expression hole) types = some (.numberLiteral y) := by
    rw [comparedValue?, if_pos hplain, plainValue?, hdirective, hvalue]
    rfl
  have hlist : (if types.directive.isNone then allowed? settings tag a (.expression hole)
      else none) = settings.security.lookup? tag a.name := by
    rw [hdirective]
    rfl
  rw [check_of_compared hplain hdirective hcompared, compare, hlist, numberFindings]
  cases settings.security.lookup? tag a.name with
  | some allowed =>
    have hadmitted : (StaticType.numberLiteral y).isAdmittedBy allowed =
        allowed.contains "number" := Bool.and_true _
    dsimp only
    rw [hadmitted]
  | none =>
    have hfits : fits a.binding types.target (.numberLiteral y) = true := by
      rw [hplain, fits, hfits, Bool.true_or]
    dsimp only
    rw [hfits, if_pos rfl, ite_self, ite_self]

theorem reportsOf_number (hon : s.settings.severity? info = some severity)
    (h : Assigns typeOf memo kb n a x) (hplain : a.binding = .plain) {y : Number} {hole : Hole}
    (hx : x.value = .expression hole) (hcall : hole.call = none)
    (htype : typeOf hole.expression = .numberLiteral y)
    (hlisted : (kb.target n.tag a).assignable (.numberLiteral y) = true) :
    reportsOf incompatibleType s typeOf memo n a kb =
      (numberFindings s.settings n.tag a y).map (diagnostic s severity) := by
  obtain ⟨hvalue, hdirective⟩ := BindingTypes.value_compute_of_hole typeOf kb n.tag a hx hcall
  rw [reportsOf_eq hon h, hx, check_number hplain hdirective (hvalue.trans htype)
    (BindingTypes.target_compute.symm ▸ hlisted)]

/-- A whole number that the target lists may be bound, where no list of allowed values is against
numbers.  Its text is not reported only if the target takes all numbers, or the text itself. -/
theorem reportsOf_listed_number (hon : s.settings.severity? info = some severity)
    (h : Assigns typeOf memo kb n a x) (hplain : a.binding = .plain) {y : Number} {k : Nat}
    (hwhole : y.whole? = some k) (hk : k < Number.wholeLimit)
    (hlisted : (kb.target n.tag a).assignable (.numberLiteral y) = true) :
    (x.value = .text y.text → reportsOf incompatibleType s typeOf memo n a kb =
      if takesNumberText (kb.target n.tag a) y then []
      else [diagnostic s severity (mismatch a (kb.target n.tag a) (.stringLiteral y.text))]) ∧
    ∀ hole, x.value = .expression hole → hole.call = none →
      typeOf hole.expression = .numberLiteral y →
        (reportsOf incompatibleType s typeOf memo n a kb = [] ↔
          ∀ allowed, s.settings.security.lookup? n.tag a.name = some allowed →
            "number" ∈ allowed) := by
  constructor
  · intro hx
    have hne : y.text ≠ "" := (Number.reads_text hwhole hk).1
    rw [reportsOf_text hon h hplain hx, findings, textValue, if_neg hne, takes_text hwhole hk]
    split <;> rfl
  · intro hole hx hcall htype
    rw [reportsOf_number hon h hplain hx hcall htype hlisted, numberFindings]
    cases s.settings.security.lookup? n.tag a.name with
    | none => exact iff_of_true rfl nofun
    | some allowed =>
      simp only [Option.some.injEq, forall_eq']
      by_cases hmem : "number" ∈ allowed
      · rw [if_pos (List.contains_iff_mem.mpr hmem)]
        exact iff_of_true rfl hmem
      · rw [if_neg fun hcontains => hmem (List.contains_iff_mem.mp hcontains)]
        exact iff_of_false (List.cons_ne_nil _ _) hmem

end Reports

/-- A hole with the literal `2`. -/
def holeOfTwo : Hole :=
  { id := 0, expression := { span := ⟨14, 15⟩, text := "2" }, span := ⟨12, 16⟩ }

/-- The text is listed beside the number, so it is taken like the number. -/
theorem reportsOf_listed_number_of_text :
    let two := Number.ofRatio false 2 1
    let t := StaticType.unionOf [.numberLiteral two, .stringLiteral "2"]
    let kb := knowing t
    let text : Value := .text "2"
    let hole : Value := .expression holeOfTwo
    let typeOf : HostExpression → StaticType := fun _ => .numberLiteral two
    (two.whole? = some 2 ∧ 2 < Number.wholeLimit ∧ two.text = "2" ∧
      (kb.target "x-el" (stateAttribute text)).assignable (.numberLiteral two) = true) ∧
    reportsOf incompatibleType usualScene typeOf [] (stateElement text) (stateAttribute text) kb =
      [] ∧
    reportsOf incompatibleType usualScene typeOf [] (stateElement hole) (stateAttribute hole) kb =
      [] := by
  intro two t kb text hole typeOf
  have hwhole : two.whole? = some 2 := by decide +kernel
  have hlimit : 2 < Number.wholeLimit := by decide
  have htwo : two.text = "2" := by decide +kernel
  have hlisted : (kb.target "x-el" (stateAttribute text)).assignable
      (.numberLiteral two) = true := by
    decide +kernel
  have hlisted' : (kb.target "x-el" (stateAttribute hole)).assignable
      (.numberLiteral two) = true := by
    decide +kernel
  have htakes : takesNumberText (kb.target "x-el" (stateAttribute text)) two = true := by
    decide +kernel
  have hsecurity : ∀ allowed, usualScene.settings.security.lookup? "x-el" "state" =
      some allowed → "number" ∈ allowed := by
    intro allowed h
    exact absurd (h.symm.trans (by decide : _ = none)) (Option.some_ne_none allowed)
  refine ⟨⟨hwhole, hlimit, htwo, hlisted⟩, ?_, ?_⟩
  · have htext := (reportsOf_listed_number on_usualScene (assigns_stateElement typeOf kb text) rfl
      hwhole hlimit hlisted).1 (congrArg Value.text htwo.symm)
    exact htext.trans (if_pos htakes)
  · exact ((reportsOf_listed_number on_usualScene (assigns_stateElement typeOf kb hole) rfl
      hwhole hlimit hlisted').2 holeOfTwo rfl rfl rfl).mpr hsecurity

/-- The number is one of those that are listed, and is taken when it is bound, but its text is
reported. -/
theorem number_text_reported :
    let one := Number.ofRatio false 1 1
    let two := Number.ofRatio false 2 1
    let t := StaticType.unionOf [.numberLiteral one, .numberLiteral two]
    let kb := knowing t
    let text : Value := .text two.text
    let hole : Value := .expression holeOfTwo
    let typeOf : HostExpression → StaticType := fun _ => .numberLiteral two
    two.whole? = some 2 ∧
    (kb.target "x-el" (stateAttribute text)).assignable (.numberLiteral two) = true ∧
    reportsOf incompatibleType usualScene typeOf [] (stateElement hole) (stateAttribute hole) kb =
      [] ∧
    (reportsOf incompatibleType usualScene typeOf [] (stateElement text) (stateAttribute text)
      kb).map (·.finding.message) = ["Type '\"2\"' is not assignable to '1 | 2'."] := by
  intro one two t kb text hole typeOf
  have hlisted : (kb.target "x-el" (stateAttribute text)).assignable
      (.numberLiteral two) = true := by
    decide +kernel
  have hlisted' : (kb.target "x-el" (stateAttribute hole)).assignable
      (.numberLiteral two) = true := by
    decide +kernel
  refine ⟨by decide +kernel, hlisted, ?_, ?_⟩
  · rw [reportsOf_number on_usualScene (assigns_stateElement typeOf kb hole) rfl rfl rfl rfl
      hlisted']
    rfl
  · rw [reportsOf_text on_usualScene (assigns_stateElement typeOf kb text) rfl rfl]
    decide +kernel

end IncompatibleType

end Inlay
