import Inlay.Proofs.Lint.StaticText
import Inlay.Proofs.Types.Primitive

/-!
# Values of plain attributes

Two rules judge the type that is bound to a plain attribute.  One asks whether the value or its
target is complex, of the type as it is; the other leaves complex values and targets to it, but
asks this of the type that it compares, from which nullish members have been taken, or which is
`true` in place of the empty text.  These are complex alike (`isLeftOut_comparedValue?`), so the
two rules never both report an attribute: `complex_or_incompatible`.  The type has to be in normal
form, since `never` beside a number makes a union complex as long as nothing is taken from it.

What is primitive stays so when nullish members are taken from it, and its text is one that every
target takes that takes texts at all.  So such a target takes every primitive value, however it is
written: `reportsOf_takesText`.
-/

namespace Inlay

open Markup

namespace StaticType

/-- The type without its nullish members, unless it has no others. -/
def stripped (value : StaticType) : StaticType :=
  if value.withoutNullish.isNever then value else value.withoutNullish

section Stripped

variable {v : StaticType} {ms : List StaticType}

theorem stripped_of_isSingle (h : IsSingle v) : v.stripped = v := by
  cases v <;> first | rfl | exact absurd h (not_isSingle_union _)

theorem isNormalForm_stripped (h : IsNormalForm v) : IsNormalForm v.stripped := by
  rcases isSingle_or_eq_union v with hsingle | ⟨ms, rfl⟩
  · rw [stripped_of_isSingle hsingle]
    exact h
  · rw [stripped]
    split
    · exact h
    · exact isNormalForm_unionOf fun m hm =>
        ((h ms rfl).single m (List.mem_filter.mp hm).1).isNormalForm

theorem isVague_ofMembers (hne : ms ≠ []) (h : ∀ m ∈ ms, m.isVague = false) :
    (ofMembers ms).isVague = false := by
  match ms with
  | [] => exact absurd rfl hne
  | [m] => exact h m (List.mem_singleton_self m)
  | m :: n :: rest => rfl

/-- What is left of a normal union has some of its members, and all that are not nullish. -/
theorem exists_stripped_union (h : NormalUnion ms) :
    ∃ rest, rest ≠ [] ∧ (∀ m ∈ rest, m ∈ ms) ∧ (∀ m ∈ ms, m ∈ rest ∨ m.isNullish = true) ∧
      (union ms).stripped = ofMembers rest := by
  have hwithout : (union ms).withoutNullish = ofMembers (ms.filter fun m => !m.isNullish) :=
    h.unionOf_filter _
  rw [stripped, hwithout]
  by_cases hnone : ms.filter (fun m => !m.isNullish) = []
  · rw [hnone, ofMembers, if_pos (show never.isNever = true from rfl)]
    have hne : ms ≠ [] := List.ne_nil_of_length_pos (Nat.lt_of_lt_of_le Nat.two_pos h.two_le)
    exact ⟨ms, hne, fun _ => id, fun _ => .inl, h.ofMembers_eq.symm⟩
  · have hvague := isVague_ofMembers hnone fun m hm => h.not_vague m (List.mem_filter.mp hm).1
    have hnever : (ofMembers (ms.filter fun m => !m.isNullish)).isNever = false := by
      refine Bool.eq_false_iff.mpr fun hnever => ?_
      rw [isNever_iff.mp hnever] at hvague
      exact Bool.false_ne_true hvague.symm
    rw [hnever, if_neg Bool.false_ne_true]
    refine ⟨_, hnone, fun m hm => (List.mem_filter.mp hm).1, fun m hm => ?_, rfl⟩
    rw [List.mem_filter, Bool.not_eq_true']
    cases m.isNullish with
    | true => exact .inr rfl
    | false => exact .inl ⟨hm, rfl⟩

/-- What is left of a normal union has some of its members, and is nested no deeper. -/
theorem stripped_union (h : NormalUnion ms) : (∀ m ∈ (union ms).stripped.members, m ∈ ms) ∧
    (union ms).stripped.depth ≤ (union ms).depth := by
  obtain ⟨rest, hne, hrest, -, heq⟩ := exists_stripped_union h
  rw [heq]
  constructor
  · rw [members_ofMembers fun m hm => h.single m (hrest m hm), if_neg hne]
    exact hrest
  · have hlt : ∀ m ∈ rest, m.depth < (union ms).depth := fun m hm =>
      depth_lt_of_mem_parts (t := .union ms) (hrest m hm)
    have hpos : 0 < (union ms).depth := by
      obtain ⟨m, hm⟩ := List.exists_mem_of_ne_nil rest hne
      exact Nat.zero_lt_of_lt (hlt m hm)
    have hle : (ofMembers rest).depth ≤ (union ms).depth - 1 + 1 :=
      depth_ofMembers_le fun m hm => Nat.le_sub_one_of_lt (hlt m hm)
    rwa [Nat.sub_add_cancel hpos] at hle

theorem isPrimitive_of_isNullish (h : v.isNullish = true) : v.isPrimitive = true := by
  cases v <;> first | rfl | cases h

theorem isPrimitive_stripped_union (h : NormalUnion ms) :
    (union ms).stripped.isPrimitive = (union ms).isPrimitive := by
  obtain ⟨rest, hne, hrest, hleft, heq⟩ := exists_stripped_union h
  rw [heq, Bool.eq_iff_iff, isPrimitive_ofMembers hne, isPrimitive_union]
  constructor
  · exact fun hall m hm => (hleft m hm).elim (hall m) isPrimitive_of_isNullish
  · exact fun hall m hm => hall m (hrest m hm)

/-- A type in normal form that is stripped says as much, and is primitive if it was. -/
theorem stripped_alike (h : IsNormalForm v) :
    v.stripped.isVague = v.isVague ∧ v.stripped.isPrimitive = v.isPrimitive := by
  rcases isSingle_or_eq_union v with hsingle | ⟨ms, rfl⟩
  · rw [stripped_of_isSingle hsingle]
    exact ⟨rfl, rfl⟩
  · obtain ⟨rest, hne, hrest, -, heq⟩ := exists_stripped_union (h ms rfl)
    refine ⟨?_, isPrimitive_stripped_union (h ms rfl)⟩
    rw [heq]
    exact isVague_ofMembers hne fun m hm => (h ms rfl).not_vague m (hrest m hm)

/-- What is primitive stays so, also where unions stand in unions. -/
theorem isPrimitive_stripped (h : v.isPrimitive = true) : v.stripped.isPrimitive = true := by
  rw [stripped]
  split
  · exact h
  · next hnever =>
    exact (isPrimitive_withoutNullish h).resolve_left fun heq => hnever (isNever_iff.mpr heq)

end Stripped

end StaticType

namespace IncompatibleType

/-! ## What is compared -/

section Compared

variable {s : Settings} {tag : String} {a : Attribute} {written : Value} {types : BindingTypes}
  {v w : StaticType}

theorem comparedValue?_of_hole {hole : Hole} (hplain : a.binding = .plain)
    (hdirective : types.directive = none) :
    comparedValue? a (.expression hole) types = some types.value.stripped := by
  rw [comparedValue?, if_pos hplain, plainValue?, hdirective]
  rfl

/-- In a plain attribute `true` is compared for the empty text, what is stripped for an expression
that is no directive, and otherwise the type as it is. -/
theorem comparedValue?_eq_some (hplain : a.binding = .plain)
    (h : comparedValue? a written types = some w) :
    (written = .text "" ∧ w = .booleanLiteral true) ∨ w = types.value.stripped ∨
      w = types.value := by
  rw [comparedValue?, if_pos hplain, plainValue?.eq_def] at h
  split at h
  · cases h
  · exact .inl ⟨rfl, (Option.some.inj h).symm⟩
  · split at h
    · exact .inr (.inl (Option.some.inj h).symm)
    · exact .inr (.inr (Option.some.inj h).symm)
  · exact .inr (.inr (Option.some.inj h).symm)

theorem isLeftOut_congr (hvague : v.isVague = w.isVague)
    (hprimitive : v.isPrimitive = w.isPrimitive) :
    isLeftOut a types v = isLeftOut a types w := by
  rw [isLeftOut, isLeftOut, StaticType.isComplex, StaticType.isComplex, isTextToComplex,
    isTextToComplex, hvague, hprimitive]

/-- The compared type is left to the rule about complex attributes if the type as it is does. -/
theorem isLeftOut_comparedValue? (hplain : a.binding = .plain) (hnormal : types.value.IsNormalForm)
    (htext : ∀ text, written = .text text → types.value = .stringLiteral text)
    (h : comparedValue? a written types = some w) :
    isLeftOut a types w = isLeftOut a types types.value := by
  rcases comparedValue?_eq_some hplain h with ⟨hwritten, rfl⟩ | rfl | rfl
  · have hvalue := htext "" hwritten
    exact isLeftOut_congr (by rw [hvalue]; rfl) (by rw [hvalue]; rfl)
  · obtain ⟨hvague, hprimitive⟩ := StaticType.stripped_alike hnormal
    exact isLeftOut_congr hvague hprimitive
  · rfl

theorem isPrimitive_comparedValue? (hplain : a.binding = .plain)
    (hprimitive : types.value.isPrimitive = true) (h : comparedValue? a written types = some w) :
    w.isPrimitive = true := by
  rcases comparedValue?_eq_some hplain h with ⟨-, rfl⟩ | rfl | rfl
  · rfl
  · exact StaticType.isPrimitive_stripped hprimitive
  · exact hprimitive

/-- Where something is reported of a type, it is the compared one, and it is not left out. -/
theorem check_eq_nil_of_isLeftOut (hallowed : allowed? s tag a written = none)
    (h : ∀ w, comparedValue? a written types = some w → isLeftOut a types w = true) :
    check s tag a written types = [] := by
  rw [check]
  split
  · rfl
  · cases hcompared : comparedValue? a written types with
    | none => rfl
    | some w =>
      dsimp only
      rw [compare, hallowed, ite_self]
      exact if_pos (h w hcompared)

end Compared

/-! ## Complex types -/

section Complex

variable {s : Settings} {tag : String} {a : Attribute} {written : Value} {types : BindingTypes}

/-- The rule about complex attributes reports no more than what is left to it. -/
theorem of_complexAttribute (h : ComplexAttribute.check s tag a written types ≠ []) :
    a.binding = .plain ∧ allowed? s tag a written = none ∧
      isLeftOut a types types.value = true := by
  rw [ComplexAttribute.check] at h
  split at h
  · exact absurd rfl h
  · next hlooks =>
    obtain ⟨⟨hplain, -⟩, hallowed⟩ : (a.binding = .plain ∧ types.directive = none) ∧
        allowed? s tag a written = none := by simpa using hlooks
    refine ⟨hplain, hallowed, ?_⟩
    rw [isLeftOut, decide_eq_true hplain, Bool.true_and, Bool.or_eq_true]
    by_contra hnot
    rw [not_or] at hnot
    rw [ComplexAttribute.message?, if_neg hnot.1, if_neg hnot.2] at h
    exact h rfl

theorem check_eq_nil_of_complexAttribute (hnormal : types.value.IsNormalForm)
    (htext : ∀ text, written = .text text → types.value = .stringLiteral text)
    (h : ComplexAttribute.check s tag a written types ≠ []) :
    check s tag a written types = [] := by
  obtain ⟨hplain, hallowed, hleft⟩ := of_complexAttribute h
  exact check_eq_nil_of_isLeftOut hallowed fun w hw =>
    (isLeftOut_comparedValue? hplain hnormal htext hw).trans hleft

end Complex

open Engine

section Reports

variable {s : Scene} {severity severity' : Severity} {typeOf : HostExpression → StaticType}
  {memo : BindingMemo} {kb : Knowledge} {n : Node} {a : Attribute} {x : Assignment}

/-- An attribute is not reported both for a complex type and for one that does not fit. -/
theorem complex_or_incompatible
    (hcomplex : s.settings.severity? ComplexAttribute.info = some severity)
    (hincompatible : s.settings.severity? info = some severity') (h : Assigns typeOf memo kb n a x)
    (hnormal : ((BindingTypes.compute typeOf n.tag a x).value kb).value.IsNormalForm) :
    reportsOf complexAttribute s typeOf memo n a kb = [] ∨
      reportsOf incompatibleType s typeOf memo n a kb = [] := by
  rw [Engine.reportsOf_eq (by simp [markupRules]) (fun _ _ _ => rfl) hcomplex h,
    reportsOf_eq hincompatible h, List.map_eq_nil_iff, List.map_eq_nil_iff, or_iff_not_imp_left]
  exact check_eq_nil_of_complexAttribute hnormal fun text htext =>
    (BindingTypes.value_compute_of_text typeOf kb n.tag a htext).1

/-- Of numbers or `null` only the one rule looks at `null`, and only it reports the attribute. -/
theorem complex_or_incompatible_of_nullable :
    let t := StaticType.union [.array .number, .null]
    let value : Value := .expression holeOfTwo
    let kb := knowing .string
    t.IsNormalForm ∧
    (reportsOf complexAttribute usualScene (fun _ => t) [] (stateElement value)
      (stateAttribute value) kb).map (·.finding.message) =
        ["You are binding a non-primitive type 'number[] | null'. This could result in binding " ++
          "the string \"[object Object]\"."] ∧
    reportsOf incompatibleType usualScene (fun _ => t) [] (stateElement value)
      (stateAttribute value) kb = [] := by
  intro t value kb
  have hnormal : t.IsNormalForm :=
    StaticType.isNormalForm_union (by with_unfolding_all rfl)
      (by simp [StaticType.IsSingle, StaticType.members])
  have hmessage : (reportsOf complexAttribute usualScene (fun _ => t) [] (stateElement value)
      (stateAttribute value) kb).map (·.finding.message) =
        ["You are binding a non-primitive type 'number[] | null'. This could result in binding " ++
          "the string \"[object Object]\"."] := by
    decide +kernel
  refine ⟨hnormal, hmessage, ?_⟩
  have hcomplex : usualScene.settings.severity? ComplexAttribute.info = some .error := by decide
  refine (complex_or_incompatible hcomplex on_usualScene (assigns_stateElement (fun _ => t) kb value)
    hnormal).resolve_left fun hnil => ?_
  rw [hnil] at hmessage
  exact absurd hmessage (List.cons_ne_nil _ _).symm

/-! ## Primitive types -/

theorem takes_of_takesText {target value : StaticType} (ht : target.assignable .string = true)
    (hvalue : value.isPrimitive = true) : takes target value = true := by
  rw [takes, fits, StaticType.assignable_attributeText ht hvalue, Bool.or_true, Bool.or_true]

/-- A plain attribute whose target takes texts takes every primitive value: nothing is reported of
one, where no list of allowed values stands against it. -/
theorem reportsOf_takesText (hon : s.settings.severity? info = some severity)
    (h : Assigns typeOf memo kb n a x) (hplain : a.binding = .plain)
    (htarget : (kb.target n.tag a).assignable .string = true)
    (hprimitive : ((BindingTypes.compute typeOf n.tag a x).value kb).value.isPrimitive = true)
    (hallowed : allowed? s.settings n.tag a x.value = none) :
    reportsOf incompatibleType s typeOf memo n a kb = [] := by
  rw [reportsOf_eq hon h, List.map_eq_nil_iff, check]
  split
  · rfl
  · cases hcompared : comparedValue? a x.value ((BindingTypes.compute typeOf n.tag a x).value kb) with
    | none => rfl
    | some w =>
      have hw : w.isPrimitive = true := isPrimitive_comparedValue? hplain hprimitive hcompared
      dsimp only
      rw [compare_of_isPrimitive hplain hallowed
        (fun hfound => BindingTypes.target_compute.trans (BindingTypes.target_eq_any hfound)) hw,
        findings, BindingTypes.target_compute, if_pos (takes_of_takesText htarget hw)]

/-- Unions in unions, with nullish types and a number that is none among them. -/
theorem reportsOf_takesText_of_nested :
    let t := StaticType.union [.union [.boolean, .numberLiteral .nan], .union [.void, .union []],
      .null, .bigint]
    let value : Value := .expression holeOfTwo
    let kb := knowing (.union [.number, .string])
    ((kb.target "x-el" (stateAttribute value)).assignable .string = true ∧
      t.isPrimitive = true) ∧
    reportsOf incompatibleType usualScene (fun _ => t) [] (stateElement value)
      (stateAttribute value) kb = [] := by
  intro t value kb
  have htarget : (kb.target "x-el" (stateAttribute value)).assignable .string = true := by
    decide +kernel
  have hprimitive : t.isPrimitive = true := rfl
  exact ⟨⟨htarget, hprimitive⟩, reportsOf_takesText on_usualScene
    (assigns_stateElement (fun _ => t) kb value) rfl htarget hprimitive (by decide)⟩

end Reports

end IncompatibleType

end Inlay
