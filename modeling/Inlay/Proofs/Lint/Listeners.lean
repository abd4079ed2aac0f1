import Inlay.Proofs.Lint.StaticText
import Inlay.Proofs.Types.Depth
import Inlay.Proofs.Types.NormalForm

/-!
# Listeners of several types

A listener can be called, or has the method by which objects listen.  The rule asks the one and the
other of a union as a whole: all members can be called, or all have the method.  So a union is
reported where a member of it is, and also where some members can only be called and others only
have the method, though each of these is fine alone.  These are all the cases:
`reports_listeners_iff`.

The type of a method is judged as callable or not in the same way, one type down.
-/

namespace Inlay

open Markup

namespace StaticType

section Members

variable {m : StaticType} {ms : List StaticType}

/-- Members that are no unions are asked one by one. -/
theorem all_members (hsingle : ∀ m ∈ ms, IsSingle m) (p : StaticType → Bool) :
    (ms.all fun m => m.members.all p) = ms.all p := by
  refine all_eq_of_mem fun m hm => ?_
  rw [hsingle m hm, List.all_cons, List.all_nil, Bool.and_true]

theorem isCallable_union (hsingle : ∀ m ∈ ms, IsSingle m) :
    (union ms).isCallable = ms.all isCallable := by
  have hvague : ∀ m : StaticType, m.isCallable =
      m.members.all fun m => m.isVague || m.callSignature?.isSome := by
    intro m
    rw [isCallable]
    cases m <;> rfl
  rw [hvague, funext hvague, all_members hsingle]
  rfl

theorem hasListenerMethod_union (hsingle : ∀ m ∈ ms, IsSingle m) :
    (union ms).hasListenerMethod = ms.all hasListenerMethod :=
  (all_members hsingle _).symm

end Members

end StaticType

namespace NoncallableEvent

/-- Some types can be called and do not listen otherwise, and others listen and cannot be called. -/
def IsMixed (ms : List StaticType) : Prop :=
  (∃ m ∈ ms, m.isCallable = true ∧ m.hasListenerMethod = false) ∧
    ∃ m ∈ ms, m.isCallable = false ∧ m.hasListenerMethod = true

section Reports

variable {s : Scene} {n : Node} {a : Attribute} {x : Assignment} {types : BindingTypes}
  {ms : List StaticType}

theorem reports_iff (hevent : a.binding = .event) (hdirective : types.directive = none) :
    noncallableEvent.onAssignment s n a x types ≠ [] ↔
      types.value.isCallable = false ∧ types.value.hasListenerMethod = false := by
  show check a types ≠ [] ↔ _
  rw [check, hdirective]
  cases types.value.isCallable <;> cases types.value.hasListenerMethod <;> simp [hevent]

/-- A listener of several types is reported if one of them is, or if they are mixed. -/
theorem reports_listeners_iff (hevent : a.binding = .event) (hdirective : types.directive = none)
    (hvalue : types.value = .union ms) (hnormal : StaticType.NormalUnion ms) :
    noncallableEvent.onAssignment s n a x types ≠ [] ↔
      (∃ m ∈ ms, noncallableEvent.onAssignment s n a x (types.withValue m) ≠ []) ∨ IsMixed ms := by
  have hmember : ∀ m, noncallableEvent.onAssignment s n a x (types.withValue m) ≠ [] ↔
      m.isCallable = false ∧ m.hasListenerMethod = false := fun m =>
    reports_iff hevent hdirective
  rw [reports_iff hevent hdirective, hvalue, StaticType.isCallable_union hnormal.single,
    StaticType.hasListenerMethod_union hnormal.single, List.all_eq_false, List.all_eq_false]
  simp only [hmember, Bool.not_eq_true]
  constructor
  · rintro ⟨⟨o, ho, hocall⟩, ⟨f, hf, hfmethod⟩⟩
    -- A member of each kind: one of them is reported, or both show that the types are mixed.
    cases homethod : o.hasListenerMethod with
    | false => exact .inl ⟨o, ho, hocall, homethod⟩
    | true =>
      cases hfcall : f.isCallable with
      | false => exact .inl ⟨f, hf, hfcall, hfmethod⟩
      | true => exact .inr ⟨⟨f, hf, hfcall, hfmethod⟩, ⟨o, ho, hocall, homethod⟩⟩
  · rintro (⟨m, hm, hcall, hmethod⟩ | ⟨⟨f, hf, -, hfmethod⟩, ⟨o, ho, hocall, -⟩⟩)
    · exact ⟨⟨m, hm, hcall⟩, ⟨m, hm, hmethod⟩⟩
    · exact ⟨⟨o, ho, hocall⟩, ⟨f, hf, hfmethod⟩⟩

end Reports

/-! ## Functions and listening objects -/

open Engine

/-- A function without parameters. -/
def handler : StaticType := .function ⟨[], .void⟩

/-- An object that listens and cannot be called. -/
def listenerObject : StaticType :=
  .object (some "EventListenerObject") [⟨StaticType.listenerMethod, handler, false⟩] none

/-- A listener for clicks. -/
def clickAttribute : Attribute :=
  { IncompatibleType.stateAttribute (.expression IncompatibleType.holeOfTwo) with
    name := "click", binding := .event }

/-- What is bound where the value has the type given. -/
def bound (value : StaticType) : BindingTypes :=
  { target := .any, isFound := false, value := value, raw := value, directive := none }

/-- A function or a text: the text is reported, and so is the union. -/
theorem reports_listeners_iff_of_text :
    let s := IncompatibleType.usualScene
    let n := IncompatibleType.stateElement (.expression IncompatibleType.holeOfTwo)
    let x : Assignment := { id := 0, owner := 0, value := .presence, span := ⟨12, 14⟩ }
    let ms := [handler, listenerObject, .string]
    StaticType.NormalUnion ms ∧
      noncallableEvent.onAssignment s n clickAttribute x ((bound .any).withValue .string) ≠ [] ∧
      noncallableEvent.onAssignment s n clickAttribute x (bound (.union ms)) ≠ [] := by
  intro s n x ms
  have hnormal : StaticType.NormalUnion ms :=
    StaticType.isNormalForm_union (by with_unfolding_all rfl)
      (by simp [ms, StaticType.IsSingle, StaticType.members, handler, listenerObject]) ms rfl
  have htext : noncallableEvent.onAssignment s n clickAttribute x
      ((bound (.union ms)).withValue .string) ≠ [] := by
    decide +kernel
  exact ⟨hnormal, htext, (reports_listeners_iff rfl rfl rfl hnormal).mpr
    (.inl ⟨.string, by simp [ms], htext⟩)⟩

/-- A function or a listening object: each is fine alone, and the union of both is reported. -/
theorem mixed_listener_reported :
    let s := IncompatibleType.usualScene
    let n := IncompatibleType.stateElement (.expression IncompatibleType.holeOfTwo)
    let reports (value : StaticType) : List String :=
      (reportsOf noncallableEvent s (fun _ => value) [] n clickAttribute {}).map (·.finding.message)
    (StaticType.union [handler, listenerObject]).IsNormalForm ∧
      reports handler = [] ∧ reports listenerObject = [] ∧
      reports (.union [handler, listenerObject]) =
        ["You are setting up an event listener with a non-callable type " ++
          "'(() => void) | EventListenerObject'."] := by
  intro s n reports
  have hnormal : (StaticType.union [handler, listenerObject]).IsNormalForm :=
    StaticType.isNormalForm_union (by with_unfolding_all rfl)
      (by simp [StaticType.IsSingle, StaticType.members, handler, listenerObject])
  exact ⟨hnormal, by decide +kernel, by decide +kernel, by decide +kernel⟩

end NoncallableEvent

end Inlay
