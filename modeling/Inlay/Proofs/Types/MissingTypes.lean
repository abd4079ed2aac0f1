import Inlay.Proofs.Types.Related

/-!
# Missing types

A type that is not known is `any` or `unknown`.  Types fade when some of them, at any depth, are
no longer known.  What was assignable stays so when both types fade: missing information makes
no finding.

A faded type is open or has the form that it had (`Fades.alike`), so only types that keep their
forms are left to compare, and for these a step keeps what the steps below it keep
(`Keeps.direct`).  The induction on the depth is one step long.
-/

namespace Inlay
namespace StaticType

/-- `u` is `t` with any number of the types in it, at any depth, replaced by `any` or `unknown`. -/
inductive Fades : StaticType → StaticType → Prop
  | toOpen {t u : StaticType} : u.isOpen = true → Fades t u
  | kept (t : StaticType) : Fades t t
  | inParts {t u : StaticType} : Alike Fades t u → Fades t u

/-- What has faded says nothing any more, or has the form that it had. -/
theorem Fades.alike {t u : StaticType} (h : Fades t u) (hu : u.isOpen = false) :
    Alike Fades t u := by
  cases h with
  | toOpen hopen => exact Bool.noConfusion (hopen.symm.trans hu)
  | kept => exact Alike.refl .kept t
  | inParts halike => exact halike

/-- Types that fit still fit when both have faded, and what says nothing takes anything. -/
structure Tolerant (fits : StaticType → StaticType → Bool) : Prop where
  fades : ∀ {t u v w : StaticType}, Fades t u → Fades v w → fits t v = true → fits u w = true
  opens : ∀ {t : StaticType}, t.isOpen = true → ∀ v, fits t v = true

/-- What tolerates fading keeps it: a target without result stays that, or takes any result. -/
theorem Tolerant.keeps {fits : StaticType → StaticType → Bool} (h : Tolerant fits) :
    Keeps Fades fits where
  related := h.fades
  result := by
    intro t u htu hvoid
    cases hopen : u.isOpen with
    | true => exact .inr (h.opens hopen)
    | false =>
      left
      cases htu.alike hopen with
      | leaf => exact hvoid
      | _ => cases hvoid

/-! ## One step and all steps -/

section Steps

variable {n : Nat} {t u v w : StaticType}

theorem isVague_of_isOpen (h : t.isOpen = true) : t.isVague = true := by
  cases t <;> first | rfl | cases h

theorem Tolerant.succ (h : Tolerant (assignableWithin n)) :
    Tolerant (assignableWithin (n + 1)) where
  opens hopen v := assignableWithin_of_open hopen (n + 1) v
  fades := by
    intro t u v w ht hv hfits
    cases hu : u.isOpen with
    | true => exact assignableWithin_of_open hu _ _
    | false =>
      cases hw : w.isOpen with
      | true => exact assignableWithin_of_vague (isVague_of_isOpen hw) _ _
      | false =>
        -- The form of the value decides which arm compares; a direct one asks the target too.
        have halike := hv.alike hw
        cases v with
        | any | unknown | never =>
          cases halike with
          | leaf => exact assignableWithin_of_vague rfl _ _
        | union vs =>
          cases halike with
          | leaf hleaf => cases hleaf
          | union hvs =>
            rw [assignableWithin_union] at hfits ⊢
            exact h.keeps.all ht hvs hfits
        | boolean =>
          cases halike with
          | leaf =>
            rw [assignableWithin_boolean, Bool.and_eq_true] at hfits ⊢
            exact hfits.imp (h.fades ht (.kept _)) (h.fades ht (.kept _))
        | _ => exact h.keeps.direct (ht.alike hu) hv halike rfl hfits

theorem tolerant_assignableWithin (n : Nat) : Tolerant (assignableWithin n) := by
  induction n with
  | zero => exact ⟨fun _ _ _ => rfl, fun _ _ => rfl⟩
  | succ n ih => exact ih.succ

/-- Missing types never turn what was assignable into something that is not. -/
theorem assignable_of_fades (ht : Fades t u) (hv : Fades v w) (h : assignable t v = true) :
    assignable u w = true :=
  (tolerant_assignableWithin depthLimit).fades ht hv h

/-- The types of the items and of one of two states are no longer known in what is asked for, and
the type of the parameter is not in what is given. -/
theorem assignable_of_fades_in_callback :
    let items (t : StaticType) : Field StaticType := ⟨"items", t, false⟩
    let panel (t : StaticType) : StaticType := object (some "Panel") [⟨"state", t, false⟩] none
    let sheet : StaticType := object (some "Sheet") [⟨"state", number, false⟩] none
    let t := function ⟨[items (array string)], panel (union [string, number])⟩
    let u := function ⟨[items (array unknown)], panel (union [StaticType.any, number])⟩
    let v := function ⟨[items (array (stringLiteral "a"))], sheet⟩
    let w := function ⟨[items unknown], sheet⟩
    Fades t u ∧ Fades v w ∧ assignable t v = true ∧ assignable u w = true := by
  intro items panel sheet t u v w
  have hstate : Fades (union [string, number]) (union [StaticType.any, number]) :=
    .inParts (.union (.cons (.toOpen rfl) (.cons (.kept _) .nil)))
  have ht : Fades t u :=
    .inParts (.function ⟨.cons ⟨.inParts (.array (.toOpen rfl))⟩ .nil,
      .inParts (.object (.cons ⟨hstate⟩ .nil) .none)⟩)
  have hv : Fades v w := .inParts (.function ⟨.cons ⟨.toOpen rfl⟩ .nil, .kept sheet⟩)
  have hfits : assignable t v = true := rfl
  exact ⟨ht, hv, hfits, assignable_of_fades ht hv hfits⟩

/-- The converse fails: a type that has been forgotten may have been the wrong one. -/
example : assignable (array unknown) (array number) = true ∧
    assignable (array string) (array number) = false := ⟨rfl, rfl⟩

end Steps

end StaticType
end Inlay
