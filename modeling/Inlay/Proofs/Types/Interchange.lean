import Inlay.Proofs.Types.Depth
import Inlay.Proofs.Types.Related
import Inlay.Proofs.Types.Sameness

/-!
# Types that are the same in comparisons

Sameness is finer than assignability: where two types fit, any that are the same as them fit as
well (`accepts_of_same`).  So of types that are the same it does not matter which one is kept.

A literal that is not a number differs from itself, and yet it may be left as it is while other
types are replaced.  This is why comparisons keep `Interchange`, and not sameness alone.  Types that
are interchanged have one form and parts that are, but for number literals, of which `0` and `-0`
are two.
-/

namespace Inlay
namespace StaticType

/-- The types are one, or the same. -/
def Interchange (t u : StaticType) : Prop := t = u ∨ t.same u = true

/-! ## Sameness by forms -/

section Forms

variable {t u : StaticType} {ts us : List StaticType}

theorem Interchange.refl (t : StaticType) : Interchange t t := .inl rfl

theorem forall₂_of_sameTypes (h : sameTypes ts us = true) : List.Forall₂ Interchange ts us := by
  induction ts generalizing us with
  | nil =>
    cases us with
    | nil => exact .nil
    | cons u us => simp [sameTypes] at h
  | cons t ts ih =>
    obtain ⟨u, us, rfl, htu, hrest⟩ := of_sameTypes_cons h
    exact .cons (.inr htu) (ih hrest)

theorem forall₂_of_sameFields {fs gs : List (Field StaticType)} (h : sameFields fs gs = true) :
    List.Forall₂ (Field.Rel Interchange) fs gs := by
  induction fs generalizing gs with
  | nil =>
    cases gs with
    | nil => exact .nil
    | cons g gs => simp [sameFields] at h
  | cons f fs ih =>
    obtain ⟨n, a, o⟩ := f
    obtain ⟨b, gs, rfl, hab, hrest⟩ := of_sameFields_cons h
    exact .cons ⟨.inr hab⟩ (ih hrest)

theorem rel_of_sameSignature {f g : Signature StaticType} (h : sameSignature f g = true) :
    Signature.Rel Interchange f g := by
  obtain ⟨ps, r⟩ := f
  obtain ⟨qs, s⟩ := g
  rw [sameSignature, Bool.and_eq_true] at h
  exact ⟨forall₂_of_sameFields h.1, .inr h.2⟩

theorem rel_of_sameCall {call own : Option (Signature StaticType)}
    (h : sameCall call own = true) : Option.Rel (Signature.Rel Interchange) call own := by
  cases call with
  | none =>
    cases own with
    | none => exact .none
    | some g => simp [sameCall] at h
  | some f =>
    obtain ⟨g, rfl, hfg⟩ := of_sameCall_some h
    exact .some (rel_of_sameSignature hfg)

/-- A leaf other than a number literal is the same as itself only. -/
theorem eq_of_same_of_isLeaf (hleaf : t.isLeaf = true) (hnumber : t.isNumberLiteral = false)
    (h : t.same u = true) : u = t := by
  rw [same.eq_def] at h
  split at h
  case h_12 => exact absurd hnumber.symm Bool.false_ne_true
  all_goals first
    | rfl
    | exact absurd hleaf Bool.false_ne_true
    | exact absurd h Bool.false_ne_true
    | exact congrArg _ (beq_iff_eq.mp h).symm

/-- The types are two number literals of one value. -/
def SameNumbers (t u : StaticType) : Prop :=
  ∃ x y : Number, t = numberLiteral x ∧ u = numberLiteral y ∧ x.same y = true

theorem alike_or_sameNumbers_of_same (h : t.same u = true) :
    Alike Interchange t u ∨ SameNumbers t u := by
  cases t with
  | numberLiteral x =>
    obtain ⟨y, rfl, hxy⟩ := of_same_numberLiteral h
    exact .inr ⟨x, y, rfl, rfl, hxy⟩
  | union ts =>
    obtain ⟨us, rfl, hsame⟩ := of_same_union h
    exact .inl (.union (forall₂_of_sameTypes hsame))
  | array t =>
    obtain ⟨u, rfl, hsame⟩ := of_same_array h
    exact .inl (.array (.inr hsame))
  | function f =>
    obtain ⟨g, rfl, hsame⟩ := of_same_function h
    exact .inl (.function (rel_of_sameSignature hsame))
  | object name ms call =>
    obtain ⟨ms', call', rfl, hms, hcall⟩ := of_same_object h
    exact .inl (.object (forall₂_of_sameFields hms) (rel_of_sameCall hcall))
  | _ =>
    rw [eq_of_same_of_isLeaf rfl rfl h]
    exact .inl (.leaf rfl)

theorem Interchange.alike_or_sameNumbers (h : Interchange t u) :
    Alike Interchange t u ∨ SameNumbers t u := by
  rcases h with rfl | h
  · exact .inl (Alike.refl .refl t)
  · exact alike_or_sameNumbers_of_same h

theorem Interchange.eq_of_isAtom (hatom : IsAtom t) (h : Interchange t u) : u = t :=
  h.elim Eq.symm hatom.left.mp

end Forms

/-! ## Comparisons -/

section Comparing

variable {n : Nat} {t u v w : StaticType}

/-- What a number literal takes is a number literal of its value, or says nothing. -/
theorem of_numberLiteral_assignableWithin {x : Number} (hdirect : v.isDirect = true)
    (h : assignableWithin (n + 1) (.numberLiteral x) v = true) :
    ∃ y, v = numberLiteral y ∧ x.same y = true := by
  cases v <;> first
    | exact absurd hdirect Bool.false_ne_true
    | exact ⟨_, rfl, h⟩
    | exact absurd h Bool.false_ne_true

/-- A step takes every number literal of the value of one that it takes. -/
theorem Keeps.sameNumbers (h : Keeps Interchange (assignableWithin n)) (ht : Interchange t u)
    (hv : SameNumbers v w) (hfits : assignableWithin (n + 1) t v = true) :
    assignableWithin (n + 1) u w = true := by
  obtain ⟨x, y, rfl, rfl, hxy⟩ := hv
  have hv : Interchange (numberLiteral x) (numberLiteral y) := .inr (by rw [same]; exact hxy)
  rcases ht.alike_or_sameNumbers with halike | ⟨z, z', rfl, rfl, hzz'⟩
  · cases halike with
    | union hts =>
      rw [union_assignableWithin rfl] at hfits ⊢
      exact h.any hts hv hfits
    | leaf hleaf =>
      cases t with
      | numberLiteral z => exact Number.same_trans hfits hxy
      | _ => first | exact hfits | cases hleaf
    | array | function | object => cases hfits
  · exact Number.same_trans (Number.same_trans ((Number.same_comm z' z).trans hzz') hfits) hxy

theorem Keeps.interchange_direct (h : Keeps Interchange (assignableWithin n))
    (ht : Interchange t u) (hv : Interchange v w) (hdirect : v.isDirect = true)
    (hfits : assignableWithin (n + 1) t v = true) : assignableWithin (n + 1) u w = true := by
  rcases hv.alike_or_sameNumbers with hvw | hvw
  · rcases ht.alike_or_sameNumbers with htu | ⟨x, x', rfl, rfl, hxx'⟩
    · exact h.direct htu hv hvw hdirect hfits
    · obtain ⟨y, rfl, hxy⟩ := of_numberLiteral_assignableWithin hdirect hfits
      cases hvw
      exact Number.same_trans ((Number.same_comm x' x).trans hxx') hxy
  · exact h.sameNumbers ht hvw hfits

theorem Interchange.isVoid (h : Interchange t u) (hvoid : t.isVoid = true) : u.isVoid = true := by
  rcases h with rfl | h
  · exact hvoid
  · cases t with
    | void =>
      rw [eq_of_same_of_isLeaf rfl rfl h]
      rfl
    | _ => cases hvoid

theorem Interchange.of_union {vs : List StaticType} (h : Interchange (.union vs) w) :
    ∃ ws, w = union ws ∧ List.Forall₂ Interchange vs ws := by
  rcases h with rfl | h
  · exact ⟨vs, rfl, List.forall₂_same.mpr fun v _ => .refl v⟩
  · obtain ⟨ws, rfl, hsame⟩ := of_same_union h
    exact ⟨ws, rfl, forall₂_of_sameTypes hsame⟩

/-- The form of the value decides which arm compares. -/
theorem keeps_interchange (n : Nat) : Keeps Interchange (assignableWithin n) := by
  induction n with
  | zero => exact ⟨fun _ _ _ => rfl, fun htu hvoid => .inl (htu.isVoid hvoid)⟩
  | succ n ih =>
    refine ⟨fun {t u v w} ht hv hfits => ?_, fun htu hvoid => .inl (htu.isVoid hvoid)⟩
    cases v with
    | any =>
      rw [hv.eq_of_isAtom isAtom_any]
      exact assignableWithin_of_vague rfl _ _
    | unknown =>
      rw [hv.eq_of_isAtom isAtom_unknown]
      exact assignableWithin_of_vague rfl _ _
    | never =>
      rw [hv.eq_of_isAtom isAtom_never]
      exact assignableWithin_of_vague rfl _ _
    | union vs =>
      obtain ⟨ws, rfl, hws⟩ := hv.of_union
      rw [assignableWithin_union] at hfits ⊢
      exact ih.all ht hws hfits
    | boolean =>
      rw [hv.eq_of_isAtom isAtom_boolean]
      rw [assignableWithin_boolean, Bool.and_eq_true] at hfits ⊢
      exact hfits.imp (ih.related ht (.refl _)) (ih.related ht (.refl _))
    | _ => exact ih.interchange_direct ht hv rfl hfits

/-- Where two types fit all the way down, so do any that they are interchanged with. -/
theorem Interchange.accepts (ht : Interchange t u) (hv : Interchange v w)
    (h : t.accepts v = true) : u.accepts w = true := by
  have hdeep : t.depth + v.depth + 2 ≤ t.depth + v.depth + 2 + (u.depth + w.depth) :=
    Nat.le_add_right _ _
  have hdeep' : u.depth + w.depth + 2 ≤ t.depth + v.depth + 2 + (u.depth + w.depth) := by omega
  rw [← assignableWithin_eq_accepts hdeep] at h
  rw [← assignableWithin_eq_accepts hdeep']
  exact (keeps_interchange _).related ht hv h

/-- Types that are the same accept the same values. -/
theorem accepts_of_same (h : t.same u = true) (hfits : t.accepts v = true) : u.accepts v = true :=
  Interchange.accepts (.inr h) (.refl v) hfits

/-- Types that are the same are accepted by the same targets. -/
theorem accepts_same (h : v.same w = true) (hfits : t.accepts v = true) : t.accepts w = true :=
  Interchange.accepts (.refl t) (.inr h) hfits

end Comparing

/-! ## Types against themselves -/

/-- All number literals in the type, at any depth, are numbers. -/
def IsNumeric (t : StaticType) : Prop := ∀ x, OccursIn (.numberLiteral x) t → x ≠ .nan

section Self

variable {t : StaticType}

theorem IsNumeric.part (h : t.IsNumeric) {s : StaticType} (hs : s ∈ t.parts) : s.IsNumeric :=
  fun x hx => h x (.part hs hx)

theorem isNumeric_of_parts (h : t ≠ .numberLiteral .nan) (hparts : ∀ s ∈ t.parts, s.IsNumeric) :
    t.IsNumeric := by
  intro x hx
  cases hx with
  | self => exact fun hnan => h (congrArg numberLiteral hnan)
  | part hs hx => exact hparts _ hs x hx

theorem sameTypes_self {ts : List StaticType} (h : ∀ t ∈ ts, t.same t = true) :
    sameTypes ts ts = true := by
  induction ts with
  | nil => rw [sameTypes]
  | cons t ts ih =>
    rw [List.forall_mem_cons] at h
    rw [sameTypes, h.1, ih h.2]
    rfl

theorem sameFields_self {fs : List (Field StaticType)}
    (h : ∀ t ∈ fs.map (·.type), t.same t = true) : sameFields fs fs = true := by
  induction fs with
  | nil => rw [sameFields]
  | cons f fs ih =>
    obtain ⟨n, t, o⟩ := f
    rw [List.map_cons, List.forall_mem_cons] at h
    rw [sameFields, h.1, ih h.2, beq_self_eq_true, beq_self_eq_true]
    rfl

theorem sameSignature_self {f : Signature StaticType}
    (h : ∀ t ∈ signatureTypes f, t.same t = true) : sameSignature f f = true := by
  obtain ⟨ps, r⟩ := f
  rw [sameSignature, sameFields_self fun t ht => h t (List.mem_append_left _ ht),
    h r (List.mem_append_right _ (List.mem_singleton_self r))]
  rfl

/-- A type without literals that are no numbers is the same as itself. -/
theorem same_self (h : t.IsNumeric) : t.same t = true := by
  induction t using inductionOnParts with
  | step t ih =>
    have hparts : ∀ s ∈ t.parts, s.same s = true := fun s hs => ih s hs (h.part hs)
    cases t with
    | union ts =>
      rw [same]
      exact sameTypes_self hparts
    | array t =>
      rw [same]
      exact hparts t (List.mem_singleton_self t)
    | function f =>
      rw [same]
      exact sameSignature_self hparts
    | object name ms call =>
      have hcall : sameCall call call = true := by
        cases call with
        | none => rw [sameCall]
        | some f =>
          rw [sameCall]
          exact sameSignature_self fun s hs => hparts s (List.mem_append_right _ hs)
      rw [same, sameFields_self fun s hs => hparts s (List.mem_append_left _ hs), hcall,
        beq_self_eq_true]
      rfl
    | numberLiteral x =>
      rw [same]
      exact (Number.same_self_iff x).mpr (h x (.self _))
    | stringLiteral s =>
      rw [same]
      exact beq_self_eq_true s
    | booleanLiteral b =>
      rw [same]
      exact beq_self_eq_true b
    | _ => rw [same]

end Self

end StaticType
end Inlay
