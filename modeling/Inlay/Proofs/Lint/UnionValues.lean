import Inlay.Proofs.Lint.PlainValues

/-!
# Values of several types

A target takes a union if it takes each of its members, but the rule about incompatible types asks
more than this, and asks all of it of the union as a whole.  It passes a text that writes a number,
but no union of such texts.  And it passes an attribute whose target takes the value, or takes the
text of the value: where a target takes some members only as they are, and others only as texts, it
takes each member and not the union.  These are the ways in which a union is `TakenApart`, and no
others: what is reported has a member that is reported alone, or is taken apart
(`reports_union_iff_members`).

The members are looked at one step less deep than the union, so that what takes a member also takes
it there.  The other way round this needs types that are nested less deep than is looked at.
-/

namespace Inlay

open Markup Engine

namespace IncompatibleType

/-- What is compared of the type of an expression that is no directive. -/
def comparedType (b : Binding) (value : StaticType) : StaticType :=
  if b = .plain then value.stripped else value

/-- The target that a binding compares a value with as it is. -/
def asked (b : Binding) (t : StaticType) : StaticType := if b = .boolean then presenceTypes else t

/-- The rule reports a type that is compared. -/
structure Refuses (a : Attribute) (types : BindingTypes) (w : StaticType) : Prop where
  compared : isLeftOut a types w = false
  noNumber : (isNumericText w && types.target.assignable .number) = false
  unfit : fits a.binding types.target w = false

/-- Members are passed in ways in which the whole is not. -/
inductive TakenApart (b : Binding) (t w : StaticType) : Prop
  /-- A member that does not fit is passed because it is the text of a number. -/
  | number {m : StaticType} (mem : m ∈ w.members) (part : m ≠ w) (text : isNumericText m = true)
      (takes : t.assignable .number = true) (unfit : fits b t m = false)
  /-- One member is taken only as it is, and another one only as a text. -/
  | ways {m m' : StaticType} (plain : b = .plain) (mem : m ∈ w.members) (mem' : m' ∈ w.members)
      (direct : t.assignable m = true) (noText : t.assignable m.attributeText = false)
      (indirect : t.assignable m' = false) (text : t.assignable m'.attributeText = true)

section Refused

variable {a : Attribute} {types : BindingTypes} {b : Binding} {t w m : StaticType}
  {vs : List StaticType}

theorem asked_plain (h : b = .plain) : asked b t = t :=
  if_neg (h ▸ nofun)

theorem fits_iff (hb : b ≠ .event) : fits b t w = true ↔
    (asked b t).assignable w = true ∨ (b = .plain ∧ t.assignable w.attributeText = true) := by
  cases b <;> simp_all [fits, asked]

/-! ### From the union to its members -/

/-- A union that is compared in a plain attribute is primitive. -/
theorem isPrimitive_of_compared (hplain : a.binding = .plain)
    (h : isLeftOut a types (.union vs) = false) : (StaticType.union vs).isPrimitive = true := by
  rw [isLeftOut, decide_eq_true hplain, Bool.true_and, Bool.or_eq_false_iff] at h
  by_contra hnot
  have hcomplex : (StaticType.union vs).isComplex = true := by
    rw [StaticType.isComplex, Bool.eq_false_iff.mpr hnot]
    rfl
  exact Bool.false_ne_true (h.1.symm.trans hcomplex)

/-- The members of what is compared are compared. -/
theorem isLeftOut_of_mem (hnormal : StaticType.NormalUnion vs)
    (h : isLeftOut a types (.union vs) = false) (hm : m ∈ vs) : isLeftOut a types m = false := by
  by_cases hplain : a.binding = .plain
  · have hprimitive := isPrimitive_of_compared hplain h
    rw [isLeftOut_congr (w := .union vs) (hnormal.not_vague m hm)
      ((StaticType.isPrimitive_union.mp hprimitive m hm).trans hprimitive.symm)]
    exact h
  · rw [isLeftOut, decide_eq_false hplain, Bool.false_and]

/-- A union fits if all its members do, unless it is taken apart. -/
theorem fits_union (hb : b ≠ .event) (hnormal : StaticType.NormalUnion vs)
    (hprimitive : b = .plain → (StaticType.union vs).isPrimitive = true)
    (hapart : ¬ TakenApart b t (.union vs)) (h : ∀ m ∈ vs, fits b t m = true) :
    fits b t (.union vs) = true := by
  rw [fits_iff hb]
  by_cases hdirect : ∀ m ∈ vs, (asked b t).assignable m = true
  · exact .inl (StaticType.assignable_union hdirect)
  · -- One member is taken only as a text, so the others are taken as texts as well.
    simp only [not_forall, Bool.not_eq_true] at hdirect
    obtain ⟨m', hm', hindirect⟩ := hdirect
    obtain ⟨hplain, htext⟩ := ((fits_iff hb).mp (h m' hm')).resolve_left (by simp [hindirect])
    rw [asked_plain hplain] at hindirect
    refine .inr ⟨hplain, StaticType.assignable_attributeText_union hnormal.single
      (StaticType.isPrimitive_union.mp (hprimitive hplain)) fun m hm => ?_⟩
    rcases (fits_iff hb).mp (h m hm) with hdirect | ⟨-, htext⟩
    · by_contra hnoText
      rw [asked_plain hplain] at hdirect
      exact hapart (.ways hplain hm hm' hdirect (Bool.eq_false_iff.mpr hnoText) hindirect htext)
    · exact htext

/-- What is reported has a member that is, or is taken apart. -/
theorem Refuses.exists_member (h : Refuses a types w) (hb : a.binding ≠ .event)
    (hnormal : w.IsNormalForm) :
    (∃ m ∈ w.members, Refuses a types m) ∨ TakenApart a.binding types.target w := by
  rcases StaticType.isSingle_or_eq_union w with hsingle | ⟨vs, rfl⟩
  · exact .inl ⟨w, hsingle.symm ▸ List.mem_singleton_self w, h⟩
  · by_contra hnot
    obtain ⟨hmember, hapart⟩ := not_or.mp hnot
    have hunion := hnormal vs rfl
    refine Bool.eq_false_iff.mp h.unfit (fits_union hb hunion
      (fun hplain => isPrimitive_of_compared hplain h.compared) hapart fun m hm => ?_)
    by_contra hunfit
    rw [Bool.not_eq_true] at hunfit
    cases hnumber : isNumericText m && types.target.assignable .number with
    | false => exact hmember ⟨m, hm, isLeftOut_of_mem hunion h.compared hm, hnumber, hunfit⟩
    | true =>
      obtain ⟨htext, htakes⟩ := Bool.and_eq_true_iff.mp hnumber
      have hpart : m ≠ .union vs := fun heq =>
        StaticType.not_isSingle_union vs (heq ▸ hunion.single m hm)
      exact hapart (.number hm hpart htext htakes hunfit)

/-! ### From the members to the union -/

theorem depth_presenceTypes : presenceTypes.depth = 1 := by
  have hunion : presenceTypes = .union [.boolean, .null, .undefined] := by with_unfolding_all rfl
  rw [hunion]
  rfl

/-- The members of what fits a target fit it all as they are, or all as texts. -/
theorem fits_members (hb : b ≠ .event) (hdepth : t.depth + (StaticType.union vs).depth ≤ 14)
    (hprimitive : b = .plain → (StaticType.union vs).isPrimitive = true)
    (h : fits b t (.union vs) = true) :
    (∀ m ∈ vs, (asked b t).assignable m = true) ∨
      (b = .plain ∧ ∀ m ∈ vs, t.assignable m.attributeText = true) := by
  have hasked : (asked b t).depth ≤ t.depth + 1 := by
    rw [asked]
    split
    · exact depth_presenceTypes.trans_le (Nat.le_add_left 1 t.depth)
    · exact Nat.le_succ t.depth
  rcases (fits_iff hb).mp h with h | ⟨hplain, h⟩
  · exact .inl fun m hm =>
      StaticType.assignable_of_mem_members (by simp only [StaticType.depthLimit]; omega) h hm
  · exact .inr ⟨hplain, fun m hm => StaticType.assignable_attributeText_of_mem
      (by simp only [StaticType.depthLimit]; omega) (hprimitive hplain) h hm⟩

theorem TakenApart.not_isSingle (h : TakenApart b t w) : ¬ StaticType.IsSingle w := by
  intro hsingle
  have heq : ∀ {m}, m ∈ w.members → m = w := fun hm =>
    List.mem_singleton.mp (hsingle ▸ hm)
  cases h with
  | number hm hpart => exact hpart (heq hm)
  | ways _ hm hm' hdirect _ hindirect =>
    rw [heq hm] at hdirect
    rw [heq hm'] at hindirect
    exact Bool.false_ne_true (hindirect.symm.trans hdirect)

/-- What is compared is reported if it has a member that is, or is taken apart. -/
theorem refuses_of_member (hb : a.binding ≠ .event)
    (hdepth : types.target.depth + w.depth ≤ 14) (hcompared : isLeftOut a types w = false)
    (h : (∃ m ∈ w.members, Refuses a types m) ∨ TakenApart a.binding types.target w) :
    Refuses a types w := by
  rcases StaticType.isSingle_or_eq_union w with hsingle | ⟨vs, rfl⟩
  · obtain ⟨m, hm, hrefuses⟩ := h.resolve_right fun hapart => hapart.not_isSingle hsingle
    rw [hsingle, List.mem_singleton] at hm
    exact hm ▸ hrefuses
  · refine ⟨hcompared, rfl, Bool.eq_false_iff.mpr fun hfits => ?_⟩
    have hmembers := fits_members hb hdepth
      (fun hplain => isPrimitive_of_compared hplain hcompared) hfits
    have hall : ∀ m ∈ vs, fits a.binding types.target m = true := fun m hm =>
      (fits_iff hb).mpr (hmembers.imp (· m hm) (.imp_right (· m hm)))
    rcases h with ⟨m, hm, hrefuses⟩ | hapart
    · exact Bool.eq_false_iff.mp hrefuses.unfit (hall m hm)
    · cases hapart with
      | number hm _ _ _ hunfit => exact Bool.eq_false_iff.mp hunfit (hall _ hm)
      | ways hplain hm hm' _ hnoText hindirect _ =>
        rw [asked_plain hplain] at hmembers
        rcases hmembers with hdirect | ⟨-, htext⟩
        · exact Bool.eq_false_iff.mp hindirect (hdirect _ hm')
        · exact Bool.eq_false_iff.mp hnoText (htext _ hm)

end Refused

section Reports

variable {s : Scene} {n : Node} {a : Attribute} {x : Assignment} {types : BindingTypes}
  {hole : Hole} {ms : List StaticType}

theorem reports_iff (hb : a.binding ≠ .event) (hx : x.value = .expression hole)
    (hdirective : types.directive = none)
    (hallowed : allowed? s.settings n.tag a x.value = none) :
    incompatibleType.onAssignment s n a x types ≠ [] ↔
      Refuses a types (comparedType a.binding types.value) := by
  have hcompared : comparedValue? a x.value types =
      some (comparedType a.binding types.value) := by
    rw [comparedType]
    split
    · next hplain => rw [hx, comparedValue?_of_hole hplain hdirective]
    · next hplain => rw [comparedValue?, if_neg hplain]
  have hlooks : ¬ (decide (a.binding = .event) || !isComparable types) = true := by
    rw [decide_eq_false hb, isComparable, hdirective]
    exact Bool.false_ne_true
  have hsilent : ∀ {p : Prop}, ¬ p → (([] : List Finding) ≠ [] ↔ p) := fun h =>
    iff_of_false (not_not.mpr rfl) h
  show check s.settings n.tag a x.value types ≠ [] ↔ _
  rw [check, if_neg hlooks, hcompared]
  dsimp only
  rw [compare, hallowed, ite_self]
  dsimp only
  split
  · next h => exact hsilent fun hr => Bool.eq_false_iff.mp hr.compared h
  · next hcompared =>
    split
    · next h => exact hsilent fun hr => Bool.eq_false_iff.mp hr.noNumber h
    · next hnoNumber =>
      split
      · next h => exact hsilent fun hr => Bool.eq_false_iff.mp hr.unfit h
      · next hunfit =>
        exact iff_of_true (List.cons_ne_nil _ _) ⟨Bool.eq_false_iff.mpr hcompared,
          Bool.eq_false_iff.mpr hnoNumber, Bool.eq_false_iff.mpr hunfit⟩

/-- What is compared of a normal union is in normal form, with some of its members. -/
theorem comparedType_union (b : Binding) (h : StaticType.NormalUnion ms) :
    (comparedType b (.union ms)).IsNormalForm ∧
      (∀ m ∈ (comparedType b (.union ms)).members, m ∈ ms) ∧
      (comparedType b (.union ms)).depth ≤ (StaticType.union ms).depth := by
  have hnormal : (StaticType.union ms).IsNormalForm := fun us heq => by
    cases heq
    exact h
  rw [comparedType]
  split
  · exact ⟨StaticType.isNormalForm_stripped hnormal, StaticType.stripped_union h⟩
  · exact ⟨hnormal, fun _ => id, Nat.le_refl _⟩

theorem comparedType_of_isSingle (b : Binding) {m : StaticType} (h : StaticType.IsSingle m) :
    comparedType b m = m := by
  rw [comparedType, StaticType.stripped_of_isSingle h, ite_self]

/-- A union is reported only if a member of it is, or if it is taken apart: some member is passed in
a way in which the union is not.  Of types that are nested less deep than is looked at, a union is
reported in just these cases, unless it is left to the rule about complex attributes. -/
theorem reports_union_iff_members (hb : a.binding ≠ .event) (hx : x.value = .expression hole)
    (hdirective : types.directive = none)
    (hallowed : allowed? s.settings n.tag a x.value = none)
    (hvalue : types.value = .union ms) (hnormal : StaticType.NormalUnion ms) :
    let w := comparedType a.binding types.value
    let reports (types : BindingTypes) : Prop := incompatibleType.onAssignment s n a x types ≠ []
    (reports types →
      (∃ m ∈ ms, reports (types.withValue m)) ∨ TakenApart a.binding types.target w) ∧
    (types.target.depth + types.value.depth ≤ 14 →
      (reports types ↔ isLeftOut a types w = false ∧
        ((∃ m ∈ w.members, reports (types.withValue m)) ∨
          TakenApart a.binding types.target w))) := by
  intro w reports
  obtain ⟨hform, hmem, hdepth⟩ := comparedType_union a.binding hnormal
  rw [← hvalue] at hform hmem hdepth
  have hunion : reports types ↔ Refuses a types w := reports_iff hb hx hdirective hallowed
  have hmember : ∀ m ∈ w.members, (reports (types.withValue m) ↔ Refuses a types m) := by
    intro m hm
    have hreports : reports (types.withValue m) ↔
        Refuses a (types.withValue m) (comparedType a.binding m) :=
      reports_iff hb hx hdirective hallowed
    rw [hreports, comparedType_of_isSingle a.binding (hnormal.single m (hmem m hm))]
    exact ⟨fun h => ⟨h.1, h.2, h.3⟩, fun h => ⟨h.1, h.2, h.3⟩⟩
  have hmembers : (∃ m ∈ w.members, reports (types.withValue m)) ↔
      ∃ m ∈ w.members, Refuses a types m :=
    exists_congr fun m => and_congr_right (hmember m)
  constructor
  · intro h
    rcases (hunion.mp h).exists_member hb hform with hsome | hapart
    · obtain ⟨m, hm, hreports⟩ := hmembers.mpr hsome
      exact .inl ⟨m, hmem m hm, hreports⟩
    · exact .inr hapart
  · intro hlimit
    rw [hunion, hmembers]
    have hlimit : types.target.depth + w.depth ≤ 14 :=
      Nat.le_trans (Nat.add_le_add_left hdepth _) hlimit
    exact ⟨fun h => ⟨h.compared, h.exists_member hb hform⟩,
      fun ⟨hcompared, h⟩ => refuses_of_member hb hlimit hcompared h⟩

/-- Numbers are taken as they are, and `boolean` as a text: of both together neither holds. -/
theorem reports_union_iff_members_of_flag :
    let n := stateElement (.expression holeOfTwo)
    let a := stateAttribute (.expression holeOfTwo)
    let x : Assignment := { id := 0, owner := 0, value := .expression holeOfTwo, span := ⟨12, 14⟩ }
    let value := StaticType.union [.number, .boolean]
    let types : BindingTypes :=
      { target := .union [.number, .stringLiteral "true", .stringLiteral "false"], isFound := true
        value := value, raw := value, directive := none }
    (StaticType.NormalUnion [.number, .boolean] ∧ types.target.depth + value.depth ≤ 14) ∧
      incompatibleType.onAssignment usualScene n a x (types.withValue .number) = [] ∧
      incompatibleType.onAssignment usualScene n a x (types.withValue .boolean) = [] ∧
      incompatibleType.onAssignment usualScene n a x types ≠ [] := by
  intro n a x value types
  have hform : value.IsNormalForm := StaticType.isNormalForm_union (by with_unfolding_all rfl)
    (by simp [StaticType.IsSingle, StaticType.members])
  have hdepth : types.target.depth + value.depth ≤ 14 := by
    simp [types, value, StaticType.depth, StaticType.heightOfTypes]
  have hcompared : comparedType a.binding value = value := by with_unfolding_all rfl
  have hnumber : StaticType.number ∈ value.members := by simp [value, StaticType.members]
  have hboolean : StaticType.boolean ∈ value.members := by simp [value, StaticType.members]
  have hapart : TakenApart a.binding types.target value :=
    .ways rfl hnumber hboolean (by decide +kernel) (by decide +kernel) (by decide +kernel)
      (by decide +kernel)
  have hiff := (reports_union_iff_members (show a.binding ≠ .event by decide)
    (show x.value = .expression holeOfTwo from rfl) (show types.directive = none from rfl)
    (show allowed? usualScene.settings n.tag a x.value = none by decide)
    (show types.value = .union [.number, .boolean] from rfl) (hform _ rfl)).2 hdepth
  exact ⟨⟨hform _ rfl, hdepth⟩, by decide +kernel, by decide +kernel,
    hiff.mpr ⟨by decide +kernel, .inr (hcompared.symm ▸ hapart)⟩⟩

/-- Each of two texts writes a number, and a target of numbers takes it; not so their union. -/
theorem number_texts_reported :
    let value : Value := .expression holeOfTwo
    let reports (t : StaticType) : List String :=
      (reportsOf incompatibleType usualScene (fun _ => t) [] (stateElement value)
        (stateAttribute value) (knowing .number)).map (·.finding.message)
    (StaticType.union [.stringLiteral "10", .stringLiteral "20"]).IsNormalForm ∧
      reports (.stringLiteral "10") = [] ∧ reports (.stringLiteral "20") = [] ∧
      reports (.union [.stringLiteral "10", .stringLiteral "20"]) =
        ["Type '\"10\" | \"20\"' is not assignable to 'number'."] := by
  intro value reports
  have hnormal : (StaticType.union [.stringLiteral "10", .stringLiteral "20"]).IsNormalForm :=
    StaticType.isNormalForm_union (by with_unfolding_all rfl)
      (by simp [StaticType.IsSingle, StaticType.members])
  exact ⟨hnormal, by decide +kernel, by decide +kernel, by decide +kernel⟩

end Reports

end IncompatibleType

end Inlay
