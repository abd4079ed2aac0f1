import Inlay.Proofs.Types.Union

/-!
# Normal form of unions

A union in normal form has at least two members, all of them different, none a union and none
without information, and no member is said again by another one: `true | false` is written
`boolean`, and a literal does not stand beside its base type.

`unionOf` gives types of this form (`isNormalForm_unionOf`), and it gives back any type that has
it from its members (`unionOf_members`).  So the form is all that is to be known of a type that
was made as a union: `isNormal_iff`.
-/

namespace Inlay
namespace StaticType

/-- The first type is a literal of the second. -/
inductive IsLiteralOf : StaticType → StaticType → Prop
  | string (text : String) : IsLiteralOf (.stringLiteral text) .string
  | number (value : Number) : IsLiteralOf (.numberLiteral value) .number
  | boolean (value : Bool) : IsLiteralOf (.booleanLiteral value) .boolean

/-- The members of a union in normal form. -/
structure NormalUnion (ms : List StaticType) : Prop where
  two_le : 2 ≤ ms.length
  single : ∀ m ∈ ms, IsSingle m
  differ : Differ ms
  not_vague : ∀ m ∈ ms, m.isVague = false
  not_both : ¬ (booleanLiteral true ∈ ms ∧ booleanLiteral false ∈ ms)
  no_literal : ∀ l ∈ ms, ∀ c ∈ ms, ¬ IsLiteralOf l c

/-- The type is in normal form: no union, or one of members in normal form. -/
def IsNormalForm (t : StaticType) : Prop := ∀ ms, t = .union ms → NormalUnion ms

theorem not_isSingle_union (ts : List StaticType) : ¬ IsSingle (.union ts) := by
  intro h
  have hsize : sizeOf ts = sizeOf [union ts] := congrArg sizeOf (show ts = [union ts] from h)
  rw [List.cons.sizeOf_spec, union.sizeOf_spec] at hsize
  omega

theorem isSingle_or_eq_union (t : StaticType) : IsSingle t ∨ ∃ ts, t = .union ts := by
  cases t with
  | union ts => exact .inr ⟨ts, rfl⟩
  | _ => exact .inl rfl

theorem IsSingle.isNormalForm {t : StaticType} (h : IsSingle t) : IsNormalForm t := by
  rintro ts rfl
  exact absurd h (not_isSingle_union ts)

/-! ## What is left out, by literals and bases -/

section Literals

variable {S : StaticType → Prop} {l c m : StaticType}

theorem leftOut_iff : LeftOut S m ↔
    m = never ∨ (S unknown ∧ m ≠ unknown) ∨ ∃ c, IsLiteralOf m c ∧ Gathered S c := by
  constructor
  · rintro (h | h | ⟨hb, hjoins⟩ | ⟨hs, hS⟩ | ⟨hn, hS⟩)
    · exact .inl h
    · exact .inr (.inl h)
    · cases m <;> first | exact absurd hb Bool.false_ne_true | skip
      exact .inr (.inr ⟨_, .boolean _, gathered_boolean.mpr hjoins⟩)
    · cases m <;> first | exact absurd hs Bool.false_ne_true | skip
      exact .inr (.inr ⟨_, .string _, .inl hS⟩)
    · cases m <;> first | exact absurd hn Bool.false_ne_true | skip
      exact .inr (.inr ⟨_, .number _, .inl hS⟩)
  · rintro (h | h | ⟨c, hliteral, hc⟩)
    · exact .inl h
    · exact .inr (.inl h)
    · cases hliteral with
      | boolean => exact .inr (.inr (.inl ⟨rfl, gathered_boolean.mp hc⟩))
      | string => exact .inr (.inr (.inr (.inl ⟨rfl, (gathered_iff (m := string) nofun).mp hc⟩)))
      | number => exact .inr (.inr (.inr (.inr ⟨rfl, (gathered_iff (m := number) nofun).mp hc⟩)))

/-- A base type that is gathered is kept. -/
theorem IsLiteralOf.kept (h : IsLiteralOf l c) (hu : ¬ S unknown) (hc : Gathered S c) :
    Kept S c := by
  refine ⟨hc, fun hout => ?_⟩
  rcases leftOut_iff.mp hout with rfl | ⟨hunknown, -⟩ | ⟨b, hb, -⟩
  · cases h
  · exact hu hunknown
  · cases h <;> cases hb

/-- Of the types in `S`, those that say something stay or give way to a base type that stays. -/
theorem kept_or_base (hu : ¬ S unknown) (hm : S m) :
    m = never ∨ Kept S m ∨ ∃ c, IsLiteralOf m c ∧ Kept S c := by
  by_cases hout : LeftOut S m
  · rcases leftOut_iff.mp hout with h | ⟨h, -⟩ | ⟨c, hliteral, hc⟩
    · exact .inl h
    · exact absurd h hu
    · exact .inr (.inr ⟨c, hliteral, hliteral.kept hu hc⟩)
  · exact .inr (.inl ⟨.inl hm, hout⟩)

end Literals

/-! ## Unions are made in normal form -/

section Normalizing

variable {ts ms : List StaticType} {m : StaticType}

theorem normalUnion_reduced (hsingle : ∀ m ∈ ts.flatMap members, IsSingle m)
    (hany : any ∉ ts.flatMap members) (hunknown : unknown ∉ ts.flatMap members)
    (htwo : 2 ≤ (reduced (distinctMembers ts)).length) :
    NormalUnion (reduced (distinctMembers ts)) := by
  have hmem : ∀ {m}, m ∈ reduced (distinctMembers ts) → Kept (First · (ts.flatMap members)) m :=
    (mem_reduced_distinctMembers hunknown).mp
  refine ⟨htwo, fun m hm => ?_, differ_distinctMembers.reduced, fun m hm => ?_, ?_, ?_⟩
  · rcases (hmem hm).1 with h | ⟨rfl, -⟩
    · exact hsingle m h.mem
    · rfl
  · obtain ⟨hgathered, hout⟩ := hmem hm
    rcases hgathered with h | ⟨rfl, -⟩
    · cases m with
      | any => exact absurd h.mem hany
      | unknown => exact absurd h.mem hunknown
      | never => exact absurd (.inl rfl) hout
      | _ => rfl
    · rfl
  · rintro ⟨htrue, hfalse⟩
    have hjoins : JoinsBooleans (First · (ts.flatMap members)) :=
      .inl ⟨(gathered_iff (m := booleanLiteral true) nofun).mp (hmem htrue).1,
        (gathered_iff (m := booleanLiteral false) nofun).mp (hmem hfalse).1⟩
    exact (hmem htrue).2 (.inr (.inr (.inl ⟨rfl, hjoins⟩)))
  · exact fun l hl c hc h => (hmem hl).2 (leftOut_iff.mpr (.inr (.inr ⟨c, h, (hmem hc).1⟩)))

theorem isNormalForm_ofMembers (hsingle : ∀ m ∈ ms, IsSingle m)
    (h : 2 ≤ ms.length → NormalUnion ms) : IsNormalForm (ofMembers ms) := by
  match ms with
  | [] => exact IsSingle.isNormalForm rfl
  | [m] => exact (hsingle m (List.mem_singleton_self m)).isNormalForm
  | m :: n :: rest =>
    intro us heq
    obtain rfl := union.inj heq
    exact h (Nat.le_add_left 2 rest.length)

/-- The union of types whose members are no unions is in normal form. -/
theorem isNormalForm_unionOf_of_single (hsingle : ∀ m ∈ ts.flatMap members, IsSingle m) :
    IsNormalForm (unionOf ts) := by
  by_cases hany : any ∈ ts.flatMap members
  · rw [unionOf_of_any hany]
    exact IsSingle.isNormalForm rfl
  by_cases hunknown : unknown ∈ ts.flatMap members
  · rw [unionOf_of_unknown hany hunknown]
    exact IsSingle.isNormalForm rfl
  · rw [unionOf_eq hany hunknown]
    refine isNormalForm_ofMembers (fun m hm => ?_) (normalUnion_reduced hsingle hany hunknown)
    rcases ((mem_reduced_distinctMembers hunknown).mp hm).1 with h | ⟨rfl, -⟩
    · exact hsingle m h.mem
    · rfl

end Normalizing

/-! ## What is in normal form is left as it is -/

section Fixed

variable {ts ms acc : List StaticType} {t : StaticType}

theorem foldl_insertNew_of_differ (h : Differ (acc ++ ts)) :
    ts.foldl insertNew acc = acc ++ ts := by
  induction ts generalizing acc with
  | nil => rw [List.foldl_nil, List.append_nil]
  | cons t rest ih =>
    have hnew : t.isIn acc = false := isIn_eq_false_iff.mpr fun u hu =>
      (List.pairwise_append.mp h).2.2 u hu t List.mem_cons_self
    have hcons : acc ++ t :: rest = (acc ++ [t]) ++ rest := List.append_cons acc t rest
    rw [List.foldl_cons, insertNew, hnew, if_neg Bool.false_ne_true, hcons]
    exact ih (hcons ▸ h)

theorem filter_not_eq_self {p : StaticType → Bool} (h : ∀ m ∈ ms, p m = false) :
    ms.filter (fun m => !p m) = ms :=
  List.filter_eq_self.mpr fun m hm => by rw [h m hm]; rfl

/-- Literals give way only to their base type. -/
theorem giveWay_eq_self {c : StaticType} (hc : IsAtom c) {p : StaticType → Bool}
    (h : c ∈ ms → ∀ m ∈ ms, p m = false) :
    (if c.isIn ms then ms.filter fun t => !p t else ms) = ms := by
  split
  · next hin => exact filter_not_eq_self (h (hc.isIn_iff.mp hin))
  · rfl

namespace NormalUnion

variable (h : NormalUnion ms)
include h

theorem flatMap_members : ms.flatMap members = ms := by
  have hsingle := h.single
  clear h
  induction ms with
  | nil => rfl
  | cons m rest ih =>
    rw [List.forall_mem_cons] at hsingle
    rw [List.flatMap_cons, hsingle.1, ih hsingle.2]
    rfl

theorem distinctMembers_eq : distinctMembers ms = ms := by
  rw [distinctMembers, h.flatMap_members]
  exact foldl_insertNew_of_differ h.differ

theorem isLiteral_eq_false {c : StaticType} (hc : c ∈ ms) {p : StaticType → Bool}
    (hp : ∀ m, p m = true → IsLiteralOf m c) : ∀ m ∈ ms, p m = false :=
  fun m hm => Bool.eq_false_iff.mpr fun hpm => h.no_literal m hm c hc (hp m hpm)

theorem joinBooleans_eq : joinBooleans ms = ms := by
  rw [joinBooleans]
  split
  · next hjoins =>
    have hboolean : boolean ∈ ms :=
      (joinsBooleans_iff_isIn.mpr hjoins).resolve_left h.not_both
    have hfilter : ms.filter (fun t => !t.isBooleanLiteral) = ms := by
      refine filter_not_eq_self (h.isLiteral_eq_false hboolean fun m hm => ?_)
      cases m <;> first | exact .boolean _ | exact absurd hm Bool.false_ne_true
    rw [hfilter, insertNew, if_pos (isAtom_boolean.isIn_iff.mpr hboolean)]
  · rfl

theorem dropStringLiterals_eq : dropStringLiterals ms = ms := by
  refine giveWay_eq_self isAtom_string fun hstring => h.isLiteral_eq_false hstring fun m hm => ?_
  cases m <;> first | exact .string _ | exact absurd hm Bool.false_ne_true

theorem dropNumberLiterals_eq : dropNumberLiterals ms = ms := by
  refine giveWay_eq_self isAtom_number fun hnumber => h.isLiteral_eq_false hnumber fun m hm => ?_
  cases m <;> first | exact .number _ | exact absurd hm Bool.false_ne_true

theorem reduced_eq : reduced ms = ms := by
  have hnever : ms.filter (fun t => !t.isNever) = ms := by
    refine filter_not_eq_self fun m hm => Bool.eq_false_iff.mpr fun hnever => ?_
    rw [isNever_iff] at hnever
    exact absurd (h.not_vague m hm) (hnever ▸ nofun)
  rw [reduced, hnever, h.joinBooleans_eq, h.dropStringLiterals_eq, h.dropNumberLiterals_eq]

theorem ofMembers_eq : ofMembers ms = .union ms := by
  match ms, h.two_le with
  | _ :: _ :: _, _ => rfl

theorem unionOf_eq : unionOf ms = .union ms := by
  have hnot : ∀ {c : StaticType}, c.isVague = true → c ∉ ms.flatMap members := by
    rw [h.flatMap_members]
    exact fun hc hmem => Bool.false_ne_true ((h.not_vague _ hmem).symm.trans hc)
  rw [StaticType.unionOf_eq (hnot rfl) (hnot rfl), h.distinctMembers_eq, h.reduced_eq,
    h.ofMembers_eq]

theorem filter (p : StaticType → Bool) (htwo : 2 ≤ (ms.filter p).length) :
    NormalUnion (ms.filter p) where
  two_le := htwo
  single m hm := h.single m (List.mem_filter.mp hm).1
  differ := h.differ.filter p
  not_vague m hm := h.not_vague m (List.mem_filter.mp hm).1
  not_both hboth := h.not_both
    ⟨(List.mem_filter.mp hboth.1).1, (List.mem_filter.mp hboth.2).1⟩
  no_literal l hl c hc := h.no_literal l (List.mem_filter.mp hl).1 c (List.mem_filter.mp hc).1

/-- Some of the members of a normal union make a union as they are. -/
theorem unionOf_filter (p : StaticType → Bool) :
    unionOf (ms.filter p) = ofMembers (ms.filter p) := by
  have hfilter := h.filter p
  have hsingle : ∀ m ∈ ms.filter p, IsSingle m := fun m hm => h.single m (List.mem_filter.mp hm).1
  generalize ms.filter p = rest at hfilter hsingle ⊢
  match rest with
  | [] => rfl
  | [m] => exact unionOf_singleton (hsingle m (List.mem_singleton_self m))
  | m :: n :: rest => exact (hfilter (Nat.le_add_left 2 rest.length)).unionOf_eq

end NormalUnion

/-- A type in normal form is the union of its members. -/
theorem unionOf_members (h : IsNormalForm t) : unionOf t.members = t := by
  rcases isSingle_or_eq_union t with hsingle | ⟨ms, rfl⟩
  · rw [hsingle]
    exact unionOf_singleton hsingle
  · exact (h ms rfl).unionOf_eq

theorem IsNormalForm.single (h : IsNormalForm t) : ∀ m ∈ t.members, IsSingle m := by
  rcases isSingle_or_eq_union t with hsingle | ⟨ms, rfl⟩
  · rw [hsingle]
    exact List.forall_mem_singleton.mpr hsingle
  · exact (h ms rfl).single

/-- The types in normal form are those that are made as unions. -/
theorem isNormal_iff : IsNormal t ↔ IsNormalForm t := by
  constructor
  · rintro ⟨ts, hsingle, rfl⟩
    exact isNormalForm_unionOf_of_single hsingle
  · intro h
    refine ⟨t.members, fun m hm => ?_, unionOf_members h⟩
    obtain ⟨u, hu, hm⟩ := List.mem_flatMap.mp hm
    rw [h.single u hu, List.mem_singleton] at hm
    exact hm ▸ h.single u hu

/-- Types in normal form are put together to one. -/
theorem isNormalForm_unionOf (h : ∀ t ∈ ts, IsNormalForm t) : IsNormalForm (unionOf ts) :=
  isNormal_iff.mp (isNormal_unionOf fun t ht => isNormal_iff.mpr (h t ht))

/-- A union that is made again from its members is in normal form. -/
theorem isNormalForm_union (h : unionOf ms = .union ms) (hsingle : ∀ m ∈ ms, IsSingle m) :
    IsNormalForm (.union ms) :=
  h ▸ isNormalForm_unionOf fun m hm => (hsingle m hm).isNormalForm

end Fixed

end StaticType
end Inlay
