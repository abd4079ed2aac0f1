import Inlay.Proofs.Types.UnionMeaning

/-!
# Primitive types and their texts

A primitive type is made of strings, numbers, booleans, nullish types and unions of such, to any
depth.  The text that an attribute shows for it is `string`, a string literal or a union of these,
and never a union in a union: `isText_attributeText`.  So a target that takes every text takes the
text of every primitive type (`assignable_attributeText`).

The text of a union is made of the texts of its members, so a target that takes each of these takes
it (`assignable_attributeText_union`).  Making it a normal union may leave a single literal of all
the members, which is then compared one step less deep than in a union.

What takes a union takes its members, and so for the texts of both, of types that are nested less
deep than is looked at (`assignable_of_mem_members`, `assignable_attributeText_of_mem`).
-/

namespace Inlay
namespace StaticType

/-! ## Unions of primitive types -/

section Unions

variable {t m x : StaticType} {ts ms : List StaticType}

theorem arePrimitive_iff : arePrimitive ts = true ↔ ∀ t ∈ ts, t.isPrimitive = true := by
  induction ts with
  | nil => exact iff_of_true rfl nofun
  | cons t ts ih => rw [arePrimitive, Bool.and_eq_true, ih, List.forall_mem_cons]

theorem isPrimitive_union : (union ts).isPrimitive = true ↔ ∀ t ∈ ts, t.isPrimitive = true := by
  rw [isPrimitive, arePrimitive_iff]

theorem isPrimitive_of_mem_members (h : t.isPrimitive = true) (hm : m ∈ t.members) :
    m.isPrimitive = true := by
  rcases isSingle_or_eq_union t with hsingle | ⟨ts, rfl⟩
  · rw [hsingle, List.mem_singleton] at hm
    exact hm ▸ h
  · exact isPrimitive_union.mp h m hm

theorem isPrimitive_ofMembers (hne : ts ≠ []) :
    (ofMembers ts).isPrimitive = true ↔ ∀ t ∈ ts, t.isPrimitive = true := by
  match ts with
  | [] => exact absurd rfl hne
  | [t] =>
    rw [List.forall_mem_singleton]
    rfl
  | t :: u :: rest => exact isPrimitive_union

/-- What a normal union has are the members of the types, `boolean` for its literals, or `never`
where there is nothing else. -/
theorem mem_members_unionOf (hsingle : ∀ m ∈ ts.flatMap members, IsSingle m)
    (hany : any ∉ ts.flatMap members) (h : x ∈ (unionOf ts).members) :
    x ∈ ts.flatMap members ∨ x = never ∨
      (x = boolean ∧ JoinsBooleans (First · (ts.flatMap members))) := by
  rcases ((unites_unionOf hsingle hany).mem_iff x).mp h with ⟨hfirst | hjoins, -⟩ | ⟨hnever, -⟩
  · exact .inl hfirst.mem
  · exact .inr (.inr hjoins)
  · exact .inr (.inl hnever)

theorem notMem_of_isPrimitive (h : ∀ t ∈ ts, t.isPrimitive = true) (hx : x.isVague = true) :
    x ∉ ts.flatMap members := by
  intro hmem
  obtain ⟨t, ht, hmem⟩ := List.mem_flatMap.mp hmem
  have hprimitive := isPrimitive_of_mem_members (h t ht) hmem
  cases x <;> first | exact Bool.false_ne_true hx | exact Bool.false_ne_true hprimitive

/-- The normal union of primitive types is primitive, if there are any. -/
theorem isPrimitive_unionOf (h : ∀ t ∈ ts, t.isPrimitive = true) :
    unionOf ts = never ∨ (unionOf ts).isPrimitive = true := by
  have hunknown := notMem_of_isPrimitive (x := unknown) h rfl
  rw [unionOf_eq (notMem_of_isPrimitive h rfl) hunknown]
  rcases eq_or_ne (reduced (distinctMembers ts)) [] with hnil | hne
  · rw [hnil]
    exact .inl rfl
  · refine .inr ((isPrimitive_ofMembers hne).mpr fun m hm => ?_)
    rcases ((mem_reduced_distinctMembers hunknown).mp hm).1 with hfirst | ⟨rfl, -⟩
    · obtain ⟨t, ht, hm⟩ := List.mem_flatMap.mp hfirst.mem
      exact isPrimitive_of_mem_members (h t ht) hm
    · rfl

theorem isPrimitive_withoutNullish (h : t.isPrimitive = true) :
    t.withoutNullish = never ∨ t.withoutNullish.isPrimitive = true := by
  cases t with
  | union ts =>
    exact isPrimitive_unionOf fun t ht => isPrimitive_union.mp h t (List.mem_filter.mp ht).1
  | null | undefined => exact .inl rfl
  | _ => exact .inr h

end Unions

/-! ## Texts -/

/-- What the text of a primitive type is made of; `never` is the text of a union of nothing. -/
inductive IsText : StaticType → Prop
  | nothing : IsText .never
  | all : IsText .string
  | literal (text : String) : IsText (.stringLiteral text)

section Texts

variable {t v x : StaticType} {ts vs : List StaticType}

theorem IsText.isSingle (h : IsText x) : IsSingle x := by
  cases h <;> rfl

theorem attributeText_union (ts : List StaticType) :
    (union ts).attributeText = unionOf (ts.map attributeText) := by
  have hmap : ∀ ts : List StaticType, attributeTexts ts = ts.map attributeText := by
    intro ts
    induction ts with
    | nil => rfl
    | cons t ts ih => rw [attributeTexts, ih, List.map_cons]
  rw [attributeText, hmap]

theorem mem_texts_iff :
    x ∈ (vs.map attributeText).flatMap members ↔ ∃ v ∈ vs, x ∈ v.attributeText.members := by
  rw [List.flatMap_map, List.mem_flatMap]

/-- The normal union of texts has no other members than they have. -/
theorem mem_of_mem_unionOf_texts (h : ∀ x ∈ ts.flatMap members, IsText x)
    (hx : x ∈ (unionOf ts).members) : x ∈ ts.flatMap members ∨ x = never := by
  rcases mem_members_unionOf (fun m hm => (h m hm).isSingle) (mt (h any) nofun) hx with
    hmem | hnever | ⟨-, ⟨htrue, -⟩ | hboolean⟩
  · exact .inl hmem
  · exact .inr hnever
  · exact absurd (h _ htrue.mem) nofun
  · exact absurd (h _ hboolean.mem) nofun

theorem isText_unionOf (h : ∀ x ∈ ts.flatMap members, IsText x) :
    ∀ x ∈ (unionOf ts).members, IsText x := by
  intro x hx
  rcases mem_of_mem_unionOf_texts h hx with hmem | rfl
  · exact h x hmem
  · exact .nothing

theorem members_attributeText_boolean :
    boolean.attributeText.members = [stringLiteral "true", stringLiteral "false"] := by
  with_unfolding_all rfl

/-- Only `boolean` has more than one text. -/
theorem isText_attributeText_of_isSingle (hsingle : IsSingle v) (h : v.isPrimitive = true)
    (hv : v ≠ boolean) : IsText v.attributeText := by
  cases v with
  | boolean => exact absurd rfl hv
  | union ts => exact absurd hsingle (not_isSingle_union ts)
  | any | unknown | never | array | function | object => cases h
  | string | number | bigint =>
    simp only [attributeText]
    exact .all
  | _ =>
    simp only [attributeText]
    exact .literal _

/-- The text of a primitive type is a text, or a union of texts. -/
theorem isText_attributeText (h : v.isPrimitive = true) :
    ∀ x ∈ v.attributeText.members, IsText x := by
  induction v using inductionOnParts with
  | step v ih =>
    rcases isSingle_or_eq_union v with hsingle | ⟨ts, rfl⟩
    · by_cases hv : v = boolean
      · rw [hv, members_attributeText_boolean]
        exact List.forall_mem_cons.mpr ⟨.literal _, List.forall_mem_singleton.mpr (.literal _)⟩
      · have htext := isText_attributeText_of_isSingle hsingle h hv
        rw [htext.isSingle]
        exact List.forall_mem_singleton.mpr htext
    · rw [attributeText_union]
      refine isText_unionOf fun x hx => ?_
      obtain ⟨t, ht, hx⟩ := mem_texts_iff.mp hx
      exact ih t ht (isPrimitive_union.mp h t ht) x hx

/-- A literal among texts is a member of their normal union, or has given way to `string`. -/
theorem mem_or_string_mem_unionOf (h : ∀ x ∈ ts.flatMap members, IsText x) {text : String}
    (htext : stringLiteral text ∈ ts.flatMap members) :
    stringLiteral text ∈ (unionOf ts).members ∨ string ∈ (unionOf ts).members := by
  have hunites := unites_unionOf (fun m hm => (h m hm).isSingle) (mt (h any) nofun)
  have hunknown : ¬ First unknown (ts.flatMap members) := fun hfirst =>
    absurd (h _ hfirst.mem) nofun
  have hfirst : First (stringLiteral text) (ts.flatMap members) :=
    (isAtom_stringLiteral text).first_iff.mpr htext
  rcases kept_or_base (S := (First · (ts.flatMap members))) hunknown hfirst with
    hnever | hkept | ⟨c, hliteral, hkept⟩
  · cases hnever
  · exact .inl ((hunites.mem_iff _).mpr (.inl hkept))
  · cases hliteral
    exact .inr ((hunites.mem_iff _).mpr (.inl hkept))

/-- Texts are nested no deeper than one union. -/
theorem depth_attributeText_le (h : v.isPrimitive = true) : v.attributeText.depth ≤ 1 := by
  have htext := isText_attributeText h
  have hflat : ∀ {x : StaticType}, IsText x → x.depth = 0 := by
    intro x hx
    cases hx <;> rfl
  rcases isSingle_or_eq_union v.attributeText with hsingle | ⟨xs, hxs⟩
  · rw [hsingle, List.forall_mem_singleton] at htext
    rw [hflat htext]
    exact Nat.zero_le 1
  · rw [hxs] at htext ⊢
    refine heightOfTypes_le fun x hx => ?_
    rw [hflat (htext x hx)]
    exact Nat.one_pos

/-! ### The text of a union -/

theorem isText_texts (hprimitive : ∀ v ∈ vs, v.isPrimitive = true) :
    ∀ x ∈ (vs.map attributeText).flatMap members, IsText x := by
  intro x hx
  obtain ⟨v, hv, hx⟩ := mem_texts_iff.mp hx
  exact isText_attributeText (hprimitive v hv) x hx

theorem mem_attributeText_union (hprimitive : ∀ v ∈ vs, v.isPrimitive = true)
    (hx : x ∈ (union vs).attributeText.members) :
    x = never ∨ ∃ v ∈ vs, x ∈ v.attributeText.members := by
  rw [attributeText_union] at hx
  rcases mem_of_mem_unionOf_texts (isText_texts hprimitive) hx with hx | hnever
  · exact .inr (mem_texts_iff.mp hx)
  · exact .inl hnever

/-- With `boolean` among its members a union has two texts at least, or all. -/
theorem attributeText_union_ne_of_boolean (hprimitive : ∀ v ∈ vs, v.isPrimitive = true)
    (hboolean : boolean ∈ vs) {text : String} :
    (union vs).attributeText ≠ stringLiteral text := by
  intro heq
  have hstays : ∀ shown, stringLiteral shown ∈ boolean.attributeText.members →
      shown = text := by
    intro shown hshown
    have hmem := mem_or_string_mem_unionOf (isText_texts hprimitive)
      (mem_texts_iff.mpr ⟨boolean, hboolean, hshown⟩)
    rw [← attributeText_union, heq] at hmem
    simpa [members] using hmem
  rw [members_attributeText_boolean] at hstays
  have hsame : "true" = "false" := (hstays "true" (by simp)).trans (hstays "false" (by simp)).symm
  exact absurd hsame (by decide)

/-- A single text of several members is the text of one of them. -/
theorem attributeText_union_of_isSingle (hsingle : ∀ v ∈ vs, IsSingle v)
    (hprimitive : ∀ v ∈ vs, v.isPrimitive = true) (hone : IsSingle (union vs).attributeText) :
    (union vs).attributeText = never ∨
      ∃ v ∈ vs, (union vs).attributeText = v.attributeText := by
  have hself : (union vs).attributeText ∈ (union vs).attributeText.members :=
    hone.symm ▸ List.mem_singleton_self _
  rcases mem_attributeText_union hprimitive hself with hnever | ⟨v, hv, hx⟩
  · exact .inl hnever
  · have hboolean : v ≠ boolean := by
      rintro rfl
      rw [members_attributeText_boolean, List.mem_cons, List.mem_singleton] at hx
      rcases hx with heq | heq <;> exact attributeText_union_ne_of_boolean hprimitive hv heq
    have htext := isText_attributeText_of_isSingle (hsingle v hv) (hprimitive v hv) hboolean
    rw [htext.isSingle, List.mem_singleton] at hx
    exact .inr ⟨v, hv, hx⟩

end Texts

/-! ## Targets that take texts -/

section Targets

variable {n : Nat} {t v m x : StaticType} {vs : List StaticType}

theorem assignableWithin_literal_of_string (text : String)
    (h : assignableWithin n t .string = true) :
    assignableWithin n t (.stringLiteral text) = true := by
  induction n generalizing t with
  | zero => rfl
  | succ n ih =>
    cases t with
    | union ts =>
      rw [union_assignableWithin rfl, List.any_eq_true] at h ⊢
      obtain ⟨s, hs, hfits⟩ := h
      exact ⟨s, hs, ih hfits⟩
    | _ => first | rfl | exact absurd h Bool.false_ne_true

theorem assignableWithin_of_isText (h : assignableWithin n t .string = true) (hx : IsText x) :
    assignableWithin n t x = true := by
  cases hx with
  | nothing => exact assignableWithin_of_vague rfl n t
  | all => exact h
  | literal text => exact assignableWithin_literal_of_string text h

/-- What takes a type takes its members, which are looked at one step less deep in a union. -/
theorem assignableWithin_of_mem_members (h : assignableWithin (n + 1) t v = true)
    (hx : x ∈ v.members) : assignableWithin n t x = true := by
  rcases isSingle_or_eq_union v with hsingle | ⟨vs, rfl⟩
  · rw [hsingle, List.mem_singleton] at hx
    rw [hx]
    exact assignableWithin_of_succ h
  · rw [assignableWithin_union, List.all_eq_true] at h
    exact h x hx

/-- A target that takes every text takes all texts together. -/
theorem assignable_of_isText (ht : t.assignable .string = true) (h : ∀ x ∈ v.members, IsText x) :
    t.assignable v = true := by
  rcases isSingle_or_eq_union v with hsingle | ⟨vs, rfl⟩
  · rw [hsingle, List.forall_mem_singleton] at h
    exact assignableWithin_of_isText ht h
  · rw [assignable, depthLimit, assignableWithin_union, List.all_eq_true]
    exact fun x hx => assignableWithin_of_isText (assignableWithin_of_succ ht) (h x hx)

theorem assignable_attributeText (ht : t.assignable .string = true) (hv : v.isPrimitive = true) :
    t.assignable v.attributeText = true :=
  assignable_of_isText ht (isText_attributeText hv)

theorem assignable_union (h : ∀ v ∈ vs, t.assignable v = true) :
    t.assignable (.union vs) = true := by
  rw [assignable, depthLimit, assignableWithin_union, List.all_eq_true]
  exact fun v hv => assignableWithin_of_succ (h v hv)

/-- A target that takes the text of each member takes the text of the union. -/
theorem assignable_attributeText_union (hsingle : ∀ v ∈ vs, IsSingle v)
    (hprimitive : ∀ v ∈ vs, v.isPrimitive = true)
    (h : ∀ v ∈ vs, t.assignable v.attributeText = true) :
    t.assignable (union vs).attributeText = true := by
  rcases isSingle_or_eq_union (union vs).attributeText with hone | ⟨xs, hxs⟩
  · rcases attributeText_union_of_isSingle hsingle hprimitive hone with hnever | ⟨v, hv, htext⟩
    · rw [hnever]
      exact assignableWithin_of_vague rfl depthLimit t
    · rw [htext]
      exact h v hv
  · rw [hxs, assignable, depthLimit, assignableWithin_union, List.all_eq_true]
    intro x hx
    have hmem : x ∈ (union vs).attributeText.members := by
      rw [hxs]
      exact hx
    rcases mem_attributeText_union hprimitive hmem with hnever | ⟨v, hv, hx⟩
    · rw [hnever]
      exact assignableWithin_of_vague rfl _ t
    · exact assignableWithin_of_mem_members (h v hv) hx

/-! ### Members of what is taken -/

/-- A target that takes a type takes its members. -/
theorem assignable_of_mem_members (hdepth : t.depth + v.depth + 2 ≤ depthLimit)
    (h : t.assignable v = true) (hm : m ∈ v.members) : t.assignable m = true := by
  rcases isSingle_or_eq_union v with hsingle | ⟨vs, rfl⟩
  · rw [hsingle, List.mem_singleton] at hm
    exact hm ▸ h
  · have hlt : m.depth < (union vs).depth := depth_lt_of_mem_parts (t := .union vs) hm
    rw [assignable_eq_accepts hdepth, accepts_union, List.all_eq_true] at h
    rw [assignable_eq_accepts (by omega)]
    exact h m hm

/-- A target that takes the text of a union takes the texts of its members. -/
theorem assignable_attributeText_of_mem (hdepth : t.depth + 3 ≤ depthLimit)
    (hprimitive : (union vs).isPrimitive = true)
    (h : t.assignable (union vs).attributeText = true) (hm : m ∈ vs) :
    t.assignable m.attributeText = true := by
  have hall := isPrimitive_union.mp hprimitive
  have htexts := isText_texts hall
  have hunion := depth_attributeText_le hprimitive
  have hmember := depth_attributeText_le (hall m hm)
  have hequivalent := equivalent_unionOf (mt (htexts any) nofun) (mt (htexts unknown) nofun)
  rw [assignable_eq_accepts (by omega), attributeText_union, hequivalent.accepted, accepts_union,
    List.all_eq_true] at h
  rw [assignable_eq_accepts (by omega)]
  exact h _ (List.mem_map_of_mem hm)

end Targets

end StaticType
end Inlay
