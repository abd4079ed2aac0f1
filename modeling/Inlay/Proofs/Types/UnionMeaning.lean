import Inlay.Proofs.Types.Interchange
import Inlay.Proofs.Types.NormalForm

/-!
# What a normal union means

Making a normal union drops members, and writes one for two.  None of this changes what the union
accepts or what accepts it: each member that goes is `Within` the ones that stay, and the other way
round.  So the normal union and the plain one stand for the same type, `equivalent_unionOf`.

With `any` or `unknown` among the types this fails: every target takes these, and so it takes the
normal union, but it takes the plain one only if it takes the other members as well.
-/

namespace Inlay
namespace StaticType

/-- The types accept the same values, and the same targets accept them. -/
structure Equivalent (t u : StaticType) : Prop where
  accepts : ∀ v, t.accepts v = u.accepts v
  accepted : ∀ w : StaticType, w.accepts t = w.accepts u

theorem Equivalent.trans {s t u : StaticType} (hst : Equivalent s t) (htu : Equivalent t u) :
    Equivalent s u :=
  ⟨fun v => (hst.accepts v).trans (htu.accepts v), fun w => (hst.accepted w).trans (htu.accepted w)⟩

/-- The type adds nothing to those in `S`: what it accepts one of them accepts, and what accepts
all of them accepts it. -/
structure Within (S : StaticType → Prop) (m : StaticType) : Prop where
  accepts : ∀ {v : StaticType}, v.isDirect = true → m.accepts v = true →
    ∃ x, S x ∧ x.accepts v = true
  accepted : ∀ {w : StaticType}, (∀ x, S x → w.accepts x = true) → w.accepts m = true

/-! ## Literals and their base types -/

section Literals

variable {l c t v w : StaticType}

/-- To compare two direct values it is enough to look at targets that are no unions. -/
theorem accepts_of_isSingle (hv : v.isDirect = true) (hw : w.isDirect = true)
    (h : ∀ t : StaticType, IsSingle t → t.accepts v = true → t.accepts w = true)
    (hfits : t.accepts v = true) : t.accepts w = true := by
  induction t using inductionOnParts with
  | step t ih =>
    rcases isSingle_or_eq_union t with hsingle | ⟨ts, rfl⟩
    · exact h t hsingle hfits
    · rw [union_accepts hv, List.any_eq_true] at hfits
      rw [union_accepts hw, List.any_eq_true]
      obtain ⟨m, hm, hmv⟩ := hfits
      exact ⟨m, hm, ih m hm hmv⟩

/-- What accepts a base type accepts its literals. -/
theorem IsLiteralOf.accepted (h : IsLiteralOf l c) (hc : t.accepts c = true) :
    t.accepts l = true := by
  cases h with
  | boolean b =>
    rw [accepts_boolean, Bool.and_eq_true] at hc
    cases b
    · exact hc.2
    · exact hc.1
  | string s =>
    refine accepts_of_isSingle rfl rfl (fun t hsingle hstring => ?_) hc
    cases t with
    | union ts => exact absurd hsingle (not_isSingle_union ts)
    | _ => first | rfl | exact absurd hstring Bool.false_ne_true
  | number x =>
    refine accepts_of_isSingle rfl rfl (fun t hsingle hnumber => ?_) hc
    cases t with
    | union ts => exact absurd hsingle (not_isSingle_union ts)
    | _ => first | rfl | exact absurd hnumber Bool.false_ne_true

/-- A base type accepts what its literals accept. -/
theorem IsLiteralOf.accepts (h : IsLiteralOf l c) (hv : v.isDirect = true)
    (hl : l.accepts v = true) : c.accepts v = true := by
  cases h <;> cases v <;> first
    | rfl
    | exact absurd hl Bool.false_ne_true
    | exact absurd hv Bool.false_ne_true

theorem booleanLiteral_accepts_self (b : Bool) :
    (booleanLiteral b).accepts (booleanLiteral b) = true :=
  beq_self_eq_true b

/-- A direct value of `boolean` is one of its literals. -/
theorem eq_booleanLiteral_of_accepts (hv : v.isDirect = true) (h : boolean.accepts v = true) :
    ∃ b, v = booleanLiteral b := by
  cases v <;> first
    | exact ⟨_, rfl⟩
    | exact absurd h Bool.false_ne_true
    | exact absurd hv Bool.false_ne_true

end Literals

/-! ## Members that add nothing -/

section Within

variable {S T : StaticType → Prop} {l c m x : StaticType} {ms : List StaticType}

theorem Within.of_mem (h : S m) : Within S m := ⟨fun _ hv => ⟨m, h, hv⟩, fun hall => hall m h⟩

theorem Within.trans (h : Within T m) (hT : ∀ x, T x → Within S x) : Within S m where
  accepts hv hm := by
    obtain ⟨x, hx, hxv⟩ := h.accepts hv hm
    exact (hT x hx).accepts hv hxv
  accepted hall := h.accepted fun x hx => (hT x hx).accepted hall

theorem Within.never : Within S never where
  accepts {v} hv hnever := by
    cases v <;> first
      | exact absurd hnever Bool.false_ne_true
      | exact absurd hv Bool.false_ne_true
  accepted _ := accepts_of_vague rfl

theorem Within.of_same (hx : S x) (h : x = m ∨ x.same m = true) : Within S m := by
  rcases h with rfl | h
  · exact .of_mem hx
  · exact ⟨fun _ hv => ⟨x, hx, accepts_of_same (same_symm x h) hv⟩,
      fun hall => accepts_same h (hall x hx)⟩

theorem Within.of_isLiteralOf (h : IsLiteralOf l c) (hc : S c) : Within S l :=
  ⟨fun hv hl => ⟨c, hc, h.accepts hv hl⟩, fun hall => h.accepted (hall c hc)⟩

theorem Within.boolean (h : JoinsBooleans S) : Within S boolean := by
  rcases h with ⟨htrue, hfalse⟩ | h
  · refine ⟨fun hv hboolean => ?_, fun hall => ?_⟩
    · obtain ⟨b, rfl⟩ := eq_booleanLiteral_of_accepts hv hboolean
      cases b
      · exact ⟨_, hfalse, booleanLiteral_accepts_self false⟩
      · exact ⟨_, htrue, booleanLiteral_accepts_self true⟩
    · rw [accepts_boolean, hall _ htrue, hall _ hfalse]
      rfl
  · exact .of_mem h

theorem Within.gathered (h : Gathered S m) : Within S m := by
  rcases h with h | ⟨rfl, hjoins⟩
  · exact .of_mem h
  · exact .boolean hjoins

/-- Nothing is lost with the types that a normal union leaves out. -/
theorem Within.kept (hu : ¬ S unknown) (hm : S m) : Within (Kept S) m := by
  rcases kept_or_base hu hm with rfl | h | ⟨c, hliteral, hc⟩
  · exact .never
  · exact .of_mem h
  · exact .of_isLiteralOf hliteral hc

theorem Within.of_union (h : S (.union ms)) (hm : m ∈ ms) : Within S m where
  accepts hv hmv := by
    refine ⟨_, h, ?_⟩
    rw [union_accepts hv]
    exact List.any_eq_true.mpr ⟨m, hm, hmv⟩
  accepted hall := by
    have hunion := hall _ h
    rw [accepts_union] at hunion
    exact List.all_eq_true.mp hunion m hm

theorem Within.union (h : ∀ m ∈ ms, S m) : Within S (.union ms) where
  accepts hv hunion := by
    rw [union_accepts hv] at hunion
    obtain ⟨m, hm, hmv⟩ := List.any_eq_true.mp hunion
    exact ⟨m, h m hm, hmv⟩
  accepted hall := by
    rw [accepts_union]
    exact List.all_eq_true.mpr fun m hm => hall m (h m hm)

end Within

/-! ## Unions of the same meaning -/

section Unions

variable {ts us : List StaticType}

/-- Unions are equivalent when no member of one adds anything to the other. -/
theorem equivalent_union (hts : ∀ t ∈ ts, Within (· ∈ us) t) (hus : ∀ u ∈ us, Within (· ∈ ts) u) :
    Equivalent (.union ts) (.union us) where
  accepts v := by
    have hle : ∀ {xs ys : List StaticType}, (∀ x ∈ xs, Within (· ∈ ys) x) →
        ∀ {v : StaticType}, v.isDirect = true → (xs.any fun x => x.accepts v) = true →
          (ys.any fun y => y.accepts v) = true := by
      intro xs ys h v hv hany
      obtain ⟨x, hx, hxv⟩ := List.any_eq_true.mp hany
      exact List.any_eq_true.mpr ((h x hx).accepts hv hxv)
    refine accepts_eq_of_direct (fun v hv => ?_) v
    rw [union_accepts hv, union_accepts hv, Bool.eq_iff_iff]
    exact ⟨hle hts hv, hle hus hv⟩
  accepted w := by
    rw [accepts_union, accepts_union, Bool.eq_iff_iff, List.all_eq_true, List.all_eq_true]
    exact ⟨fun hall u hu => (hus u hu).accepted hall, fun hall t ht => (hts t ht).accepted hall⟩

theorem equivalent_ofMembers (ts : List StaticType) : Equivalent (ofMembers ts) (.union ts) := by
  match ts with
  | [] =>
    refine ⟨accepts_eq_of_direct fun v hv => ?_, fun w => ?_⟩
    · rw [union_accepts hv]
      cases v <;> first | rfl | exact absurd hv Bool.false_ne_true
    · rw [accepts_union]
      exact accepts_of_vague rfl
  | [t] =>
    refine ⟨accepts_eq_of_direct fun v hv => ?_, fun w => ?_⟩
    · rw [union_accepts hv, List.any_cons, List.any_nil, Bool.or_false]
      rfl
    · rw [accepts_union, List.all_cons, List.all_nil, Bool.and_true]
      rfl
  | t :: u :: rest => exact ⟨fun _ => rfl, fun _ => rfl⟩

/-- Unions among the members may be taken apart. -/
theorem equivalent_flatMap_members (ts : List StaticType) :
    Equivalent (.union (ts.flatMap members)) (.union ts) := by
  refine equivalent_union (fun m hm => ?_) fun t ht => ?_
  · obtain ⟨t, ht, hm⟩ := List.mem_flatMap.mp hm
    rcases isSingle_or_eq_union t with hsingle | ⟨ms, rfl⟩
    · rw [hsingle, List.mem_singleton] at hm
      exact .of_mem (hm ▸ ht)
    · exact .of_union ht hm
  · have hmem : ∀ m ∈ t.members, m ∈ ts.flatMap members := fun m hm =>
      List.mem_flatMap.mpr ⟨t, ht, hm⟩
    rcases isSingle_or_eq_union t with hsingle | ⟨ms, rfl⟩
    · exact .of_mem (hmem t (hsingle.symm ▸ List.mem_singleton_self t))
    · exact .union hmem

/-- What is left out of distinct members, and what is left out as said before, adds nothing. -/
theorem equivalent_reduced (hunknown : unknown ∉ ts.flatMap members) :
    Equivalent (.union (reduced (distinctMembers ts))) (.union (ts.flatMap members)) := by
  have hreduced : (· ∈ reduced (distinctMembers ts)) = Kept (First · (ts.flatMap members)) :=
    funext fun _ => propext (mem_reduced_distinctMembers hunknown)
  refine equivalent_union (fun m hm => ?_) fun m hm => ?_
  · have hgathered := ((mem_reduced_distinctMembers hunknown).mp hm).1
    exact (Within.gathered hgathered).trans fun x hx => .of_mem hx.mem
  · obtain ⟨y, hy, hym⟩ := exists_first_of_mem hm
    rw [hreduced]
    exact (Within.of_same hy hym).trans fun x hx => .kept (fun h => hunknown h.mem) hx

/-- The normal union of types means what their plain union means. -/
theorem equivalent_unionOf (hany : any ∉ ts.flatMap members)
    (hunknown : unknown ∉ ts.flatMap members) : Equivalent (unionOf ts) (.union ts) := by
  rw [unionOf_eq hany hunknown]
  exact ((equivalent_ofMembers _).trans (equivalent_reduced hunknown)).trans
    (equivalent_flatMap_members ts)

/-! ## Within the limit -/

theorem depth_ofMembers_le {d : Nat} (h : ∀ t ∈ ts, t.depth ≤ d) :
    (ofMembers ts).depth ≤ d + 1 := by
  match ts with
  | [] => exact Nat.zero_le _
  | [t] => exact Nat.le_succ_of_le (h t (List.mem_singleton_self t))
  | t :: u :: rest => exact heightOfTypes_le fun s hs => Nat.lt_succ_of_le (h s hs)

/-- A normal union is nested at most one deeper than the types that it is made of. -/
theorem depth_unionOf_le (hany : any ∉ ts.flatMap members)
    (hunknown : unknown ∉ ts.flatMap members) {d : Nat} (h : ∀ t ∈ ts, t.depth ≤ d) :
    (unionOf ts).depth ≤ d + 1 := by
  have hmembers : ∀ m ∈ ts.flatMap members, m.depth ≤ d := by
    intro m hm
    obtain ⟨t, ht, hm⟩ := List.mem_flatMap.mp hm
    refine Nat.le_trans ?_ (h t ht)
    rcases isSingle_or_eq_union t with hsingle | ⟨ms, rfl⟩
    · rw [hsingle, List.mem_singleton] at hm
      exact Nat.le_of_eq (congrArg depth hm)
    · exact Nat.le_of_lt (depth_lt_of_mem_parts (t := .union ms) hm)
  rw [unionOf_eq hany hunknown]
  refine depth_ofMembers_le fun m hm => ?_
  rcases ((mem_reduced_distinctMembers hunknown).mp hm).1 with hfirst | ⟨rfl, -⟩
  · exact hmembers m hfirst.mem
  · exact Nat.zero_le d

/-- Making a normal union keeps what assignability says in both directions, and gives a type in
normal form, which is made again from its members.  The types are nested less deep than
assignability looks: the union puts one more level on top of them. -/
theorem unionOf_keeps_assignable (ts : List StaticType) :
    (any ∉ ts.flatMap members → unknown ∉ ts.flatMap members → (∀ t ∈ ts, t.depth ≤ 7) →
      ∀ u : StaticType, u.depth ≤ 7 → (unionOf ts).assignable u = (union ts).assignable u ∧
        u.assignable (unionOf ts) = u.assignable (union ts)) ∧
    ((∀ t ∈ ts, IsNormalForm t) →
      IsNormalForm (unionOf ts) ∧ unionOf (unionOf ts).members = unionOf ts) := by
  constructor
  · intro hany hunknown hts u hu
    have hequivalent := equivalent_unionOf hany hunknown
    have hnormal : (unionOf ts).depth ≤ 8 := depth_unionOf_le hany hunknown hts
    have hplain : (union ts).depth ≤ 8 := heightOfTypes_le fun t ht => Nat.lt_succ_of_le (hts t ht)
    have hdeep : ∀ {a b : StaticType}, a.depth + b.depth ≤ 15 → a.assignable b = a.accepts b :=
      fun h => assignable_eq_accepts (Nat.add_le_add_right h 2)
    rw [hdeep (by omega), hdeep (by omega), hdeep (by omega), hdeep (by omega)]
    exact ⟨hequivalent.accepts u, hequivalent.accepted u⟩
  · intro hts
    have hform := isNormalForm_unionOf hts
    exact ⟨hform, unionOf_members hform⟩

/-- Every way in which members go, next to types that are nested as deep as they may be. -/
theorem unionOf_keeps_assignable_of_nested :
    let shut := array (array (array (array (array (array (booleanLiteral false))))))
    let ts := [union [stringLiteral "open", booleanLiteral true, shut], string, never,
      booleanLiteral false, shut, union [null, string]]
    let u := union [boolean, stringLiteral "ajar", shut]
    (any ∉ ts.flatMap members ∧ unknown ∉ ts.flatMap members ∧ (∀ t ∈ ts, t.depth ≤ 7) ∧
      u.depth ≤ 7 ∧ ∀ t ∈ ts, IsNormalForm t) ∧
    ((unionOf ts).assignable u = (union ts).assignable u ∧
      u.assignable (unionOf ts) = u.assignable (union ts)) ∧
    IsNormalForm (unionOf ts) ∧ unionOf (unionOf ts).members = unionOf ts := by
  intro shut ts u
  have hstate : IsNormalForm (union [stringLiteral "open", booleanLiteral true, shut]) :=
    isNormalForm_union (by with_unfolding_all rfl) (by simp [IsSingle, members, shut])
  have htext : IsNormalForm (union [null, string]) :=
    isNormalForm_union (by with_unfolding_all rfl) (by simp [IsSingle, members])
  have hform : ∀ t ∈ ts, IsNormalForm t := by
    simp only [ts, List.forall_mem_cons]
    exact ⟨hstate, IsSingle.isNormalForm rfl, IsSingle.isNormalForm rfl,
      IsSingle.isNormalForm rfl, IsSingle.isNormalForm rfl, htext, nofun⟩
  have hany : any ∉ ts.flatMap members := by simp [ts, members, shut]
  have hunknown : unknown ∉ ts.flatMap members := by simp [ts, members, shut]
  have hdepth : ∀ t ∈ ts, t.depth ≤ 7 := by simp [ts, shut, depth, heightOfTypes]
  have hdepth' : u.depth ≤ 7 := by simp [u, shut, depth, heightOfTypes]
  exact ⟨⟨hany, hunknown, hdepth, hdepth', hform⟩,
    (unionOf_keeps_assignable ts).1 hany hunknown hdepth u hdepth',
    (unionOf_keeps_assignable ts).2 hform⟩

end Unions

end StaticType
end Inlay
