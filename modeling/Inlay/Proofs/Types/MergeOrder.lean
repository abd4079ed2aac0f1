import Inlay.Catalog.Descriptor
import Inlay.Proofs.Types.Interchange
import Inlay.Proofs.Types.NormalForm
import Mathlib.Data.List.Forall2

/-!
# Merging in any order

What several types say together is described by `Says` without an order of merging: the members
are those of the normal union of all.  `Says.merge` holds for any grouping, so only the order of the
types is left.  It decides which of two types that are the same is kept, and nothing else:
`Says.sameMembers`.

The members of two types are compared up to sameness, since `0` and `-0` are the same and the one
that comes first is kept.
-/

namespace Inlay
namespace StaticType

/-- The types have the same members, in any order. -/
def SameMembers (t u : StaticType) : Prop :=
  ∃ ms : List StaticType, ms.Perm u.members ∧
    List.Forall₂ (fun x y => x.same y = true) t.members ms

/-- A type in normal form whose number literals are numbers. -/
structure IsClean (t : StaticType) : Prop where
  form : t.IsNormalForm
  numeric : t.IsNumeric

theorem isClean_union {ms : List StaticType} (h : unionOf ms = .union ms)
    (hleaf : ∀ m ∈ ms, m.isLeaf = true ∧ m ≠ .numberLiteral .nan) : (union ms).IsClean := by
  refine ⟨isNormalForm_union h fun m hm => ?_, isNumeric_of_parts nofun fun m hm => ?_⟩
  · obtain ⟨hleaf, -⟩ := hleaf m hm
    cases m <;> first | rfl | cases hleaf
  · obtain ⟨hleaf, hnan⟩ := hleaf m hm
    have hparts : m.parts = [] := by
      cases m <;> first | rfl | cases hleaf
    exact isNumeric_of_parts hnan fun s hs => absurd (hparts ▸ hs) List.not_mem_nil

/-! ## Lists of the same types -/

section Lists

variable {ts us xs ys : List StaticType}

/-- Every type of the first list is the same as one of the second. -/
def Covered (xs ys : List StaticType) : Prop := ∀ x ∈ xs, ∃ y ∈ ys, x.same y = true

theorem Differ.perm (h : Differ xs) (hperm : xs.Perm ys) : Differ ys :=
  (hperm.pairwise_iff fun {_ b} hab => Bool.eq_false_iff.mpr fun hba =>
    Bool.false_ne_true (hab.symm.trans (same_symm b hba))).mp h

/-- Lists of different types that cover each other are the same up to the order. -/
theorem exists_perm_of_covered (hxs : Differ xs) (hys : Differ ys) (hcovered : Covered xs ys)
    (hcovers : Covered ys xs) :
    ∃ ms : List StaticType, ms.Perm ys ∧ List.Forall₂ (fun x y => x.same y = true) xs ms := by
  induction xs generalizing ys with
  | nil =>
    cases ys with
    | nil => exact ⟨[], .refl [], .nil⟩
    | cons y ys =>
      obtain ⟨x, hx, -⟩ := hcovers y List.mem_cons_self
      exact absurd hx List.not_mem_nil
  | cons x xs ih =>
    obtain ⟨hx, hxs⟩ := List.pairwise_cons.mp hxs
    obtain ⟨y, hy, hxy⟩ := hcovered x List.mem_cons_self
    obtain ⟨before, behind, rfl⟩ := List.append_of_mem hy
    have hperm : (before ++ y :: behind).Perm (y :: (before ++ behind)) := List.perm_middle
    obtain ⟨hy, hrest⟩ := List.pairwise_cons.mp (hys.perm hperm)
    -- `x` and `y` are the same, so what is left on both sides is the same as neither of them.
    have hcovered : Covered xs (before ++ behind) := by
      intro x' hx'
      obtain ⟨y', hy', hxy'⟩ := hcovered x' (List.mem_cons_of_mem x hx')
      rcases List.mem_cons.mp (hperm.mem_iff.mp hy') with rfl | hy'
      · have hxx' := same_trans x hxy (same_symm x' hxy')
        exact absurd ((hx x' hx').symm.trans hxx') Bool.false_ne_true
      · exact ⟨y', hy', hxy'⟩
    have hcovers : Covered (before ++ behind) xs := by
      intro y' hy'
      obtain ⟨x', hx', hyx'⟩ := hcovers y' (hperm.mem_iff.mpr (List.mem_cons_of_mem y hy'))
      rcases List.mem_cons.mp hx' with rfl | hx'
      · have hyy' := same_symm y' (same_trans y' hyx' hxy)
        exact absurd ((hy y' hy').symm.trans hyy') Bool.false_ne_true
      · exact ⟨x', hx', hyx'⟩
    obtain ⟨ms, hms, hsame⟩ := ih hxs hrest hcovered hcovers
    exact ⟨y :: ms, (hms.cons y).trans hperm.symm, .cons hxy hsame⟩

end Lists

/-! ## Normal unions of reordered types -/

section Reordered

variable {t u m : StaticType} {ts us : List StaticType}

/-- What is left out does not depend on the order. -/
theorem LeftOut.of_mem_iff (h : ∀ m, m ∈ ts → m ∈ us) (hout : LeftOut (First · ts) m) :
    LeftOut (First · us) m :=
  hout.imp fun {c} hc hfirst => hc.first_iff.mpr (h c (hc.first_iff.mp hfirst))

/-- Of the same types in another order the same ones are kept. -/
theorem Kept.of_mem_iff (h : ∀ m, m ∈ ts ↔ m ∈ us) (hself : ∀ m ∈ ts, m.same m = true)
    (hm : Kept (First · ts) m) : ∃ x, Kept (First · us) x ∧ x.same m = true := by
  obtain ⟨hgathered, hout⟩ := hm
  rcases hgathered with hfirst | ⟨rfl, hjoins⟩
  · obtain ⟨x, hx, hxm⟩ := exists_first_of_mem ((h m).mp hfirst.mem)
    have hxm : x.same m = true := by
      rcases hxm with rfl | hxm
      · exact hself x hfirst.mem
      · exact hxm
    refine ⟨x, ⟨.inl hx, fun hout' => hout ?_⟩, hxm⟩
    exact (hout'.of_same hxm).of_mem_iff fun m => (h m).mpr
  · have hjoins : JoinsBooleans (First · us) :=
      hjoins.imp fun {c} hc hfirst => hc.first_iff.mpr ((h c).mp (hc.first_iff.mp hfirst))
    refine ⟨boolean, ⟨.inr ⟨rfl, hjoins⟩, fun hout' => hout ?_⟩, isAtom_boolean.left.mpr rfl⟩
    exact hout'.of_mem_iff fun m => (h m).mpr

theorem NormalMember.of_mem_iff (h : ∀ m, m ∈ ts ↔ m ∈ us) (hself : ∀ m ∈ ts, m.same m = true)
    (hm : NormalMember (First · ts) m) : ∃ x, NormalMember (First · us) x ∧ x.same m = true := by
  rcases hm with hm | ⟨rfl, hnone⟩
  · obtain ⟨x, hx, hxm⟩ := hm.of_mem_iff h hself
    exact ⟨x, .inl hx, hxm⟩
  · have hself' : ∀ m ∈ us, m.same m = true := fun m hm => hself m ((h m).mpr hm)
    refine ⟨never, .inr ⟨rfl, fun x hx => ?_⟩, isAtom_never.left.mpr rfl⟩
    obtain ⟨y, hy, -⟩ := hx.of_mem_iff (fun m => (h m).symm) hself'
    exact hnone y hy

theorem Unites.covered (ht : Unites t ts) (hu : Unites u us) (h : ∀ m, m ∈ ts ↔ m ∈ us)
    (hself : ∀ m ∈ ts, m.same m = true) : Covered t.members u.members := by
  intro m hm
  obtain ⟨x, hx, hxm⟩ := ((ht.mem_iff m).mp hm).of_mem_iff h hself
  exact ⟨x, (hu.mem_iff x).mpr hx, same_symm x hxm⟩

theorem Unites.sameMembers (ht : Unites t ts) (hu : Unites u us) (h : ∀ m, m ∈ ts ↔ m ∈ us)
    (hself : ∀ m ∈ ts, m.same m = true) : SameMembers t u :=
  exists_perm_of_covered ht.differ hu.differ (ht.covered hu h hself)
    (hu.covered ht (fun m => (h m).symm) fun m hm => hself m ((h m).mpr hm))

theorem sameMembers_any : SameMembers any any :=
  ⟨[any], .refl _, .cons (isAtom_any.left.mpr rfl) .nil⟩

theorem IsNumeric.same_members (h : t.IsNumeric) : ∀ m ∈ t.members, m.same m = true := by
  intro m hm
  cases t with
  | union ts => exact same_self (h.part hm)
  | _ => exact List.mem_singleton.mp hm ▸ same_self h

/-- What types say together does not depend on the order in which they are listed. -/
theorem Says.sameMembers (ht : t.Says ts) (hu : u.Says us) (hperm : ts.Perm us)
    (hnumeric : ∀ s ∈ ts, s.IsNumeric) : SameMembers t u := by
  cases ht with
  | nothing hall heq =>
    rw [heq, hu.eq_any fun s hs => hall s (hperm.mem_iff.mpr hs)]
    exact sameMembers_any
  | members hsome _ _ hunites =>
    cases hu with
    | nothing hall =>
      obtain ⟨s, hs, hne⟩ := hsome
      exact absurd (hall s (hperm.mem_iff.mp hs)) hne
    | members _ _ _ hunites' =>
      have hsaid : (said ts).Perm (said us) := (hperm.filter _).flatMap_right _
      refine hunites.sameMembers hunites' (fun m => hsaid.mem_iff) fun m hm => ?_
      obtain ⟨s, hs, hm⟩ := List.mem_flatMap.mp hm
      exact (hnumeric s (List.mem_filter.mp hs).1).same_members m hm

end Reordered

/-! ## Merging -/

section Merging

variable {a b c t : StaticType}

theorem IsNormalForm.says_self (h : t.IsNormalForm) : t.Says [t] :=
  IsNormal.says (isNormal_iff.mpr h)

theorem IsNormalForm.merge (ha : a.IsNormalForm) (hb : b.IsNormalForm) :
    (a.merge b).IsNormalForm :=
  isNormal_iff.mp ((isNormal_iff.mpr ha).merge (isNormal_iff.mpr hb))

theorem merge_comm (ha : a.IsClean) (hb : b.IsClean) : SameMembers (a.merge b) (b.merge a) := by
  refine (ha.form.says_self.merge hb.form.says_self).sameMembers
    (hb.form.says_self.merge ha.form.says_self) (List.Perm.swap b a []) ?_
  exact List.forall_mem_cons.mpr ⟨ha.numeric, List.forall_mem_singleton.mpr hb.numeric⟩

theorem merge_assoc (ha : a.IsClean) (hb : b.IsClean) (hc : c.IsClean) :
    SameMembers ((a.merge b).merge c) (a.merge (b.merge c)) := by
  refine ((ha.form.says_self.merge hb.form.says_self).merge hc.form.says_self).sameMembers
    (ha.form.says_self.merge (hb.form.says_self.merge hc.form.says_self)) (.refl _) ?_
  simp only [List.cons_append, List.nil_append, List.forall_mem_cons]
  exact ⟨ha.numeric, hb.numeric, hc.numeric, nofun⟩

theorem any_merge (a : StaticType) : any.merge a = a := by
  rw [merge, isAny, if_pos rfl]

theorem merge_any (a : StaticType) : a.merge any = a := by
  rw [merge]
  split
  · next h => exact (isAny_iff.mp h).symm
  · rw [isAny, if_pos rfl]

theorem merge_self (h : a.IsNumeric) : a.merge a = a := by
  rw [merge, same_self h, if_pos rfl]
  split <;> rfl

end Merging

end StaticType

namespace Descriptor

/-! ## Merging descriptors -/

/-- An order and a grouping in which descriptors are merged. -/
inductive Merging where
  | single (d : Descriptor)
  | merge (first second : Merging)

namespace Merging

/-- The descriptors that are merged, in their order. -/
def descriptors : Merging → List Descriptor
  | .single d => [d]
  | .merge x y => x.descriptors ++ y.descriptors

def result : Merging → Descriptor
  | .single d => d
  | .merge x y => x.result.merge y.result

variable {x y : Merging}

theorem result_says_all (h : ∀ d ∈ x.descriptors, d.type.IsNormalForm) :
    x.result.type.Says (x.descriptors.map Descriptor.type) := by
  induction x with
  | single d => exact (h d (List.mem_singleton_self d)).says_self
  | merge x y ihx ihy =>
    rw [descriptors, List.map_append]
    exact (ihx fun d hd => h d (List.mem_append_left _ hd)).merge
      (ihy fun d hd => h d (List.mem_append_right _ hd))

theorem isNormalForm_result (h : ∀ d ∈ x.descriptors, d.type.IsNormalForm) :
    x.result.type.IsNormalForm := by
  induction x with
  | single d => exact h d (List.mem_singleton_self d)
  | merge x y ihx ihy =>
    exact (ihx fun d hd => h d (List.mem_append_left _ hd)).merge
      (ihy fun d hd => h d (List.mem_append_right _ hd))

/-- The same descriptors, in any order and grouping, are merged to a type of the same members. -/
theorem sameMembers_result (h : ∀ d ∈ x.descriptors, d.type.IsClean)
    (hperm : x.descriptors.Perm y.descriptors) : x.result.type.SameMembers y.result.type := by
  have hy : ∀ d ∈ y.descriptors, d.type.IsNormalForm := fun d hd =>
    (h d (hperm.mem_iff.mpr hd)).form
  refine (result_says_all fun d hd => (h d hd).form).sameMembers (result_says_all hy)
    (hperm.map _) ?_
  rw [List.forall_mem_map]
  exact fun d hd => (h d hd).numeric

end Merging

end Descriptor

namespace StaticType

/-- Merging types in normal form depends neither on their order nor on their grouping, nor does
the type of a member that is described in any number of places. -/
theorem merge_in_any_order :
    (∀ a b c : StaticType, a.IsClean → b.IsClean → c.IsClean →
      SameMembers (a.merge b) (b.merge a) ∧
      SameMembers ((a.merge b).merge c) (a.merge (b.merge c)) ∧
      any.merge a = a ∧ a.merge any = a ∧ a.merge a = a ∧ (a.merge b).IsNormalForm) ∧
    ∀ x y : Descriptor.Merging, (∀ d ∈ x.descriptors, d.type.IsClean) →
      x.descriptors.Perm y.descriptors →
        SameMembers x.result.type y.result.type ∧ x.result.type.IsNormalForm := by
  constructor
  · intro a b c ha hb hc
    exact ⟨merge_comm ha hb, merge_assoc ha hb hc, any_merge a, merge_any a,
      merge_self ha.numeric, ha.form.merge hb.form⟩
  · intro x y h hperm
    exact ⟨Descriptor.Merging.sameMembers_result h hperm,
      Descriptor.Merging.isNormalForm_result fun d hd => (h d hd).form⟩

/-- The two zeros, two literals of `boolean` and a text that `string` takes over, in two orders and
groupings. -/
theorem merge_in_any_order_of_zeros :
    let a := union [numberLiteral (.zero false), booleanLiteral true]
    let b := union [booleanLiteral false, numberLiteral (.zero true), stringLiteral "auto"]
    let c := union [string, null]
    let state (t : StaticType) : Descriptor.Merging := .single { name := "state", type := t }
    let x : Descriptor.Merging := .merge (.merge (state a) (state b)) (state c)
    let y : Descriptor.Merging := .merge (state c) (.merge (state b) (state a))
    (a.IsClean ∧ b.IsClean ∧ c.IsClean ∧ (∀ d ∈ x.descriptors, d.type.IsClean) ∧
      x.descriptors.Perm y.descriptors) ∧
    (SameMembers (a.merge b) (b.merge a) ∧
      SameMembers ((a.merge b).merge c) (a.merge (b.merge c)) ∧
      any.merge a = a ∧ a.merge any = a ∧ a.merge a = a ∧ (a.merge b).IsNormalForm) ∧
    SameMembers x.result.type y.result.type ∧ x.result.type.IsNormalForm := by
  intro a b c state x y
  have ha : a.IsClean := isClean_union (by with_unfolding_all rfl) (by simp [isLeaf, Number.zero])
  have hb : b.IsClean := isClean_union (by with_unfolding_all rfl) (by simp [isLeaf, Number.zero])
  have hc : c.IsClean := isClean_union (by with_unfolding_all rfl) (by simp [isLeaf])
  have hx : ∀ d ∈ x.descriptors, d.type.IsClean :=
    List.forall_mem_cons.mpr ⟨ha, List.forall_mem_cons.mpr ⟨hb, List.forall_mem_singleton.mpr hc⟩⟩
  have hperm : x.descriptors.Perm y.descriptors := (List.reverse_perm x.descriptors).symm
  exact ⟨⟨ha, hb, hc, hx, hperm⟩, merge_in_any_order.1 a b c ha hb hc,
    merge_in_any_order.2 x y hx hperm⟩

end StaticType
end Inlay
