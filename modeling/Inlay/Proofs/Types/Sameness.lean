import Inlay.Types.Basic

/-!
# Sameness of types

Sameness is not an equality: `0` and `-0` are the same, and a literal that is not a number
differs from itself.  It is transitive, which is all that leaving out duplicates needs: what
is the same as a type of a list is the same as the first such type.  It is symmetric as well, so
that duplicates are found in either order.
-/

namespace Inlay

/-! ## Sameness -/

theorem Number.same_trans {x y z : Number} (hxy : x.same y = true) (hyz : y.same z = true) :
    x.same z = true := by
  cases x <;> cases y <;> cases z <;> simp only [Number.same, Bool.false_eq_true] at hxy hyz ⊢
  · exact beq_iff_eq.mpr ((beq_iff_eq.mp hxy).trans (beq_iff_eq.mp hyz))
  · simp only [Bool.or_eq_true, Bool.and_eq_true, beq_iff_eq] at hxy hyz ⊢
    rcases hxy with ⟨hx, hy⟩ | ⟨⟨rfl, rfl⟩, rfl⟩
    · rcases hyz with ⟨_, hz⟩ | ⟨⟨_, rfl⟩, _⟩
      · exact .inl ⟨hx, hz⟩
      · exact .inl ⟨hx, hy⟩
    · exact hyz

namespace StaticType

section Inversion

variable {b : StaticType}

theorem of_same_numberLiteral {x : Number} (h : (numberLiteral x).same b = true) :
    ∃ y, b = numberLiteral y ∧ x.same y = true := by
  cases b <;> simp_all [same]

theorem of_same_union {as : List StaticType} (h : (union as).same b = true) :
    ∃ bs, b = union bs ∧ sameTypes as bs = true := by
  cases b <;> simp_all [same]

theorem of_same_array {a : StaticType} (h : (array a).same b = true) :
    ∃ b', b = array b' ∧ a.same b' = true := by
  cases b <;> simp_all [same]

theorem of_same_function {f : Signature StaticType} (h : (function f).same b = true) :
    ∃ g, b = function g ∧ sameSignature f g = true := by
  cases b <;> simp_all [same]

theorem of_same_object {n : Option String} {ms : List (Field StaticType)}
    {call : Option (Signature StaticType)} (h : (object n ms call).same b = true) :
    ∃ ms' call', b = object n ms' call' ∧ sameFields ms ms' = true ∧ sameCall call call' = true := by
  cases b with
  | object n' ms' call' =>
    simp only [same, Bool.and_eq_true, beq_iff_eq] at h
    obtain ⟨⟨rfl, hms⟩, hcall⟩ := h
    exact ⟨ms', call', rfl, hms, hcall⟩
  | _ => simp [same] at h

theorem of_sameTypes_cons {a : StaticType} {as bs : List StaticType}
    (h : sameTypes (a :: as) bs = true) :
    ∃ b bs', bs = b :: bs' ∧ a.same b = true ∧ sameTypes as bs' = true := by
  cases bs with
  | nil => simp [sameTypes] at h
  | cons b bs' =>
    rw [sameTypes, Bool.and_eq_true] at h
    exact ⟨b, bs', rfl, h⟩

theorem of_sameFields_cons {n : String} {a : StaticType} {o : Bool}
    {as bs : List (Field StaticType)} (h : sameFields (⟨n, a, o⟩ :: as) bs = true) :
    ∃ b bs', bs = ⟨n, b, o⟩ :: bs' ∧ a.same b = true ∧ sameFields as bs' = true := by
  cases bs with
  | nil => simp [sameFields] at h
  | cons f bs' =>
    obtain ⟨n', b, o'⟩ := f
    simp only [sameFields, Bool.and_eq_true, beq_iff_eq] at h
    obtain ⟨⟨⟨rfl, hab⟩, rfl⟩, hrest⟩ := h
    exact ⟨b, bs', rfl, hab, hrest⟩

theorem of_sameCall_some {f : Signature StaticType} {call : Option (Signature StaticType)}
    (h : sameCall (some f) call = true) : ∃ g, call = some g ∧ sameSignature f g = true := by
  cases call <;> simp_all [sameCall]

end Inversion

mutual
theorem same_trans : ∀ (a : StaticType) {b c : StaticType}, a.same b = true → b.same c = true →
    a.same c = true
  | .numberLiteral x, b, c, h, h' => by
    obtain ⟨y, rfl, hxy⟩ := of_same_numberLiteral h
    obtain ⟨z, rfl, hyz⟩ := of_same_numberLiteral h'
    rw [same]
    exact Number.same_trans hxy hyz
  | .union as, b, c, h, h' => by
    obtain ⟨bs, rfl, hab⟩ := of_same_union h
    obtain ⟨cs, rfl, hbc⟩ := of_same_union h'
    rw [same]
    exact sameTypes_trans as hab hbc
  | .array a, b, c, h, h' => by
    obtain ⟨b, rfl, hab⟩ := of_same_array h
    obtain ⟨c, rfl, hbc⟩ := of_same_array h'
    rw [same]
    exact same_trans a hab hbc
  | .function f, b, c, h, h' => by
    obtain ⟨g, rfl, hfg⟩ := of_same_function h
    obtain ⟨k, rfl, hgk⟩ := of_same_function h'
    rw [same]
    exact sameSignature_trans f hfg hgk
  | .object n ms call, b, c, h, h' => by
    obtain ⟨ms', call', rfl, hms, hcall⟩ := of_same_object h
    obtain ⟨ms'', call'', rfl, hms', hcall'⟩ := of_same_object h'
    rw [same, sameFields_trans ms hms hms', sameCall_trans call hcall hcall', beq_self_eq_true]
    rfl
  | .any, b, c, h, h' | .unknown, b, c, h, h' | .never, b, c, h, h'
  | .void, b, c, h, h' | .null, b, c, h, h' | .undefined, b, c, h, h'
  | .string, b, c, h, h' | .number, b, c, h, h' | .boolean, b, c, h, h'
  | .bigint, b, c, h, h' => by
    cases b <;> first | exact h' | simp [same] at h
  | .stringLiteral s, b, c, h, h' => by
    cases b <;> simp_all [same]
  | .booleanLiteral s, b, c, h, h' => by
    cases b <;> simp_all [same]

theorem sameTypes_trans : ∀ (as : List StaticType) {bs cs : List StaticType},
    sameTypes as bs = true → sameTypes bs cs = true → sameTypes as cs = true
  | [], bs, cs, h, h' => by
    cases bs with
    | nil => exact h'
    | cons b bs => simp [sameTypes] at h
  | a :: as, bs, cs, h, h' => by
    obtain ⟨b, bs, rfl, hab, has⟩ := of_sameTypes_cons h
    obtain ⟨c, cs, rfl, hbc, hbs⟩ := of_sameTypes_cons h'
    rw [sameTypes, same_trans a hab hbc, sameTypes_trans as has hbs]
    rfl

theorem sameFields_trans : ∀ (as : List (Field StaticType)) {bs cs : List (Field StaticType)},
    sameFields as bs = true → sameFields bs cs = true → sameFields as cs = true
  | [], bs, cs, h, h' => by
    cases bs with
    | nil => exact h'
    | cons b bs => simp [sameFields] at h
  | ⟨n, a, o⟩ :: as, bs, cs, h, h' => by
    obtain ⟨b, bs, rfl, hab, has⟩ := of_sameFields_cons h
    obtain ⟨c, cs, rfl, hbc, hbs⟩ := of_sameFields_cons h'
    rw [sameFields, same_trans a hab hbc, sameFields_trans as has hbs, beq_self_eq_true,
      beq_self_eq_true]
    rfl

theorem sameSignature_trans : ∀ (f : Signature StaticType) {g k : Signature StaticType},
    sameSignature f g = true → sameSignature g k = true → sameSignature f k = true
  | ⟨ps, r⟩, ⟨ps', r'⟩, ⟨ps'', r''⟩, h, h' => by
    rw [sameSignature, Bool.and_eq_true] at h h' ⊢
    exact ⟨sameFields_trans ps h.1 h'.1, same_trans r h.2 h'.2⟩

theorem sameCall_trans : ∀ (f : Option (Signature StaticType)) {g k : Option (Signature StaticType)},
    sameCall f g = true → sameCall g k = true → sameCall f k = true
  | none, g, k, h, h' => by
    cases g with
    | none => exact h'
    | some g => simp [sameCall] at h
  | some f, g, k, h, h' => by
    obtain ⟨g, rfl, hfg⟩ := of_sameCall_some h
    obtain ⟨k, rfl, hgk⟩ := of_sameCall_some h'
    rw [sameCall]
    exact sameSignature_trans f hfg hgk
end

mutual
theorem same_symm : ∀ (a : StaticType) {b : StaticType}, a.same b = true → b.same a = true
  | .numberLiteral x, b, h => by
    obtain ⟨y, rfl, hxy⟩ := of_same_numberLiteral h
    rw [same, Number.same_comm]
    exact hxy
  | .union as, b, h => by
    obtain ⟨bs, rfl, hab⟩ := of_same_union h
    rw [same]
    exact sameTypes_symm as hab
  | .array a, b, h => by
    obtain ⟨b, rfl, hab⟩ := of_same_array h
    rw [same]
    exact same_symm a hab
  | .function f, b, h => by
    obtain ⟨g, rfl, hfg⟩ := of_same_function h
    rw [same]
    exact sameSignature_symm f hfg
  | .object n ms call, b, h => by
    obtain ⟨ms', call', rfl, hms, hcall⟩ := of_same_object h
    rw [same, sameFields_symm ms hms, sameCall_symm call hcall, beq_self_eq_true]
    rfl
  | .any, b, h | .unknown, b, h | .never, b, h | .void, b, h | .null, b, h | .undefined, b, h
  | .string, b, h | .number, b, h | .boolean, b, h | .bigint, b, h => by
    cases b <;> first | exact h | simp [same] at h
  | .stringLiteral s, b, h => by
    cases b <;> simp_all [same]
  | .booleanLiteral s, b, h => by
    cases b <;> simp_all [same]

theorem sameTypes_symm : ∀ (as : List StaticType) {bs : List StaticType},
    sameTypes as bs = true → sameTypes bs as = true
  | [], bs, h => by
    cases bs with
    | nil => exact h
    | cons b bs => simp [sameTypes] at h
  | a :: as, bs, h => by
    obtain ⟨b, bs, rfl, hab, has⟩ := of_sameTypes_cons h
    rw [sameTypes, same_symm a hab, sameTypes_symm as has]
    rfl

theorem sameFields_symm : ∀ (as : List (Field StaticType)) {bs : List (Field StaticType)},
    sameFields as bs = true → sameFields bs as = true
  | [], bs, h => by
    cases bs with
    | nil => exact h
    | cons b bs => simp [sameFields] at h
  | ⟨n, a, o⟩ :: as, bs, h => by
    obtain ⟨b, bs, rfl, hab, has⟩ := of_sameFields_cons h
    rw [sameFields, same_symm a hab, sameFields_symm as has, beq_self_eq_true, beq_self_eq_true]
    rfl

theorem sameSignature_symm : ∀ (f : Signature StaticType) {g : Signature StaticType},
    sameSignature f g = true → sameSignature g f = true
  | ⟨ps, r⟩, ⟨ps', r'⟩, h => by
    rw [sameSignature, Bool.and_eq_true] at h ⊢
    exact ⟨sameFields_symm ps h.1, same_symm r h.2⟩

theorem sameCall_symm : ∀ (f : Option (Signature StaticType)) {g : Option (Signature StaticType)},
    sameCall f g = true → sameCall g f = true
  | none, g, h => by
    cases g with
    | none => exact h
    | some g => simp [sameCall] at h
  | some f, g, h => by
    obtain ⟨g, rfl, hfg⟩ := of_sameCall_some h
    rw [sameCall]
    exact sameSignature_symm f hfg
end

/-! ## The first of its kind -/

theorem isIn_iff {t : StaticType} {ts : List StaticType} :
    t.isIn ts = true ↔ ∃ u ∈ ts, u.same t = true :=
  List.any_eq_true

theorem isIn_eq_false_iff {t : StaticType} {ts : List StaticType} :
    t.isIn ts = false ↔ ∀ u ∈ ts, u.same t = false := by
  simp only [isIn, List.any_eq_false, Bool.not_eq_true]

/-- `x` is the first type in the list that is the same as it. -/
def First (x : StaticType) : List StaticType → Prop
  | [] => False
  | t :: ts => x = t ∨ (t.same x = false ∧ First x ts)

/-- No type comes behind one that is the same. -/
def Differ (ts : List StaticType) : Prop := ts.Pairwise fun t u => t.same u = false

section First

variable {x : StaticType} {ts us : List StaticType}

theorem First.mem (h : First x ts) : x ∈ ts := by
  induction ts with
  | nil => exact h.elim
  | cons t rest ih =>
    rcases h with rfl | ⟨-, h⟩
    · exact List.mem_cons_self
    · exact List.mem_cons_of_mem t (ih h)

theorem Differ.first_iff (h : Differ ts) : First x ts ↔ x ∈ ts := by
  refine ⟨First.mem, fun hx => ?_⟩
  induction ts with
  | nil => exact absurd hx List.not_mem_nil
  | cons t rest ih =>
    obtain ⟨ht, hrest⟩ := List.pairwise_cons.mp h
    rcases List.mem_cons.mp hx with rfl | hx
    · exact .inl rfl
    · exact .inr ⟨ht x hx, ih hrest hx⟩

theorem first_append : First x (ts ++ us) ↔ First x ts ∨ (x.isIn ts = false ∧ First x us) := by
  induction ts with
  | nil => simp [First, isIn]
  | cons t rest ih =>
    have hcons : x.isIn (t :: rest) = false ↔ t.same x = false ∧ x.isIn rest = false := by
      rw [isIn, List.any_cons, Bool.or_eq_false_iff]
      rfl
    rw [List.cons_append, First, First, ih, hcons, and_or_left, or_assoc, and_assoc]

/-- What is the same as a type in the list is the same as the first such type. -/
theorem isIn_iff_first : x.isIn ts = true ↔ ∃ y, First y ts ∧ y.same x = true := by
  rw [isIn_iff]
  refine ⟨fun h => ?_, fun ⟨y, hy, hyx⟩ => ⟨y, hy.mem, hyx⟩⟩
  induction ts with
  | nil => exact absurd h.choose_spec.1 List.not_mem_nil
  | cons t rest ih =>
    by_cases htx : t.same x = true
    · exact ⟨t, .inl rfl, htx⟩
    · obtain ⟨u, hu, hux⟩ := h
      have hrest : u ∈ rest :=
        (List.mem_cons.mp hu).resolve_left fun heq => htx (heq ▸ hux)
      obtain ⟨y, hy, hyx⟩ := ih ⟨u, hrest, hux⟩
      have hty : t.same y = false := Bool.eq_false_iff.mpr fun hty => htx (same_trans t hty hyx)
      exact ⟨y, .inr ⟨hty, hy⟩, hyx⟩

/-- A type of the list is the first of its kind, or the same as that. -/
theorem exists_first_of_mem (h : x ∈ ts) : ∃ y, First y ts ∧ (y = x ∨ y.same x = true) := by
  induction ts with
  | nil => exact absurd h List.not_mem_nil
  | cons t rest ih =>
    rcases List.mem_cons.mp h with rfl | h
    · exact ⟨x, .inl rfl, .inl rfl⟩
    · by_cases htx : t.same x = true
      · exact ⟨t, .inl rfl, .inr htx⟩
      · obtain ⟨y, hy, hyx⟩ := ih h
        have hty : t.same y = false := by
          refine Bool.eq_false_iff.mpr fun hty => htx ?_
          rcases hyx with rfl | hyx
          · exact hty
          · exact same_trans t hty hyx
        exact ⟨y, .inr ⟨hty, hy⟩, hyx⟩

end First

/-! ## Types that are the same as themselves only -/

/-- A type that is the same as itself only. -/
structure IsAtom (c : StaticType) : Prop where
  left : ∀ {t}, c.same t = true ↔ t = c
  right : ∀ {t}, t.same c = true ↔ t = c

theorem isAtom_any : IsAtom any :=
  ⟨fun {t} => by cases t <;> simp [same], fun {t} => by cases t <;> simp [same]⟩

theorem isAtom_never : IsAtom never :=
  ⟨fun {t} => by cases t <;> simp [same], fun {t} => by cases t <;> simp [same]⟩

theorem isAtom_unknown : IsAtom unknown :=
  ⟨fun {t} => by cases t <;> simp [same], fun {t} => by cases t <;> simp [same]⟩

theorem isAtom_string : IsAtom string :=
  ⟨fun {t} => by cases t <;> simp [same], fun {t} => by cases t <;> simp [same]⟩

theorem isAtom_number : IsAtom number :=
  ⟨fun {t} => by cases t <;> simp [same], fun {t} => by cases t <;> simp [same]⟩

theorem isAtom_boolean : IsAtom boolean :=
  ⟨fun {t} => by cases t <;> simp [same], fun {t} => by cases t <;> simp [same]⟩

theorem isAtom_booleanLiteral (b : Bool) : IsAtom (booleanLiteral b) where
  left {t} := by
    cases t with
    | booleanLiteral b' =>
      simp only [same, beq_iff_eq, booleanLiteral.injEq]
      exact eq_comm
    | _ => simp [same]
  right {t} := by cases t <;> simp [same]

theorem isAtom_stringLiteral (s : String) : IsAtom (stringLiteral s) where
  left {t} := by
    cases t with
    | stringLiteral s' =>
      simp only [same, beq_iff_eq, stringLiteral.injEq]
      exact eq_comm
    | _ => simp [same]
  right {t} := by cases t <;> simp [same]

theorem IsAtom.isIn_iff {c : StaticType} (h : c.IsAtom) {ts : List StaticType} :
    c.isIn ts = true ↔ c ∈ ts := by
  simp only [StaticType.isIn_iff, h.right, exists_eq_right]

theorem IsAtom.first_iff {c : StaticType} (h : c.IsAtom) {ts : List StaticType} :
    First c ts ↔ c ∈ ts := by
  refine ⟨First.mem, fun hc => ?_⟩
  obtain ⟨y, hy, hsame⟩ := isIn_iff_first.mp (h.isIn_iff.mpr hc)
  exact h.right.mp hsame ▸ hy

/-- Types that are the same are literals of one kind, or none. -/
theorem isLiteral_eq_of_same {t u : StaticType} (h : t.same u = true) :
    t.isBooleanLiteral = u.isBooleanLiteral ∧ t.isStringLiteral = u.isStringLiteral ∧
      t.isNumberLiteral = u.isNumberLiteral := by
  rw [same.eq_def] at h
  split at h <;> first | exact ⟨rfl, rfl, rfl⟩ | cases h

end StaticType
end Inlay
