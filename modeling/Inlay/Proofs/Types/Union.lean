import Inlay.Types.Union
import Inlay.Proofs.Types.Sameness
import Mathlib.Tactic.ByContra

/-!
# Members of normal unions

What a normal union says is the set of its members.  `NormalMember` describes this set by the
types that are put together, `unites_unionOf`, and from the set alone it can be seen that a
normal union may as well be made in steps: `normalMember_added`.  With `any`, which says
nothing and gives way, this is all there is to merging types one by one: `Says.merge`.

Of types that are the same the first one stays, so what comes in later depends on what has
come before: `Added` leaves out what is the same as a type that is there.
-/

namespace Inlay
namespace StaticType

/-! ## Leaving out duplicates -/

section Distinct

variable {x : StaticType} {ts acc : List StaticType}

theorem Differ.insertNew (h : Differ ts) (t : StaticType) : Differ (insertNew ts t) := by
  rw [StaticType.insertNew]
  split
  · exact h
  · next ht =>
    refine List.pairwise_append.mpr ⟨h, List.pairwise_singleton _ t, fun u hu v hv => ?_⟩
    rw [List.mem_singleton.mp hv]
    exact isIn_eq_false_iff.mp (Bool.eq_false_iff.mpr ht) u hu

theorem mem_foldl_insertNew :
    x ∈ ts.foldl StaticType.insertNew acc ↔ x ∈ acc ∨ (x.isIn acc = false ∧ First x ts) := by
  induction ts generalizing acc with
  | nil => simp [First]
  | cons t rest ih =>
    rw [List.foldl_cons, ih, StaticType.insertNew, First]
    split
    · next ht =>
      -- `t` is left out, and with it whatever is the same.
      obtain ⟨u, hu, hut⟩ := isIn_iff.mp ht
      have hnot : x.isIn acc = false → x ≠ t ∧ t.same x = false := by
        intro hx
        have hux := isIn_eq_false_iff.mp hx u hu
        refine ⟨?_, Bool.eq_false_iff.mpr fun htx => ?_⟩
        · rintro rfl
          exact Bool.false_ne_true (hux.symm.trans hut)
        · exact Bool.false_ne_true (hux.symm.trans (same_trans u hut htx))
      refine or_congr_right (and_congr_right fun hx => ?_)
      obtain ⟨hne, hsame⟩ := hnot hx
      simp only [hne, hsame, false_or, true_and]
    · next ht =>
      have ht := Bool.eq_false_iff.mpr ht
      have hsplit : x.isIn (acc ++ [t]) = false ↔ x.isIn acc = false ∧ t.same x = false := by
        simp only [isIn, List.any_append, List.any_cons, List.any_nil, Bool.or_false,
          Bool.or_eq_false_iff]
      rw [List.mem_append, List.mem_singleton, hsplit, or_assoc, and_assoc]
      refine or_congr_right ?_
      constructor
      · rintro (rfl | ⟨hx, h⟩)
        · exact ⟨ht, .inl rfl⟩
        · exact ⟨hx, .inr h⟩
      · rintro ⟨hx, rfl | h⟩
        · exact .inl rfl
        · exact .inr ⟨hx, h⟩

theorem mem_distinctMembers : x ∈ distinctMembers ts ↔ First x (ts.flatMap members) := by
  rw [distinctMembers, mem_foldl_insertNew]
  simp [isIn]

theorem differ_distinctMembers : Differ (distinctMembers ts) := by
  have hfold : ∀ us acc : List StaticType, Differ acc → Differ (us.foldl StaticType.insertNew acc) := by
    intro us
    induction us with
    | nil => exact fun _ h => h
    | cons u rest ih => exact fun _ h => ih _ (h.insertNew u)
  exact hfold _ _ List.Pairwise.nil

end Distinct

/-! ## What normalizing leaves -/

/-- The types in `S` make `boolean`. -/
def JoinsBooleans (S : StaticType → Prop) : Prop :=
  (S (booleanLiteral true) ∧ S (booleanLiteral false)) ∨ S boolean

/-- A type in `S`, or the `boolean` that they make. -/
def Gathered (S : StaticType → Prop) (m : StaticType) : Prop :=
  S m ∨ (m = boolean ∧ JoinsBooleans S)

/-- A type that the normal union of `S` leaves out. -/
def LeftOut (S : StaticType → Prop) (m : StaticType) : Prop :=
  m = never ∨ (S unknown ∧ m ≠ unknown) ∨ (m.isBooleanLiteral = true ∧ JoinsBooleans S) ∨
    (m.isStringLiteral = true ∧ S string) ∨ (m.isNumberLiteral = true ∧ S number)

def Kept (S : StaticType → Prop) (m : StaticType) : Prop := Gathered S m ∧ ¬ LeftOut S m

/-- A member of the normal union of the types in `S`. -/
def NormalMember (S : StaticType → Prop) (m : StaticType) : Prop :=
  Kept S m ∨ (m = never ∧ ∀ x, ¬ Kept S x)

/-- The types in `S`, and those in `T` that are new. -/
def Added (S T : StaticType → Prop) (m : StaticType) : Prop :=
  S m ∨ (T m ∧ ¬ ∃ x, S x ∧ x.same m = true)

/-- A step on the way from `S` to its normal union: nothing comes in but `boolean` and
`never`, and nothing goes that the normal union has. -/
structure Reduces (S' S : StaticType → Prop) : Prop where
  gathered : ∀ {m}, S' m → m ≠ never → Gathered S m
  kept : ∀ {m}, Kept S m → Gathered S' m

section Sets

variable {S S' T T' : StaticType → Prop} {m x : StaticType}

theorem gathered_iff (h : m ≠ boolean) : Gathered S m ↔ S m := by
  simp only [Gathered, h, false_and, or_false]

theorem gathered_boolean : Gathered S boolean ↔ JoinsBooleans S := by
  simp only [Gathered, true_and, JoinsBooleans]
  exact ⟨fun h => h.elim .inr id, .inr⟩

theorem kept_of_unknown (h : S unknown) : Kept S m ↔ m = unknown := by
  constructor
  · rintro ⟨-, hout⟩
    by_contra hne
    exact hout (.inr (.inl ⟨h, hne⟩))
  · rintro rfl
    refine ⟨.inl h, ?_⟩
    rintro (h | ⟨-, h⟩ | ⟨h, -⟩ | ⟨h, -⟩ | ⟨h, -⟩)
    · cases h
    · exact h rfl
    all_goals exact absurd h Bool.false_ne_true

theorem LeftOut.of_same (h : LeftOut S x) (hsame : x.same m = true) : LeftOut S m := by
  obtain ⟨hboolean, hstring, hnumber⟩ := isLiteral_eq_of_same hsame
  rcases h with rfl | ⟨hu, hx⟩ | ⟨hb, hj⟩ | ⟨hs, hS⟩ | ⟨hn, hS⟩
  · exact .inl (isAtom_never.left.mp hsame)
  · refine .inr (.inl ⟨hu, ?_⟩)
    rintro rfl
    exact hx (isAtom_unknown.right.mp hsame)
  · exact .inr (.inr (.inl ⟨hboolean ▸ hb, hj⟩))
  · exact .inr (.inr (.inr (.inl ⟨hstring ▸ hs, hS⟩)))
  · exact .inr (.inr (.inr (.inr ⟨hnumber ▸ hn, hS⟩)))

theorem JoinsBooleans.imp (hatom : ∀ {c}, IsAtom c → S c → T c) (h : JoinsBooleans S) :
    JoinsBooleans T := by
  rcases h with ⟨ht, hf⟩ | hb
  · exact .inl ⟨hatom (isAtom_booleanLiteral _) ht, hatom (isAtom_booleanLiteral _) hf⟩
  · exact .inr (hatom isAtom_boolean hb)

theorem LeftOut.imp (hatom : ∀ {c}, IsAtom c → S c → T c) (h : LeftOut S m) : LeftOut T m := by
  rcases h with rfl | ⟨hu, hx⟩ | ⟨hb, hj⟩ | ⟨hs, hS⟩ | ⟨hn, hS⟩
  · exact .inl rfl
  · exact .inr (.inl ⟨hatom isAtom_unknown hu, hx⟩)
  · exact .inr (.inr (.inl ⟨hb, hj.imp hatom⟩))
  · exact .inr (.inr (.inr (.inl ⟨hs, hatom isAtom_string hS⟩)))
  · exact .inr (.inr (.inr (.inr ⟨hn, hatom isAtom_number hS⟩)))

theorem IsAtom.added_iff {c : StaticType} (h : c.IsAtom) : Added S T c ↔ S c ∨ T c := by
  refine ⟨fun h => h.imp_right And.left, fun hc => ?_⟩
  by_cases hS : S c
  · exact .inl hS
  · refine .inr ⟨hc.resolve_left hS, ?_⟩
    rintro ⟨x, hx, hsame⟩
    exact hS (h.right.mp hsame ▸ hx)

theorem JoinsBooleans.added_left (h : JoinsBooleans S) : JoinsBooleans (Added S T) :=
  h.imp fun hc hS => hc.added_iff.mpr (.inl hS)

theorem JoinsBooleans.added_right (h : JoinsBooleans T) : JoinsBooleans (Added S T) :=
  h.imp fun hc hT => hc.added_iff.mpr (.inr hT)

theorem LeftOut.added_left (h : LeftOut S m) : LeftOut (Added S T) m :=
  h.imp fun hc hS => hc.added_iff.mpr (.inl hS)

theorem LeftOut.added_right (h : LeftOut T m) : LeftOut (Added S T) m :=
  h.imp fun hc hT => hc.added_iff.mpr (.inr hT)

/-! ### Steps on the way -/

namespace Reduces

theorem refl (S : StaticType → Prop) : Reduces S S := ⟨fun h _ => .inl h, And.left⟩

theorem normalMember (S : StaticType → Prop) : Reduces (NormalMember S) S where
  gathered h hne := by
    rcases h with h | ⟨rfl, -⟩
    · exact h.1
    · exact absurd rfl hne
  kept h := .inl (.inl h)

theorem unknown_iff (h : Reduces S' S) : S' unknown ↔ S unknown := by
  constructor
  · exact fun hu => (gathered_iff (m := unknown) nofun).mp (h.gathered hu nofun)
  · exact fun hu => (gathered_iff (m := unknown) nofun).mp (h.kept ((kept_of_unknown hu).mpr rfl))

variable (h : Reduces S' S)
include h

theorem of_mem (hm : S' m) (hnever : m ≠ never) (hboolean : m ≠ boolean) : S m :=
  (gathered_iff hboolean).mp (h.gathered hm hnever)

theorem mem_of_kept (hm : S m) (hout : ¬ LeftOut S m) (hboolean : m ≠ boolean) : S' m :=
  (gathered_iff hboolean).mp (h.kept ⟨.inl hm, hout⟩)

theorem mem_iff (hout : ¬ LeftOut S m) (hboolean : m ≠ boolean) : S' m ↔ S m := by
  refine ⟨fun hm => h.of_mem hm ?_ hboolean, fun hm => h.mem_of_kept hm hout hboolean⟩
  rintro rfl
  exact hout (.inl rfl)

/-- Whether something is the same as a member that stays does not change on the way. -/
theorem exists_same_iff (hout : ¬ LeftOut S m) (hboolean : m ≠ boolean) :
    (∃ x, S' x ∧ x.same m = true) ↔ ∃ x, S x ∧ x.same m = true := by
  have hne : ∀ {x}, x.same m = true → x ≠ boolean := by
    rintro x hsame rfl
    exact hboolean (isAtom_boolean.left.mp hsame)
  constructor
  · rintro ⟨x, hx, hsame⟩
    refine ⟨x, h.of_mem hx ?_ (hne hsame), hsame⟩
    rintro rfl
    exact hout (.inl (isAtom_never.left.mp hsame))
  · rintro ⟨x, hx, hsame⟩
    exact ⟨x, h.mem_of_kept hx (fun hx => hout (hx.of_same hsame)) (hne hsame), hsame⟩

variable (hu : ¬ S unknown)
include hu

theorem string_iff : S' string ↔ S string := by
  refine h.mem_iff ?_ nofun
  simp [LeftOut, hu, isBooleanLiteral, isStringLiteral, isNumberLiteral]

theorem number_iff : S' number ↔ S number := by
  refine h.mem_iff ?_ nofun
  simp [LeftOut, hu, isBooleanLiteral, isStringLiteral, isNumberLiteral]

theorem joinsBooleans_iff : JoinsBooleans S' ↔ JoinsBooleans S := by
  constructor
  · rintro (⟨ht, hf⟩ | hb)
    · exact .inl ⟨h.of_mem ht nofun nofun, h.of_mem hf nofun nofun⟩
    · exact gathered_boolean.mp (h.gathered hb nofun)
  · intro hjoins
    refine gathered_boolean.mp (h.kept ⟨gathered_boolean.mpr hjoins, ?_⟩)
    simp [LeftOut, hu, isBooleanLiteral, isStringLiteral, isNumberLiteral]

/-- A boolean literal goes only when it has become `boolean`. -/
theorem booleanLiteral_iff (hjoins : ¬ JoinsBooleans S) (b : Bool) :
    S' (booleanLiteral b) ↔ S (booleanLiteral b) := by
  refine h.mem_iff ?_ nofun
  simp [LeftOut, hu, hjoins, isStringLiteral, isNumberLiteral]

end Reduces

section Step

variable (hS : Reduces S' S) (hT : Reduces T' T) (hSu : ¬ S unknown) (hTu : ¬ T unknown)
include hS hT hSu hTu

theorem joinsBooleans_added :
    JoinsBooleans (Added S' T') ↔ JoinsBooleans (Added S T) := by
  by_cases hjS : JoinsBooleans S
  · exact iff_of_true ((hS.joinsBooleans_iff hSu).mpr hjS).added_left hjS.added_left
  by_cases hjT : JoinsBooleans T
  · exact iff_of_true ((hT.joinsBooleans_iff hTu).mpr hjT).added_right hjT.added_right
  -- Only the literals are left to make `boolean`, and as long as they do not they all stay.
  have hbS : ¬ S' boolean := fun h => hjS ((hS.joinsBooleans_iff hSu).mp (.inr h))
  have hbT : ¬ T' boolean := fun h => hjT ((hT.joinsBooleans_iff hTu).mp (.inr h))
  have hbS' : ¬ S boolean := fun h => hjS (.inr h)
  have hbT' : ¬ T boolean := fun h => hjT (.inr h)
  simp only [JoinsBooleans, (isAtom_booleanLiteral _).added_iff, isAtom_boolean.added_iff,
    hS.booleanLiteral_iff hSu hjS, hT.booleanLiteral_iff hTu hjT, hbS, hbT, hbS', hbT']

theorem leftOut_added : LeftOut (Added S' T') m ↔ LeftOut (Added S T) m := by
  rw [LeftOut, LeftOut, joinsBooleans_added hS hT hSu hTu, isAtom_string.added_iff,
    isAtom_string.added_iff, hS.string_iff hSu, hT.string_iff hTu, isAtom_number.added_iff,
    isAtom_number.added_iff, hS.number_iff hSu, hT.number_iff hTu, isAtom_unknown.added_iff,
    isAtom_unknown.added_iff, hS.unknown_iff, hT.unknown_iff]

theorem kept_added_of_known : Kept (Added S' T') m ↔ Kept (Added S T) m := by
  rw [Kept, Kept, leftOut_added hS hT hSu hTu]
  refine and_congr_left fun hout => ?_
  by_cases hboolean : m = boolean
  · rw [hboolean, gathered_boolean, gathered_boolean, joinsBooleans_added hS hT hSu hTu]
  · have houtS : ¬ LeftOut S m := fun h => hout h.added_left
    have houtT : ¬ LeftOut T m := fun h => hout h.added_right
    rw [gathered_iff hboolean, gathered_iff hboolean, Added, Added, hS.mem_iff houtS hboolean,
      hT.mem_iff houtT hboolean, hS.exists_same_iff houtS hboolean]

end Step

theorem kept_added (hS : Reduces S' S) (hT : Reduces T' T) :
    Kept (Added S' T') m ↔ Kept (Added S T) m := by
  have hunknown : Added S' T' unknown ↔ Added S T unknown := by
    rw [isAtom_unknown.added_iff, isAtom_unknown.added_iff, hS.unknown_iff, hT.unknown_iff]
  by_cases hu : Added S T unknown
  · rw [kept_of_unknown hu, kept_of_unknown (hunknown.mpr hu)]
  · rw [isAtom_unknown.added_iff, not_or] at hu
    exact kept_added_of_known hS hT hu.1 hu.2

/-- A normal union can be made in steps: of two collections of types each may be replaced by
one on the way to its own normal union. -/
theorem normalMember_added (hS : Reduces S' S) (hT : Reduces T' T) :
    NormalMember (Added S' T') m ↔ NormalMember (Added S T) m := by
  simp only [NormalMember, kept_added hS hT]

/-- Normalizing once is enough. -/
theorem normalMember_idem : NormalMember (NormalMember S) m ↔ NormalMember S m := by
  have hnone : ∀ S : StaticType → Prop, Added S (fun _ => False) = S := fun S =>
    funext fun x => propext (by simp only [Added, false_and, or_false])
  have h := normalMember_added (m := m) (.normalMember S) (.refl fun _ => False)
  rwa [hnone, hnone] at h

end Sets

/-! ## Members of `unionOf` -/

/-- The type is no union. -/
def IsSingle (m : StaticType) : Prop := m.members = [m]

/-- The members of `t` are those of the normal union of the listed types. -/
structure Unites (t : StaticType) (ts : List StaticType) : Prop where
  differ : Differ t.members
  single : ∀ m ∈ t.members, IsSingle m
  mem_iff : ∀ m, m ∈ t.members ↔ NormalMember (First · ts) m

section Normalizing

variable {m : StaticType} {ts : List StaticType}

theorem joinsBooleans_iff_isIn : JoinsBooleans (· ∈ ts) ↔ ((booleanLiteral true).isIn ts &&
    (booleanLiteral false).isIn ts || boolean.isIn ts) = true := by
  rw [Bool.or_eq_true, Bool.and_eq_true, (isAtom_booleanLiteral _).isIn_iff,
    (isAtom_booleanLiteral _).isIn_iff, isAtom_boolean.isIn_iff, JoinsBooleans]

theorem mem_joinBooleans : m ∈ joinBooleans ts ↔
    Gathered (· ∈ ts) m ∧ (m.isBooleanLiteral = true → ¬ JoinsBooleans (· ∈ ts)) := by
  have hinsert : ∀ us, m ∈ insertNew us boolean ↔ m ∈ us ∨ m = boolean := by
    intro us
    rw [insertNew]
    split
    · next h => exact ⟨.inl, fun hm => hm.elim id (· ▸ isAtom_boolean.isIn_iff.mp h)⟩
    · rw [List.mem_append, List.mem_singleton]
  rw [joinBooleans, Gathered]
  split
  · next h =>
    have h := joinsBooleans_iff_isIn.mpr h
    rw [hinsert, List.mem_filter, Bool.not_eq_true']
    simp only [h, not_true_eq_false, imp_false, and_true, Bool.not_eq_true]
    constructor
    · rintro (⟨hm, hb⟩ | rfl)
      · exact ⟨.inl hm, hb⟩
      · exact ⟨.inr rfl, rfl⟩
    · rintro ⟨hm | hm, hb⟩
      · exact .inl ⟨hm, hb⟩
      · exact .inr hm
  · next h =>
    have h : ¬ JoinsBooleans (· ∈ ts) := fun hj => h (joinsBooleans_iff_isIn.mp hj)
    simp only [h, not_false_eq_true, imp_true_iff, and_true, and_false, or_false]

/-- A kind of literal gives way to its base type. -/
theorem mem_giveWay {c : StaticType} (hc : IsAtom c) (p : StaticType → Bool) :
    m ∈ (if c.isIn ts then ts.filter fun t => !p t else ts) ↔ m ∈ ts ∧ (p m = true → c ∉ ts) := by
  split
  · next h =>
    rw [List.mem_filter, Bool.not_eq_true']
    simp only [hc.isIn_iff.mp h, not_true_eq_false, imp_false, Bool.not_eq_true]
  · next h =>
    have h : c ∉ ts := fun hmem => h (hc.isIn_iff.mpr hmem)
    simp only [h, not_false_eq_true, imp_true_iff, and_true]

theorem mem_dropStringLiterals : m ∈ dropStringLiterals ts ↔
    m ∈ ts ∧ (m.isStringLiteral = true → string ∉ ts) :=
  mem_giveWay isAtom_string isStringLiteral

theorem mem_dropNumberLiterals : m ∈ dropNumberLiterals ts ↔
    m ∈ ts ∧ (m.isNumberLiteral = true → number ∉ ts) :=
  mem_giveWay isAtom_number isNumberLiteral

theorem isAny_iff : m.isAny = true ↔ m = any := by cases m <;> simp [isAny]
theorem isUnknown_iff : m.isUnknown = true ↔ m = unknown := by cases m <;> simp [isUnknown]
theorem isNever_iff : m.isNever = true ↔ m = never := by cases m <;> simp [isNever]

/-- What `unionOf` leaves of distinct members. -/
def reduced (flat : List StaticType) : List StaticType :=
  dropNumberLiterals (dropStringLiterals (joinBooleans (flat.filter fun t => !t.isNever)))

theorem mem_reduced (hu : unknown ∉ ts) : m ∈ reduced ts ↔ Kept (· ∈ ts) m := by
  have hnever : ∀ x, x ∈ ts.filter (fun t => !t.isNever) ↔ x ∈ ts ∧ x ≠ never := by
    intro x
    rw [List.mem_filter, Bool.not_eq_true', ne_eq, ← isNever_iff, Bool.not_eq_true]
  have hjoins : JoinsBooleans (· ∈ ts.filter fun t => !t.isNever) ↔ JoinsBooleans (· ∈ ts) := by
    simp only [JoinsBooleans, hnever, ne_eq, reduceCtorEq, not_false_eq_true, and_true]
  rw [reduced, mem_dropNumberLiterals, mem_dropStringLiterals, mem_dropStringLiterals,
    mem_joinBooleans, mem_joinBooleans, mem_joinBooleans]
  simp only [Gathered, hjoins]
  simp only [hnever, isBooleanLiteral, isStringLiteral, Bool.false_eq_true,
    false_imp_iff, and_true, ne_eq, reduceCtorEq, not_false_eq_true, false_and, or_false]
  simp only [Kept, Gathered, LeftOut, hu, false_and, false_or, not_or, not_and]
  constructor
  · rintro ⟨⟨⟨⟨hm, hn⟩ | ⟨rfl, hj⟩, hb⟩, hs⟩, hnum⟩
    · exact ⟨.inl hm, hn, hb, hs, hnum⟩
    · exact ⟨.inr ⟨rfl, hj⟩, nofun, hb, hs, hnum⟩
  · rintro ⟨hm | hm, hn, hb, hs, hnum⟩
    · exact ⟨⟨⟨.inl ⟨hm, hn⟩, hb⟩, hs⟩, hnum⟩
    · exact ⟨⟨⟨.inr hm, hb⟩, hs⟩, hnum⟩

theorem Differ.giveWay (h : Differ ts) (b : Bool) (p : StaticType → Bool) :
    Differ (if b then ts.filter p else ts) := by
  split
  · exact h.filter p
  · exact h

theorem Differ.joinBooleans (h : Differ ts) : Differ (joinBooleans ts) := by
  rw [StaticType.joinBooleans]
  split
  · exact Differ.insertNew (h.filter _) boolean
  · exact h

theorem Differ.reduced (h : Differ ts) : Differ (reduced ts) :=
  ((Differ.joinBooleans (h.filter _)).giveWay _ _).giveWay _ _

theorem members_ofMembers (h : ∀ t ∈ ts, IsSingle t) :
    (ofMembers ts).members = if ts = [] then [never] else ts := by
  match ts with
  | [] => rfl
  | [t] => exact h t (List.mem_singleton_self t)
  | t :: u :: rest => rfl

theorem any_distinctMembers_iff {c : StaticType} (hc : IsAtom c) {p : StaticType → Bool}
    (hp : ∀ {t : StaticType}, p t = true ↔ t = c) :
    (distinctMembers ts).any p = true ↔ c ∈ ts.flatMap members := by
  rw [List.any_eq_true]
  constructor
  · rintro ⟨t, ht, hpt⟩
    exact hp.mp hpt ▸ (mem_distinctMembers.mp ht).mem
  · exact fun h => ⟨c, mem_distinctMembers.mpr (hc.first_iff.mpr h), hp.mpr rfl⟩

theorem unionOf_of_any (h : any ∈ ts.flatMap members) : unionOf ts = any := by
  rw [unionOf, if_pos ((any_distinctMembers_iff isAtom_any isAny_iff).mpr h)]

theorem unionOf_of_unknown (hany : any ∉ ts.flatMap members) (h : unknown ∈ ts.flatMap members) :
    unionOf ts = unknown := by
  rw [unionOf, if_neg ((any_distinctMembers_iff isAtom_any isAny_iff).not.mpr hany),
    if_pos ((any_distinctMembers_iff isAtom_unknown isUnknown_iff).mpr h)]

theorem unionOf_eq (hany : any ∉ ts.flatMap members) (hunknown : unknown ∉ ts.flatMap members) :
    unionOf ts = ofMembers (reduced (distinctMembers ts)) := by
  rw [unionOf, if_neg ((any_distinctMembers_iff isAtom_any isAny_iff).not.mpr hany),
    if_neg ((any_distinctMembers_iff isAtom_unknown isUnknown_iff).not.mpr hunknown)]
  rfl

theorem mem_reduced_distinctMembers (hunknown : unknown ∉ ts.flatMap members) :
    m ∈ reduced (distinctMembers ts) ↔ Kept (First · (ts.flatMap members)) m := by
  have hflat : (· ∈ distinctMembers ts) = (First · (ts.flatMap members)) :=
    funext fun _ => propext mem_distinctMembers
  rw [mem_reduced fun h => hunknown (mem_distinctMembers.mp h).mem, hflat]

theorem unites_unknown (h : unknown ∈ ts) : Unites unknown ts where
  differ := List.pairwise_singleton _ unknown
  single := List.forall_mem_singleton.mpr rfl
  mem_iff m := by
    have hfirst : First unknown ts := isAtom_unknown.first_iff.mpr h
    have hkept : ∀ x, Kept (First · ts) x ↔ x = unknown := fun _ => kept_of_unknown hfirst
    simp only [NormalMember, hkept]
    constructor
    · exact fun hm => .inl (List.mem_singleton.mp hm)
    · rintro (rfl | ⟨-, hnone⟩)
      · exact List.mem_singleton_self unknown
      · exact absurd rfl (hnone unknown)

theorem unites_ofMembers (hdiffer : Differ ts) (hsingle : ∀ t ∈ ts, IsSingle t)
    {us : List StaticType} (h : ∀ m, m ∈ ts ↔ Kept (First · us) m) : Unites (ofMembers ts) us := by
  have hmembers := members_ofMembers hsingle
  split at hmembers
  · next hnil =>
    have hnone : ∀ x, ¬ Kept (First · us) x := fun x hx => by
      have hx := (h x).mpr hx
      rw [hnil] at hx
      exact List.not_mem_nil hx
    refine ⟨?_, ?_, fun m => ?_⟩ <;> rw [hmembers]
    · exact List.pairwise_singleton _ never
    · exact List.forall_mem_singleton.mpr rfl
    · rw [List.mem_singleton, NormalMember]
      exact ⟨fun hm => .inr ⟨hm, hnone⟩, fun hm => hm.elim (absurd · (hnone m)) And.left⟩
  · next hcons =>
    obtain ⟨x, hx⟩ := List.exists_mem_of_ne_nil _ hcons
    refine ⟨?_, ?_, fun m => ?_⟩ <;> rw [hmembers]
    · exact hdiffer
    · exact hsingle
    · rw [h, NormalMember]
      exact ⟨.inl, fun hm => hm.elim id fun hm => absurd ((h x).mp hx) (hm.2 x)⟩

/-- The members of `unionOf` when none of the types is `any`. -/
theorem unites_unionOf (h : ∀ t ∈ ts.flatMap members, IsSingle t) (hany : any ∉ ts.flatMap members) :
    Unites (unionOf ts) (ts.flatMap members) := by
  by_cases hunknown : unknown ∈ ts.flatMap members
  · rw [unionOf_of_unknown hany hunknown]
    exact unites_unknown hunknown
  · rw [unionOf_eq hany hunknown]
    refine unites_ofMembers differ_distinctMembers.reduced (fun m hm => ?_) fun m =>
      mem_reduced_distinctMembers hunknown
    rcases ((mem_reduced_distinctMembers hunknown).mp hm).1 with hm | ⟨rfl, -⟩
    · exact h m hm.mem
    · rfl

end Normalizing

/-! ## What several types say together -/

/-- A result of the union.  Unions among the types are flattened, so its members come from
types that are none. -/
def IsNormal (t : StaticType) : Prop :=
  ∃ ts, (∀ m ∈ ts.flatMap members, IsSingle m) ∧ unionOf ts = t

/-- The members of the types that say something. -/
def said (ts : List StaticType) : List StaticType :=
  (ts.filter fun t => !t.isAny).flatMap members

/-- `t` says what the listed types say together: nothing, or what their union says. -/
inductive Says (t : StaticType) (ts : List StaticType) : Prop
  | nothing (all : ∀ u ∈ ts, u = any) (eq : t = any)
  | members (some : ∃ u ∈ ts, u ≠ any) (single : ∀ m ∈ said ts, IsSingle m)
      (not_any : any ∉ said ts) (unites : Unites t (said ts))

section Says

variable {a b t : StaticType} {as bs ts us : List StaticType}

theorem said_append : said (as ++ bs) = said as ++ said bs := by
  rw [said, List.filter_append, List.flatMap_append]
  rfl

theorem said_eq_nil (h : ∀ u ∈ ts, u = any) : said ts = [] := by
  have hnil : ts.filter (fun t => !t.isAny) = [] :=
    List.filter_eq_nil_iff.mpr fun u hu => by simp [h u hu, isAny]
  rw [said, hnil, List.flatMap_nil]

theorem said_singleton (h : t ≠ any) : said [t] = t.members := by
  have hisAny : t.isAny = false := Bool.eq_false_iff.mpr (isAny_iff.not.mpr h)
  simp [said, hisAny]

theorem eq_any_of_members (h : any ∈ t.members → False) : t ≠ any := by
  rintro rfl
  exact h (List.mem_singleton_self any)

theorem Unites.any_notMem (h : Unites t ts) (hany : any ∉ ts) : any ∉ t.members := by
  intro hmem
  rcases (h.mem_iff any).mp hmem with ⟨hfirst | ⟨heq, -⟩, -⟩ | ⟨heq, -⟩
  · exact hany hfirst.mem
  · cases heq
  · cases heq

theorem Unites.mem_eq (h : Unites t ts) : (· ∈ t.members) = NormalMember (First · ts) :=
  funext fun m => propext (h.mem_iff m)

/-- A type that is made as a union is the union of its own members. -/
theorem Unites.members (h : Unites t ts) : Unites t t.members where
  differ := h.differ
  single := h.single
  mem_iff m := by
    have hfirst : (First · t.members) = NormalMember (First · ts) := by
      rw [← h.mem_eq]
      exact funext fun m => propext h.differ.first_iff
    rw [hfirst, normalMember_idem]
    exact h.mem_iff m

/-- Adding the members of one union to those of another. -/
theorem normalMember_members_append {m : StaticType} (ha : Unites a as) (hb : Unites b bs) :
    NormalMember (First · (a.members ++ b.members)) m ↔ NormalMember (First · (as ++ bs)) m := by
  have happend : ∀ us vs : List StaticType,
      (First · (us ++ vs)) = Added (First · us) (First · vs) := by
    intro us vs
    funext x
    rw [first_append, Added, ← isIn_iff_first, Bool.not_eq_true, and_comm]
  have hreduce : ∀ {t ts}, Unites t ts → Reduces (First · t.members) (First · ts) := by
    intro t ts h
    have hmem : (First · t.members) = NormalMember (First · ts) := by
      rw [← h.mem_eq]
      exact funext fun m => propext h.differ.first_iff
    rw [hmem]
    exact .normalMember _
  rw [happend, happend]
  exact normalMember_added (hreduce ha) (hreduce hb)

theorem exists_same_of_sameTypes (h : sameTypes as bs = true) :
    ∀ m ∈ bs, ∃ x ∈ as, x.same m = true := by
  induction as generalizing bs with
  | nil =>
    cases bs with
    | nil => exact List.forall_mem_nil _
    | cons b bs => simp [sameTypes] at h
  | cons a as ih =>
    obtain ⟨b, bs, rfl, hab, hrest⟩ := of_sameTypes_cons h
    refine List.forall_mem_cons.mpr ⟨⟨a, List.mem_cons_self, hab⟩, fun m hm => ?_⟩
    obtain ⟨x, hx, hxm⟩ := ih hrest m hm
    exact ⟨x, List.mem_cons_of_mem a hx, hxm⟩

theorem exists_same_of_same (h : a.same b = true) :
    ∀ m ∈ b.members, ∃ x ∈ a.members, x.same m = true := by
  cases a with
  | union as =>
    obtain ⟨bs, rfl, hsame⟩ := of_same_union h
    exact exists_same_of_sameTypes hsame
  | _ =>
    have hb : b.members = [b] := by
      cases b <;> first | rfl | simp [same] at h
    rw [hb]
    exact List.forall_mem_singleton.mpr ⟨_, List.mem_singleton_self _, h⟩

/-- Two types that are the same are united by either. -/
theorem Unites.of_same (ha : Unites a as) (hb : Unites b bs) (h : a.same b = true) :
    Unites a (as ++ bs) where
  differ := ha.differ
  single := ha.single
  mem_iff m := by
    have hfirst : (First · (a.members ++ b.members)) = (First · a.members) := by
      funext x
      refine propext (first_append.trans (or_iff_left ?_))
      rintro ⟨hnew, hx⟩
      obtain ⟨y, hy, hsame⟩ := exists_same_of_same h x hx.mem
      exact Bool.false_ne_true ((isIn_eq_false_iff.mp hnew y hy).symm.trans hsame)
    rw [← normalMember_members_append ha hb, hfirst]
    exact ha.members.mem_iff m

theorem Unites.merge (ha : Unites a as) (hb : Unites b bs) (has : any ∉ as) (hbs : any ∉ bs) :
    Unites (a.merge b) (as ++ bs) := by
  have hane : a.isAny = false := Bool.eq_false_iff.mpr
    (isAny_iff.not.mpr (eq_any_of_members (ha.any_notMem has)))
  have hbne : b.isAny = false := Bool.eq_false_iff.mpr
    (isAny_iff.not.mpr (eq_any_of_members (hb.any_notMem hbs)))
  rw [StaticType.merge, hane, hbne]
  simp only [Bool.false_eq_true, if_false]
  split
  · next hsame => exact ha.of_same hb hsame
  · have hpair : [a, b].flatMap StaticType.members = a.members ++ b.members := by
      rw [List.flatMap_cons, List.flatMap_cons, List.flatMap_nil, List.append_nil]
    have hsingle : ∀ m ∈ [a, b].flatMap StaticType.members, IsSingle m := by
      rw [hpair]
      exact fun m hm => (List.mem_append.mp hm).elim (ha.single m) (hb.single m)
    have hany : any ∉ [a, b].flatMap StaticType.members := by
      rw [hpair]
      exact fun hm => (List.mem_append.mp hm).elim (ha.any_notMem has) (hb.any_notMem hbs)
    have hmembers := unites_unionOf hsingle hany
    rw [hpair] at hmembers
    refine ⟨hmembers.differ, hmembers.single, fun m => ?_⟩
    rw [hmembers.mem_iff, normalMember_members_append ha hb]

theorem IsNormal.says (h : IsNormal t) : Says t [t] := by
  obtain ⟨ts, hsingle, rfl⟩ := h
  by_cases hany : any ∈ ts.flatMap StaticType.members
  · have heq := unionOf_of_any hany
    exact .nothing (List.forall_mem_singleton.mpr heq) heq
  · have hunites := unites_unionOf hsingle hany
    have hnot := hunites.any_notMem hany
    have hne := eq_any_of_members hnot
    have hsaid := said_singleton hne
    exact .members ⟨_, List.mem_singleton_self _, hne⟩ (hsaid ▸ hunites.single) (hsaid ▸ hnot)
      (hsaid ▸ hunites.members)

theorem unionOf_singleton (h : IsSingle t) : unionOf [t] = t := by
  have hdistinct : distinctMembers [t] = [t] := by
    rw [distinctMembers, List.flatMap_singleton, h]
    rfl
  rw [unionOf, hdistinct]
  cases t <;> simp [isAny, isUnknown, isNever, joinBooleans, dropStringLiterals,
    dropNumberLiterals, ofMembers, insertNew, isIn, same, isBooleanLiteral, isStringLiteral, isNumberLiteral]

theorem isNormal_of_isSingle (h : IsSingle t) : IsNormal t := by
  refine ⟨[t], ?_, unionOf_singleton h⟩
  rw [List.flatMap_singleton, h]
  exact List.forall_mem_singleton.mpr h

theorem IsNormal.single (h : IsNormal t) : ∀ m ∈ t.members, IsSingle m := by
  obtain ⟨ts, hsingle, rfl⟩ := h
  by_cases hany : any ∈ ts.flatMap StaticType.members
  · rw [unionOf_of_any hany]
    exact List.forall_mem_singleton.mpr rfl
  · exact (unites_unionOf hsingle hany).single

theorem isNormal_unionOf (h : ∀ t ∈ ts, IsNormal t) : IsNormal (unionOf ts) := by
  refine ⟨ts, fun m hm => ?_, rfl⟩
  obtain ⟨t, ht, hm⟩ := List.mem_flatMap.mp hm
  exact (h t ht).single m hm

theorem IsNormal.merge (ha : IsNormal a) (hb : IsNormal b) : IsNormal (a.merge b) := by
  rw [StaticType.merge]
  split
  · exact hb
  split
  · exact ha
  split
  · exact ha
  · exact isNormal_unionOf (List.forall_mem_cons.mpr ⟨ha, List.forall_mem_singleton.mpr hb⟩)

/-- Merging two types says what both say. -/
theorem Says.merge (ha : Says a as) (hb : Says b bs) : Says (a.merge b) (as ++ bs) := by
  cases ha with
  | nothing has haeq =>
    have hmerge : a.merge b = b := by rw [haeq, StaticType.merge, isAny, if_pos rfl]
    rw [hmerge]
    cases hb with
    | nothing hbs hbeq =>
      exact .nothing (fun u hu => (List.mem_append.mp hu).elim (has u) (hbs u)) hbeq
    | members hsome hsingle hnot hunites =>
      obtain ⟨u, hu, hne⟩ := hsome
      have hsaid : said (as ++ bs) = said bs := by rw [said_append, said_eq_nil has, List.nil_append]
      exact .members ⟨u, List.mem_append_right as hu, hne⟩ (hsaid ▸ hsingle) (hsaid ▸ hnot)
        (hsaid ▸ hunites)
  | members hsome hsingle hnot hunites =>
    obtain ⟨u, hu, hne⟩ := hsome
    have hsome : ∃ u ∈ as ++ bs, u ≠ any := ⟨u, List.mem_append_left bs hu, hne⟩
    cases hb with
    | nothing hbs hbeq =>
      have hane : a.isAny = false := Bool.eq_false_iff.mpr
        (isAny_iff.not.mpr (eq_any_of_members (hunites.any_notMem hnot)))
      have hmerge : a.merge b = a := by
        rw [hbeq, StaticType.merge, hane, if_neg Bool.false_ne_true, isAny, if_pos rfl]
      have hsaid : said (as ++ bs) = said as := by rw [said_append, said_eq_nil hbs, List.append_nil]
      rw [hmerge]
      exact .members hsome (hsaid ▸ hsingle) (hsaid ▸ hnot) (hsaid ▸ hunites)
    | members _ hbsingle hbnot hbunites =>
      refine .members hsome ?_ ?_ ?_
      · rw [said_append]
        exact fun m hm => (List.mem_append.mp hm).elim (hsingle m) (hbsingle m)
      · rw [said_append]
        exact fun hm => (List.mem_append.mp hm).elim hnot hbnot
      · rw [said_append]
        exact hunites.merge hbunites hnot hbnot

/-- Where all of the types are `any`, so is what they say together. -/
theorem Says.eq_any (h : Says t ts) (hall : ∀ u ∈ ts, u = any) : t = any := by
  cases h with
  | nothing _ heq => exact heq
  | members hsome =>
    obtain ⟨u, hu, hne⟩ := hsome
    exact absurd (hall u hu) hne

/-- Otherwise they say what the normal union of all but `any` says. -/
theorem Says.mem_members_iff (h : Says t ts) (hsome : ∃ u ∈ ts, u ≠ any) (m : StaticType) :
    m ∈ t.members ↔ m ∈ (unionOf (ts.filter fun u => !u.isAny)).members := by
  cases h with
  | nothing hall =>
    obtain ⟨u, hu, hne⟩ := hsome
    exact absurd (hall u hu) hne
  | members _ hsingle hnot hunites =>
    rw [hunites.mem_iff, (unites_unionOf hsingle hnot).mem_iff]
    rfl

end Says

end StaticType
end Inlay
