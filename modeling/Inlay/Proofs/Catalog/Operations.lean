import Inlay.Proofs.Catalog.NameMap
import Mathlib.Data.List.Induction

/-!
# Runs of a map from names

What is in a map behind any operations, told from the operations alone.

Under a key stands what the operations on that key leave, one after the other: `find?_run`.  The
keys are those that have been inserted and not been removed since, and they stand in the order in
which they came in, where a key that was removed comes in anew: `run_follows`.
-/

namespace Inlay

/-- Joining a value with another keeps its name. -/
class LawfulNamed (α : Type) [Named α] : Prop where
  name_merge : ∀ a b : α, Named.name (Named.merge a b) = Named.name a

instance : LawfulNamed Descriptor := ⟨fun _ _ => rfl⟩

instance : LawfulNamed Tag := ⟨fun _ _ => rfl⟩

namespace NameMap

variable {α : Type}

/-! ## Operations -/

/-- What is done to a map. -/
inductive Operation (α : Type) where
  | merge (value : α)
  | fill (value : α)
  | replace (value : α)
  | remove (name : String)

def operate [Named α] (m : NameMap α) : Operation α → NameMap α
  | .merge v => m.insertMerge v
  | .fill v => m.insertIfAbsent v
  | .replace v => (m.insertReplace v).2
  | .remove name => (m.remove name).2

/-- The map that operations make, one after the other. -/
def run [Named α] (ops : List (Operation α)) : NameMap α := ops.foldl operate empty

theorem Indexed.operate [Named α] [LawfulNamed α] {m : NameMap α} (h : m.Indexed)
    (o : Operation α) : (m.operate o).Indexed := by
  cases o with
  | merge v => exact h.insertMerge (fun a b => congrArg lowerName (LawfulNamed.name_merge a b)) v
  | fill v => exact h.insertIfAbsent v
  | replace v => exact h.insertReplace v
  | remove name => exact h.remove name

namespace Operation

variable [Named α]

/-- The key that an operation is about. -/
def key : Operation α → String
  | .merge v | .fill v | .replace v => NameMap.key v
  | .remove name => lowerName name

def removes : Operation α → Bool
  | .remove _ => true
  | _ => false

/-- What an operation leaves under its key, where `old?` was before. -/
def leaves (o : Operation α) (old? : Option α) : Option α :=
  match o with
  | .merge v => old?.merge Named.merge (some v)
  | .fill v => old?.or (some v)
  | .replace v => some v
  | .remove _ => none

end Operation

/-! ## What is stored -/

section Stored

variable [Named α]

/-- What is left under a key: only the operations on that key count. -/
def stored (ops : List (Operation α)) (k : String) : Option α :=
  (ops.filter fun o => o.key == k).foldl (fun old? o => o.leaves old?) none

theorem find?_operate_self {m : NameMap α} (h : m.Indexed) (o : Operation α) :
    (m.operate o).find? o.key = o.leaves (m.find? o.key) := by
  cases o with
  | merge v => exact find?_insertMerge_self m v
  | fill v => exact find?_insertIfAbsent_self m v
  | replace v => exact find?_insertReplace_self m v
  | remove name => exact find?_remove_self h name

theorem find?_operate_ne (m : NameMap α) {o : Operation α} {k : String} (h : k ≠ o.key) :
    (m.operate o).find? k = m.find? k := by
  cases o with
  | merge v => exact find?_insertMerge_ne h
  | fill v => exact find?_insertIfAbsent_ne h
  | replace v => exact find?_insertReplace_ne h
  | remove name => exact find?_remove_ne h

theorem run_concat (ops : List (Operation α)) (o : Operation α) :
    run (ops ++ [o]) = (run ops).operate o := by
  rw [run, List.foldl_append]
  rfl

theorem indexed_run [LawfulNamed α] (ops : List (Operation α)) : (run ops).Indexed := by
  induction ops using List.reverseRecOn with
  | nil => exact indexed_empty
  | append_singleton ops o ih =>
    rw [run_concat]
    exact ih.operate o

theorem find?_run [LawfulNamed α] (ops : List (Operation α)) (k : String) :
    (run ops).find? k = stored ops k := by
  induction ops using List.reverseRecOn with
  | nil => rfl
  | append_singleton ops o ih =>
    rw [run_concat, stored, List.filter_append, List.foldl_append, ← stored, ← ih]
    by_cases hk : o.key = k
    · subst hk
      have hkeep : [o].filter (fun o' => o'.key == o.key) = [o] :=
        List.filter_cons_of_pos (beq_self_eq_true o.key)
      rw [find?_operate_self (indexed_run ops), hkeep]
      rfl
    · have hdrop : [o].filter (fun o' => o'.key == k) = [] :=
        List.filter_cons_of_neg fun h => hk (beq_iff_eq.mp h)
      rw [find?_operate_ne (run ops) (Ne.symm hk), hdrop]
      rfl

end Stored

/-! ## The order of the keys -/

section Order

variable [Named α]

/-- An operation inserts the key, where `P` holds of the operations before it, and none behind
it removes the key. -/
def Inserted (P : List (Operation α) → Prop) (ops : List (Operation α)) (k : String) : Prop :=
  ∃ before o behind, ops = before ++ o :: behind ∧ (o.removes = false ∧ o.key = k) ∧ P before ∧
    ∀ o' ∈ behind, ¬(o'.removes = true ∧ o'.key = k)

/-- The key has been inserted and not been removed since. -/
def IsIn (ops : List (Operation α)) (k : String) : Prop := Inserted (fun _ => True) ops k

/-- The operation with this number is the first that inserts the key since it was last removed. -/
def EntersAt (ops : List (Operation α)) (k : String) (i : Nat) : Prop :=
  Inserted (fun before => before.length = i ∧ ¬IsIn before k) ops k

variable {P : List (Operation α) → Prop} {ops : List (Operation α)} {o : Operation α}
  {k : String} {i : Nat}

theorem inserted_concat :
    Inserted P (ops ++ [o]) k ↔
      (o.removes = false ∧ o.key = k) ∧ P ops ∨
        Inserted P ops k ∧ ¬(o.removes = true ∧ o.key = k) := by
  constructor
  · rintro ⟨before, x, behind, hsplit, hx, hbefore, hbehind⟩
    rcases List.eq_nil_or_concat behind with rfl | ⟨behind, y, rfl⟩
    · obtain ⟨rfl, hlast⟩ := List.append_inj' hsplit rfl
      obtain rfl : o = x := (List.cons.inj hlast).1
      exact .inl ⟨hx, hbefore⟩
    · rw [List.concat_eq_append] at hsplit hbehind
      rw [← List.cons_append, ← List.append_assoc] at hsplit
      obtain ⟨rfl, hlast⟩ := List.append_inj' hsplit rfl
      obtain rfl : o = y := (List.cons.inj hlast).1
      exact .inr ⟨⟨before, x, behind, rfl, hx, hbefore, fun o' ho' =>
        hbehind o' (List.mem_append_left _ ho')⟩, hbehind o (List.mem_append_right _ (.head _))⟩
  · rintro (⟨ho, hops⟩ | ⟨⟨before, x, behind, rfl, hx, hbefore, hbehind⟩, ho⟩)
    · exact ⟨ops, o, [], rfl, ho, hops, List.forall_mem_nil _⟩
    · refine ⟨before, x, behind ++ [o], by simp, hx, hbefore, fun o' ho' => ?_⟩
      rcases List.mem_append.mp ho' with ho' | ho'
      · exact hbehind o' ho'
      · rw [List.mem_singleton.mp ho']
        exact ho

theorem EntersAt.isIn (h : EntersAt ops k i) : IsIn ops k := by
  obtain ⟨before, o, behind, hsplit, ho, -, hbehind⟩ := h
  exact ⟨before, o, behind, hsplit, ho, trivial, hbehind⟩

theorem EntersAt.lt (h : EntersAt ops k i) : i < ops.length := by
  obtain ⟨before, o, behind, rfl, -, ⟨rfl, -⟩, -⟩ := h
  rw [List.length_append, List.length_cons]
  omega

/-- A key that is in has come in by some operation. -/
theorem IsIn.exists_entersAt (h : IsIn ops k) : ∃ i, EntersAt ops k i := by
  induction ops using List.reverseRecOn with
  | nil =>
    obtain ⟨before, o, behind, hsplit, -⟩ := h
    exact absurd hsplit (by simp)
  | append_singleton ops o ih =>
    by_cases hops : IsIn ops k ∧ ¬(o.removes = true ∧ o.key = k)
    · obtain ⟨i, hi⟩ := ih hops.1
      exact ⟨i, inserted_concat.mpr (.inr ⟨hi, hops.2⟩)⟩
    · rcases inserted_concat.mp h with ⟨ho, -⟩ | h
      · refine ⟨ops.length, inserted_concat.mpr (.inl ⟨ho, rfl, fun hin => hops ⟨hin, fun hr => ?_⟩⟩)⟩
        rw [ho.1] at hr
        exact Bool.false_ne_true hr.1
      · exact absurd h hops

theorem keys_operate (m : NameMap α) (o : Operation α) :
    (m.operate o).keys =
      if o.removes then m.keys.erase o.key
      else if o.key ∈ m.keys then m.keys else m.keys ++ [o.key] := by
  cases o with
  | merge v => exact keys_insertMerge m v
  | fill v => exact keys_insertIfAbsent m v
  | replace v => exact keys_insertReplace m v
  | remove name => exact keys_remove m name

/-- The keys of a map are those that are in, in the order in which they came in. -/
structure Follows (m : NameMap α) (ops : List (Operation α)) : Prop where
  isIn : ∀ k, k ∈ m.keys ↔ IsIn ops k
  ordered : m.keys.Pairwise fun k k' => ∀ i j, EntersAt ops k i → EntersAt ops k' j → i < j

namespace Follows

variable {m : NameMap α}

/-- A key that is in came in where it came in before. -/
theorem entersAt_of_concat (h : m.Follows ops) (hk : k ∈ m.keys) (hi : EntersAt (ops ++ [o]) k i) :
    EntersAt ops k i := by
  rcases inserted_concat.mp hi with ⟨-, -, hout⟩ | ⟨hi, -⟩
  · exact absurd ((h.isIn k).mp hk) hout
  · exact hi

theorem ordered_concat (h : m.Follows ops) (o : Operation α) :
    m.keys.Pairwise fun k k' =>
      ∀ i j, EntersAt (ops ++ [o]) k i → EntersAt (ops ++ [o]) k' j → i < j :=
  h.ordered.imp_of_mem fun hk hk' hlt i j hi hj =>
    hlt i j (h.entersAt_of_concat hk hi) (h.entersAt_of_concat hk' hj)

theorem operate (h : m.Follows ops) (hnodup : m.keys.Nodup) (o : Operation α) :
    (m.operate o).Follows (ops ++ [o]) := by
  have hkeys := keys_operate m o
  have hin : ∀ k, IsIn (ops ++ [o]) k ↔
      (o.removes = false ∧ o.key = k) ∨ k ∈ m.keys ∧ ¬(o.removes = true ∧ o.key = k) := by
    intro k
    rw [h.isIn]
    exact inserted_concat.trans (or_congr_left (and_iff_left trivial))
  cases hremoves : o.removes with
  | true =>
    rw [hremoves, if_pos rfl] at hkeys
    refine ⟨fun k => ?_, ?_⟩
    · rw [hkeys, hin, hnodup.mem_erase_iff, hremoves]
      simp [and_comm, eq_comm]
    · rw [hkeys]
      exact (h.ordered_concat o).sublist List.erase_sublist
  | false =>
    rw [hremoves, if_neg Bool.false_ne_true] at hkeys
    by_cases hmem : o.key ∈ m.keys
    · rw [if_pos hmem] at hkeys
      refine ⟨fun k => ?_, ?_⟩
      · rw [hkeys, hin, hremoves]
        simp
        rintro rfl
        exact hmem
      · rw [hkeys]
        exact h.ordered_concat o
    · rw [if_neg hmem] at hkeys
      refine ⟨fun k => ?_, ?_⟩
      · rw [hkeys, hin, hremoves]
        simp [or_comm, eq_comm]
      · rw [hkeys, List.pairwise_append]
        refine ⟨h.ordered_concat o, List.pairwise_singleton _ _, fun k hk k' hk' i j hi hj => ?_⟩
        obtain rfl := List.mem_singleton.mp hk'
        have hlt := (h.entersAt_of_concat hk hi).lt
        rcases inserted_concat.mp hj with ⟨-, hlast, -⟩ | ⟨hj, -⟩
        · omega
        · exact absurd ((h.isIn _).mpr (EntersAt.isIn hj)) hmem

theorem empty : (NameMap.empty : NameMap α).Follows [] := by
  refine ⟨fun k => iff_of_false List.not_mem_nil ?_, List.Pairwise.nil⟩
  rintro ⟨before, o, behind, hsplit, -⟩
  exact absurd hsplit (by simp)

end Follows

theorem run_follows [LawfulNamed α] (ops : List (Operation α)) : (run ops).Follows ops := by
  induction ops using List.reverseRecOn with
  | nil => exact .empty
  | append_singleton ops o ih =>
    rw [run_concat]
    exact ih.operate (indexed_run ops).nodup o

end Order

end NameMap
end Inlay
