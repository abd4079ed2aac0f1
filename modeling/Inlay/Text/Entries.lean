/-!
# Entries under keys

Small dictionaries are lists of pairs in the order in which their keys came.
-/

namespace Inlay
namespace Entries

/-- Give a key a value: in its place, or behind all others. -/
def set {κ α : Type} [BEq κ] (key : κ) (value : α) : List (κ × α) → List (κ × α)
  | [] => [(key, value)]
  | e :: rest => if e.1 == key then (key, value) :: rest else e :: set key value rest

def setAll {κ α : Type} [BEq κ] (entries more : List (κ × α)) : List (κ × α) :=
  more.foldl (fun es e => set e.1 e.2 es) entries

def erase {κ α : Type} [BEq κ] (key : κ) (entries : List (κ × α)) : List (κ × α) :=
  entries.filter fun e => !(e.1 == key)

theorem lookup_set_self {κ α : Type} [BEq κ] [LawfulBEq κ] (key : κ) (value : α)
    (entries : List (κ × α)) : (set key value entries).lookup key = some value := by
  induction entries with
  | nil => simp [set]
  | cons e rest ih =>
    obtain ⟨k, v⟩ := e
    rw [set]
    split
    · simp
    · next h =>
      have h' : (key == k) = false := by
        simp only [beq_eq_false_iff_ne, ne_eq]
        rintro rfl
        simp at h
      rw [List.lookup_cons, h', ih]

theorem lookup_set_ne {κ α : Type} [BEq κ] [LawfulBEq κ] {key key' : κ} (h : key' ≠ key) (value : α)
    (entries : List (κ × α)) : (set key value entries).lookup key' = entries.lookup key' := by
  have hne : (key' == key) = false := beq_eq_false_iff_ne.mpr h
  induction entries with
  | nil => rw [set, List.lookup_cons, hne]
  | cons e rest ih =>
    obtain ⟨k, v⟩ := e
    rw [set]
    split
    · next hk =>
      rw [← beq_iff_eq.mp hk] at hne
      rw [List.lookup_cons, List.lookup_cons, ← beq_iff_eq.mp hk, hne]
    · rw [List.lookup_cons, List.lookup_cons, ih]

theorem lookup_erase_self {κ α : Type} [BEq κ] [LawfulBEq κ] (key : κ) (entries : List (κ × α)) :
    (erase key entries).lookup key = none := by
  rw [List.lookup_eq_none_iff]
  intro e he
  have hkeep : (e.1 == key) = false := by simpa using (List.mem_filter.mp he).2
  exact bne_iff_ne.mpr (bne_iff_ne.mp (congrArg not hkeep)).symm

theorem lookup_erase_ne {κ α : Type} [BEq κ] [LawfulBEq κ] {key key' : κ} (h : key' ≠ key)
    (entries : List (κ × α)) : (erase key entries).lookup key' = entries.lookup key' := by
  induction entries with
  | nil => rfl
  | cons e rest ih =>
    obtain ⟨k, v⟩ := e
    by_cases hk : k = key
    · have hdrop : erase key ((k, v) :: rest) = erase key rest :=
        List.filter_cons_of_neg (by rw [beq_iff_eq.mpr hk]; exact Bool.false_ne_true)
      have hne : (key' == k) = false := beq_eq_false_iff_ne.mpr (hk ▸ h)
      rw [hdrop, ih, List.lookup_cons, hne]
    · have hkeep : erase key ((k, v) :: rest) = (k, v) :: erase key rest :=
        List.filter_cons_of_pos (by rw [beq_eq_false_iff_ne.mpr hk]; rfl)
      rw [hkeep, List.lookup_cons, List.lookup_cons, ih]

/-- Taking out a key that is not there leaves everything. -/
theorem erase_of_lookup_eq_none {κ α : Type} [BEq κ] [LawfulBEq κ] {key : κ}
    {entries : List (κ × α)} (h : entries.lookup key = none) : erase key entries = entries := by
  refine List.filter_eq_self.mpr fun e he => ?_
  have hne := bne_iff_ne.mp (List.lookup_eq_none_iff.mp h e he)
  rw [beq_eq_false_iff_ne.mpr (Ne.symm hne), Bool.not_false]

/-- What is left after taking a key out was there before. -/
theorem lookup_of_lookup_erase {κ α : Type} [BEq κ] [LawfulBEq κ] {key key' : κ} {value : α}
    {entries : List (κ × α)} (h : (erase key entries).lookup key' = some value) :
    entries.lookup key' = some value := by
  by_cases hkey : key' = key
  · rw [hkey, lookup_erase_self] at h
    exact absurd h.symm (Option.some_ne_none value)
  · exact (lookup_erase_ne hkey entries).symm.trans h

end Entries
end Inlay
