import Inlay.Text.Distance
import Mathlib.Data.List.Induction

/-!
# The suggested name

`nearest?` goes through the candidates once and keeps the best so far.  What it ends with is the
first of the candidates at the least distance, among those that may be suggested at all:
`nearest?_firstNearest`.  That a wider limit changes no suggestion, and that candidates behind
the others take its place only if they are nearer, are read off this.

The induction is on the list from its end, since the last candidate is the last one that is
compared.
-/

namespace Inlay

/-- The candidate may be suggested: it is another name, and near enough. -/
structure Suggestible (name : String) (most : Nat) (candidate : String) : Prop where
  another : sameName candidate name = false
  near : editDistance name candidate ≤ min most (name.length - 1)

/-- A candidate that may be suggested, nearer than all that may be before it and at least as near as
all that may be behind it. -/
def FirstNearest (name : String) (most : Nat) (candidates : List String) (c : String) : Prop :=
  Suggestible name most c ∧ ∃ before behind, candidates = before ++ c :: behind ∧
    (∀ b ∈ before, Suggestible name most b → editDistance name c < editDistance name b) ∧
    ∀ b ∈ behind, Suggestible name most b → editDistance name c ≤ editDistance name b

instance (name : String) (most : Nat) (candidate : String) :
    Decidable (Suggestible name most candidate) :=
  decidable_of_iff
    (sameName candidate name = false ∧ editDistance name candidate ≤ min most (name.length - 1))
    ⟨fun h => ⟨h.1, h.2⟩, fun h => ⟨h.another, h.near⟩⟩

section Nearest

variable {name c c' : String} {candidates more : List String} {most most' : Nat}

namespace FirstNearest

theorem mem (h : FirstNearest name most candidates c) : c ∈ candidates := by
  obtain ⟨-, before, behind, rfl, -, -⟩ := h
  exact List.mem_append_right before List.mem_cons_self

/-- No candidate that may be suggested is nearer. -/
theorem le (h : FirstNearest name most candidates c) {b : String} (hb : b ∈ candidates)
    (hsuggestible : Suggestible name most b) : editDistance name c ≤ editDistance name b := by
  obtain ⟨-, before, behind, rfl, hbefore, hbehind⟩ := h
  rcases List.mem_append.mp hb with hb | hb
  · exact Nat.le_of_lt (hbefore b hb hsuggestible)
  · rcases List.mem_cons.mp hb with rfl | hb
    · exact Nat.le_refl _
    · exact hbehind b hb hsuggestible

/-- The later of two would have to be nearer than the other, and neither is. -/
theorem unique (h : FirstNearest name most candidates c)
    (h' : FirstNearest name most candidates c') : c = c' := by
  have hle := h.le h'.mem h'.1
  have hle' := h'.le h.mem h.1
  obtain ⟨hc, before, behind, rfl, hbefore, -⟩ := h
  obtain ⟨hc', before', behind', hsplit, hbefore', -⟩ := h'
  rcases List.append_eq_append_iff.mp hsplit with ⟨mid, rfl, hmid⟩ | ⟨mid, rfl, hmid⟩
  · cases mid with
    | nil => exact (List.cons.inj hmid).1
    | cons b mid =>
      obtain ⟨rfl, -⟩ := List.cons.inj hmid
      have hlt := hbefore' c (List.mem_append_right _ List.mem_cons_self) hc
      omega
  · cases mid with
    | nil => exact (List.cons.inj hmid).1.symm
    | cons b mid =>
      obtain ⟨rfl, -⟩ := List.cons.inj hmid
      have hlt := hbefore c' (List.mem_append_right _ List.mem_cons_self) hc'
      omega

/-- What a wider limit lets in is farther than all that a narrower one does. -/
theorem widen (h : FirstNearest name most candidates c) (hmost : most ≤ most') :
    FirstNearest name most' candidates c := by
  obtain ⟨hc, before, behind, hsplit, hbefore, hbehind⟩ := h
  have hnear := hc.near
  refine ⟨⟨hc.another, by omega⟩, before, behind, hsplit, fun b hb hsuggestible => ?_,
    fun b hb hsuggestible => ?_⟩
  · by_cases hlimit : editDistance name b ≤ min most (name.length - 1)
    · exact hbefore b hb ⟨hsuggestible.another, hlimit⟩
    · omega
  · by_cases hlimit : editDistance name b ≤ min most (name.length - 1)
    · exact hbehind b hb ⟨hsuggestible.another, hlimit⟩
    · omega

theorem single (h : Suggestible name most c) (hothers : ∀ b ∈ candidates, ¬Suggestible name most b) :
    FirstNearest name most (candidates ++ [c]) c :=
  ⟨h, candidates, [], rfl, fun b hb hb' => absurd hb' (hothers b hb), List.forall_mem_nil _⟩

/-- A candidate behind the others that is nearer than the best of them. -/
theorem replace (h : FirstNearest name most candidates c) (hc' : Suggestible name most c')
    (hlt : editDistance name c' < editDistance name c) :
    FirstNearest name most (candidates ++ [c']) c' :=
  ⟨hc', candidates, [], rfl, fun _ hb hb' => Nat.lt_of_lt_of_le hlt (h.le hb hb'),
    List.forall_mem_nil _⟩

/-- Candidates behind the others that are no nearer than the best of them. -/
theorem keep (h : FirstNearest name most candidates c)
    (hmore : ∀ b ∈ more, Suggestible name most b → editDistance name c ≤ editDistance name b) :
    FirstNearest name most (candidates ++ more) c := by
  obtain ⟨hc, before, behind, rfl, hbefore, hbehind⟩ := h
  refine ⟨hc, before, behind ++ more, List.append_assoc _ _ _, hbefore, fun b hb => ?_⟩
  rcases List.mem_append.mp hb with hb | hb
  · exact hbehind b hb
  · exact hmore b hb

end FirstNearest

/-! ## One pass over the candidates -/

theorem admissible_concat_of_suggestible (h : Suggestible name most c) (candidates : List String) :
    admissible name (candidates ++ [c]) most =
      admissible name candidates most ++ [(c, editDistance name c)] := by
  have hkeep : [c].filter (fun c => !sameName c name) = [c] :=
    List.filter_cons_of_pos (by rw [h.another]; rfl)
  have hnear : editDistance name c ≤ suggestionLimit name most := h.near
  rw [admissible, List.filter_append, List.filterMap_append, hkeep]
  simp only [List.filterMap_cons, List.filterMap_nil, if_pos hnear]
  rfl

theorem admissible_concat_of_not (h : ¬Suggestible name most c) (candidates : List String) :
    admissible name (candidates ++ [c]) most = admissible name candidates most := by
  rw [admissible, List.filter_append, List.filterMap_append]
  by_cases hsame : sameName c name = true
  · have hdrop : [c].filter (fun c => !sameName c name) = [] :=
      List.filter_cons_of_neg (by rw [hsame]; exact Bool.false_ne_true)
    rw [hdrop, List.filterMap_nil, List.append_nil]
    rfl
  · have hfar : ¬editDistance name c ≤ suggestionLimit name most := fun hnear =>
      h ⟨Bool.eq_false_iff.mpr hsame, hnear⟩
    have hkeep : [c].filter (fun c => !sameName c name) = [c] :=
      List.filter_cons_of_pos (by rw [Bool.eq_false_iff.mpr hsame]; rfl)
    rw [hkeep]
    simp only [List.filterMap_cons, List.filterMap_nil, if_neg hfar, List.append_nil]
    rfl

/-- The best of the candidates so far, with its distance. -/
def IsBest (name : String) (most : Nat) (candidates : List String) : Option (String × Nat) → Prop
  | none => ∀ c ∈ candidates, ¬Suggestible name most c
  | some (c, d) => d = editDistance name c ∧ FirstNearest name most candidates c

theorem IsBest.nearerOf {best : Option (String × Nat)} (h : IsBest name most candidates best)
    (hc : Suggestible name most c) :
    IsBest name most (candidates ++ [c]) (nearerOf best (c, editDistance name c)) := by
  cases best with
  | none => exact ⟨rfl, .single hc h⟩
  | some best =>
    obtain ⟨b, d⟩ := best
    obtain ⟨rfl, hfirst⟩ := h
    rw [Inlay.nearerOf]
    split
    · next hle =>
      refine ⟨rfl, hfirst.keep fun x hx _ => ?_⟩
      rw [List.mem_singleton.mp hx]
      exact hle
    · next hlt => exact ⟨rfl, hfirst.replace hc (Nat.lt_of_not_le hlt)⟩

theorem IsBest.skip {best : Option (String × Nat)} (h : IsBest name most candidates best)
    (hc : ¬Suggestible name most c) : IsBest name most (candidates ++ [c]) best := by
  cases best with
  | none =>
    intro b hb
    rcases List.mem_append.mp hb with hb | hb
    · exact h b hb
    · rw [List.mem_singleton.mp hb]
      exact hc
  | some best =>
    refine ⟨h.1, h.2.keep fun b hb hb' => absurd hb' ?_⟩
    rw [List.mem_singleton.mp hb]
    exact hc

theorem isBest_foldl (name : String) (candidates : List String) (most : Nat) :
    IsBest name most candidates ((admissible name candidates most).foldl nearerOf none) := by
  induction candidates using List.reverseRecOn with
  | nil => exact List.forall_mem_nil _
  | append_singleton candidates c ih =>
    by_cases hc : Suggestible name most c
    · rw [admissible_concat_of_suggestible hc, List.foldl_append]
      exact ih.nearerOf hc
    · rw [admissible_concat_of_not hc]
      exact ih.skip hc

theorem nearest?_eq_none_iff (name : String) (candidates : List String) (most : Nat) :
    nearest? name candidates most = none ↔ ∀ c ∈ candidates, ¬Suggestible name most c := by
  have hbest := isBest_foldl name candidates most
  rw [nearest?, Option.map_eq_none_iff]
  constructor
  · intro hnone
    rwa [hnone] at hbest
  · intro hnot
    cases h : (admissible name candidates most).foldl nearerOf none with
    | none => rfl
    | some best =>
      rw [h] at hbest
      exact absurd hbest.2.1 (hnot best.1 hbest.2.mem)

theorem nearest?_eq_some_iff (name : String) (candidates : List String) (most : Nat) (c : String) :
    nearest? name candidates most = some c ↔ FirstNearest name most candidates c := by
  have hbest := isBest_foldl name candidates most
  have hfound : ∀ c, nearest? name candidates most = some c → FirstNearest name most candidates c := by
    intro c hc
    rw [nearest?, Option.map_eq_some_iff] at hc
    obtain ⟨best, hsome, rfl⟩ := hc
    rw [hsome] at hbest
    exact hbest.2
  refine ⟨hfound c, fun hc => ?_⟩
  cases h : nearest? name candidates most with
  | none => exact absurd hc.1 ((nearest?_eq_none_iff name candidates most).mp h c hc.mem)
  | some c' => rw [(hfound c' h).unique hc]

/-- There is a suggestion if and only if there is a candidate that may be suggested, and it is the
first of the nearest of these.  So a wider limit leaves the suggestion as it is, and among more
candidates it is the same one or one that is nearer. -/
theorem nearest?_firstNearest (name : String) (candidates : List String) (most : Nat) :
    (nearest? name candidates most = none ↔ ∀ c ∈ candidates, ¬Suggestible name most c) ∧
      (∀ c, nearest? name candidates most = some c ↔ FirstNearest name most candidates c) ∧
      (∀ c most', nearest? name candidates most = some c → most ≤ most' →
        nearest? name candidates most' = some c) ∧
      ∀ c more, nearest? name candidates most = some c →
        ∃ c', nearest? name (candidates ++ more) most = some c' ∧
          (c' = c ∨ editDistance name c' < editDistance name c) := by
  refine ⟨nearest?_eq_none_iff name candidates most, nearest?_eq_some_iff name candidates most, ?_, ?_⟩
  · intro c most' hc hmost
    rw [nearest?_eq_some_iff] at hc ⊢
    exact hc.widen hmost
  · intro c more hc
    rw [nearest?_eq_some_iff] at hc
    cases h : nearest? name (candidates ++ more) most with
    | none =>
      have hnone := (nearest?_eq_none_iff name (candidates ++ more) most).mp h
      exact absurd hc.1 (hnone c (List.mem_append_left _ hc.mem))
    | some c' =>
      have hc' := (nearest?_eq_some_iff name (candidates ++ more) most c').mp h
      refine ⟨c', rfl, ?_⟩
      by_cases hlt : editDistance name c' < editDistance name c
      · exact .inr hlt
      · have hmore : ∀ b ∈ more, Suggestible name most b →
            editDistance name c ≤ editDistance name b := fun b hb hb' =>
          Nat.le_trans (Nat.le_of_not_lt hlt) (hc'.le (List.mem_append_right _ hb) hb')
        exact .inl (hc'.unique (hc.keep hmore))

/-- `value` and `blue` are equally near, and the name itself is no suggestion. -/
theorem nearest?_firstNearest_of_tie :
    let candidates := ["Vlue", "checked", "value", "blue"]
    nearest? "vlue" candidates 1 = some "value" ∧
      (1 ≤ 3 ∧ nearest? "vlue" candidates 3 = some "value") ∧
      ∃ c', nearest? "vlue" (candidates ++ ["vlues"]) 1 = some c' ∧
        (c' = "value" ∨ editDistance "vlue" c' < editDistance "vlue" "value") := by
  intro candidates
  have hfound : nearest? "vlue" candidates 1 = some "value" := by decide +kernel
  obtain ⟨-, -, hwider, hmore⟩ := nearest?_firstNearest "vlue" candidates 1
  exact ⟨hfound, ⟨by decide, hwider "value" 3 hfound (by decide)⟩, hmore "value" ["vlues"] hfound⟩

end Nearest
end Inlay
