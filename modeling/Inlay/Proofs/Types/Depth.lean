import Inlay.Proofs.Types.Assignability

/-!
# Depth of types

Assignability gives up after `depthLimit` steps, in favour of the value.  Every step goes down in
one of the two types or in both, but for the one from `boolean` to its literals, so between two
types that are not nested too deep it never gives up (`assignableWithin_eq_accepts`).  What is
left is a relation of the two types alone, `accepts`, whose steps need no count.

Since everything fits where the steps end, a step less takes no less, however deep the types are
(`assignableWithin_of_succ`).
-/

namespace Inlay
namespace StaticType

/-! ## Nesting -/

mutual
/-- How deep types are nested in the type. -/
def depth : StaticType → Nat
  | .union ts => heightOfTypes ts
  | .array t => t.depth + 1
  | .function f => heightOfSignature f
  | .object _ ms call => max (heightOfFields ms) (heightOfCall call)
  | _ => 0

/-- One more than the depth of the deepest of the types. -/
def heightOfTypes : List StaticType → Nat
  | [] => 0
  | t :: ts => max (t.depth + 1) (heightOfTypes ts)

def heightOfFields : List (Field StaticType) → Nat
  | [] => 0
  | ⟨_, t, _⟩ :: fs => max (t.depth + 1) (heightOfFields fs)

def heightOfSignature : Signature StaticType → Nat
  | ⟨ps, r⟩ => max (heightOfFields ps) (r.depth + 1)

def heightOfCall : Option (Signature StaticType) → Nat
  | none => 0
  | some f => heightOfSignature f
end

theorem depth_lt_heightOfTypes {t : StaticType} {ts : List StaticType} (h : t ∈ ts) :
    t.depth < heightOfTypes ts := by
  induction ts with
  | nil => exact absurd h List.not_mem_nil
  | cons u us ih =>
    rw [heightOfTypes]
    rcases List.mem_cons.mp h with rfl | h
    · exact Nat.le_max_left _ _
    · exact Nat.lt_of_lt_of_le (ih h) (Nat.le_max_right _ _)

theorem heightOfTypes_le {ts : List StaticType} {d : Nat} (h : ∀ t ∈ ts, t.depth < d) :
    heightOfTypes ts ≤ d := by
  induction ts with
  | nil => exact Nat.zero_le d
  | cons t ts ih =>
    rw [List.forall_mem_cons] at h
    exact Nat.max_le.mpr ⟨h.1, ih h.2⟩

theorem heightOfFields_eq (fs : List (Field StaticType)) :
    heightOfFields fs = heightOfTypes (fs.map (·.type)) := by
  induction fs with
  | nil => rfl
  | cons f fs ih =>
    obtain ⟨n, t, o⟩ := f
    rw [heightOfFields, ih]
    rfl

theorem depth_lt_heightOfSignature {t : StaticType} {f : Signature StaticType}
    (h : t ∈ signatureTypes f) : t.depth < heightOfSignature f := by
  obtain ⟨ps, r⟩ := f
  rw [heightOfSignature, heightOfFields_eq]
  rcases List.mem_append.mp h with h | h
  · exact Nat.lt_of_lt_of_le (depth_lt_heightOfTypes h) (Nat.le_max_left _ _)
  · rw [List.mem_singleton.mp h]
    exact Nat.le_max_right _ _

theorem depth_lt_of_mem_parts {s t : StaticType} (h : s ∈ t.parts) : s.depth < t.depth := by
  cases t with
  | union ts => exact depth_lt_heightOfTypes h
  | array t =>
    rw [List.mem_singleton.mp h]
    exact Nat.lt_succ_self t.depth
  | function f => exact depth_lt_heightOfSignature h
  | object name ms call =>
    rw [depth, heightOfFields_eq]
    rcases List.mem_append.mp h with h | h
    · exact Nat.lt_of_lt_of_le (depth_lt_heightOfTypes h) (Nat.le_max_left _ _)
    · cases call with
      | none => exact absurd h List.not_mem_nil
      | some f => exact Nat.lt_of_lt_of_le (depth_lt_heightOfSignature h) (Nat.le_max_right _ _)
  | _ => exact absurd h List.not_mem_nil

/-- What holds of a type when it holds of its parts holds of all types. -/
theorem inductionOnParts {motive : StaticType → Prop}
    (step : ∀ t, (∀ s ∈ t.parts, motive s) → motive t) (t : StaticType) : motive t :=
  (measure depth).wf.induction t fun t ih => step t fun _ hs => ih _ (depth_lt_of_mem_parts hs)

/-! ## Comparisons of the parts -/

section Comparing

variable {α : Type} {p q : α → Bool} {xs : List α}

theorem all_eq_of_mem (h : ∀ x ∈ xs, p x = q x) : xs.all p = xs.all q := by
  rw [Bool.eq_iff_iff, List.all_eq_true, List.all_eq_true]
  exact forall₂_congr fun x hx => by rw [h x hx]

theorem any_eq_of_mem (h : ∀ x ∈ xs, p x = q x) : xs.any p = xs.any q := by
  rw [Bool.eq_iff_iff, List.any_eq_true, List.any_eq_true]
  exact exists_congr fun x => and_congr_right fun hx => by rw [h x hx]

variable {fits fits' : StaticType → StaticType → Bool} {f g : Signature StaticType}
  {call own : Option (Signature StaticType)} {ms ps : List (Field StaticType)}

/-- What fits by one comparison fits by another one, in both directions. -/
def FitsToo (fits fits' : StaticType → StaticType → Bool) (s u : StaticType) : Prop :=
  (fits s u = true → fits' s u = true) ∧ (fits u s = true → fits' u s = true)

/-- Parameters compare in both directions. -/
theorem signatureFits_too
    (h : ∀ s ∈ signatureTypes f, ∀ u ∈ signatureTypes g, FitsToo fits fits' s u)
    (hfits : signatureFits fits f g = true) : signatureFits fits' f g = true := by
  rw [signatureFits, Bool.and_eq_true, Bool.and_eq_true, List.all_eq_true] at hfits ⊢
  obtain ⟨⟨hrequired, hparams⟩, hresult⟩ := hfits
  refine ⟨⟨hrequired, fun p hp => ?_⟩, ?_⟩
  · obtain ⟨hto, hfrom⟩ := h _
      (List.mem_append_left _ (List.mem_map_of_mem (List.of_mem_zip hp).1)) _
      (List.mem_append_left _ (List.mem_map_of_mem (List.of_mem_zip hp).2))
    have hpfits := hparams p hp
    rw [Bool.or_eq_true] at hpfits ⊢
    exact hpfits.imp hto hfrom
  · rw [Bool.or_eq_true] at hresult ⊢
    exact hresult.imp_right (h f.result (List.mem_append_right _ (List.mem_singleton_self _))
      g.result (List.mem_append_right _ (List.mem_singleton_self _))).1

theorem callFits_too (h : ∀ f ∈ call, ∀ g ∈ own, ∀ s ∈ signatureTypes f,
    ∀ u ∈ signatureTypes g, FitsToo fits fits' s u)
    (hfits : callFits fits call own = true) : callFits fits' call own = true := by
  cases call with
  | none => rfl
  | some f =>
    cases own with
    | none => exact hfits
    | some g => exact signatureFits_too (h f rfl g rfl) hfits

theorem membersFit_too
    (h : ∀ s ∈ ms.map (·.type), ∀ u ∈ ps.map (·.type), fits s u = true → fits' s u = true)
    (hfits : membersFit fits ms ps = true) : membersFit fits' ms ps = true := by
  refine List.all_eq_true.mpr fun m hm => ?_
  have hmfits := List.all_eq_true.mp hfits m hm
  cases hfound : memberNamed? ps m.name with
  | none =>
    rw [hfound] at hmfits
    exact hmfits
  | some found =>
    rw [hfound] at hmfits
    exact h _ (List.mem_map_of_mem hm) _ (List.mem_map_of_mem (List.mem_of_find?_eq_some hfound))
      hmfits

theorem mem_parts_of_call {name : Option String} {s : StaticType} (hf : f ∈ call)
    (hs : s ∈ signatureTypes f) : s ∈ (object name ms call).parts := by
  obtain rfl := Option.mem_def.mp hf
  exact List.mem_append_right _ hs

theorem objectFits_too {name : Option String} {v : StaticType}
    (h : ∀ s ∈ (object name ms call).parts, ∀ u ∈ v.parts, FitsToo fits fits' s u)
    (hfits : objectFits fits name ms call v = true) : objectFits fits' name ms call v = true := by
  cases v with
  | function g =>
    rw [objectFits, Bool.and_eq_true] at hfits ⊢
    refine hfits.imp_left (callFits_too fun f hf g' hg s hs u hu => ?_)
    obtain rfl := Option.some.inj hg
    exact h s (mem_parts_of_call hf hs) u hu
  | object name' ps own =>
    rw [objectFits, Bool.or_eq_true, Bool.and_eq_true] at hfits ⊢
    refine hfits.imp_right (And.imp ?_ ?_)
    · exact callFits_too fun f hf g hg s hs u hu =>
        h s (mem_parts_of_call hf hs) u (mem_parts_of_call hg hu)
    · exact membersFit_too fun s hs u hu =>
        (h s (List.mem_append_left _ hs) u (List.mem_append_left _ hu)).1
  | _ => exact hfits

end Comparing

/-! ## Deep enough -/

section Deep

variable {n m : Nat} {t v : StaticType}

/-- What a step takes of a direct value, another step takes as well if the steps below it do so
of the parts, and, for a union, of the value against its members. -/
theorem assignableWithin_too (hdirect : v.isDirect = true)
    (hunion : ∀ ts, t = .union ts → ∀ s ∈ ts,
      assignableWithin n s v = true → assignableWithin m s v = true)
    (hparts : ∀ s ∈ t.parts, ∀ u ∈ v.parts,
      FitsToo (assignableWithin n) (assignableWithin m) s u)
    (h : assignableWithin (n + 1) t v = true) : assignableWithin (m + 1) t v = true := by
  cases t with
  | union ts =>
    rw [union_assignableWithin hdirect, List.any_eq_true] at h ⊢
    obtain ⟨s, hs, hsv⟩ := h
    exact ⟨s, hs, hunion ts rfl s hs hsv⟩
  | array t =>
    rw [array_assignableWithin hdirect] at h ⊢
    cases v with
    | array u => exact (hparts t (List.mem_singleton_self t) u (List.mem_singleton_self u)).1 h
    | _ => exact h
  | function f =>
    rw [function_assignableWithin hdirect] at h ⊢
    cases v with
    | function g => exact signatureFits_too hparts h
    | object name ms call =>
      cases call with
      | none => exact h
      | some g =>
        exact signatureFits_too
          (fun s hs u hu => hparts s hs u (List.mem_append_right _ hu)) h
    | _ => exact h
  | object name ms call =>
    rw [object_assignableWithin hdirect] at h ⊢
    exact objectFits_too hparts h
  | _ => cases v <;> first | exact h | cases hdirect

/-- A step less takes no less: where the steps end, everything fits. -/
theorem assignableWithin_of_succ (h : assignableWithin (n + 1) t v = true) :
    assignableWithin n t v = true := by
  induction n generalizing t v with
  | zero => rfl
  | succ n ih =>
    cases v with
    | any | unknown | never => exact assignableWithin_of_vague rfl _ _
    | union vs =>
      rw [assignableWithin_union, List.all_eq_true] at h ⊢
      exact fun v hv => ih (h v hv)
    | boolean =>
      rw [assignableWithin_boolean, Bool.and_eq_true] at h ⊢
      exact h.imp ih ih
    | _ => exact assignableWithin_too rfl (fun _ _ _ _ => ih) (fun _ _ _ _ => ⟨ih, ih⟩) h

/-- Steps agree on a direct value where the steps below agree on the parts, and, for a union,
on its members against the value. -/
theorem assignableWithin_congr (hdirect : v.isDirect = true)
    (hunion : ∀ ts, t = .union ts → ∀ s ∈ ts, assignableWithin n s v = assignableWithin m s v)
    (hparts : ∀ s ∈ t.parts, ∀ u ∈ v.parts,
      assignableWithin n s u = assignableWithin m s u ∧
        assignableWithin n u s = assignableWithin m u s) :
    assignableWithin (n + 1) t v = assignableWithin (m + 1) t v := by
  rw [Bool.eq_iff_iff]
  constructor
  · exact assignableWithin_too hdirect (fun ts hts s hs => (hunion ts hts s hs).symm.trans)
      fun s hs u hu => ⟨(hparts s hs u hu).1.symm.trans, (hparts s hs u hu).2.symm.trans⟩
  · exact assignableWithin_too hdirect (fun ts hts s hs => (hunion ts hts s hs).trans)
      fun s hs u hu => ⟨(hparts s hs u hu).1.trans, (hparts s hs u hu).2.trans⟩

/-- A boolean literal is gone down to in one step from `boolean`, and has no parts. -/
theorem assignableWithin_succ_booleanLiteral {b : Bool} (h : t.depth + 1 ≤ n) :
    assignableWithin (n + 1) t (.booleanLiteral b) = assignableWithin n t (.booleanLiteral b) := by
  induction n generalizing t with
  | zero => omega
  | succ n ih =>
    refine assignableWithin_congr rfl ?_ fun _ _ _ hu => absurd hu List.not_mem_nil
    rintro ts rfl s hs
    have := depth_lt_of_mem_parts (t := union ts) hs
    exact ih (by omega)

/-- Going deeper than the types are nested changes nothing. -/
theorem assignableWithin_succ (h : t.depth + v.depth + 2 ≤ n) :
    assignableWithin (n + 1) t v = assignableWithin n t v := by
  induction n generalizing t v with
  | zero => omega
  | succ n ih =>
    have hdirect : v.isDirect = true →
        assignableWithin (n + 1 + 1) t v = assignableWithin (n + 1) t v := by
      intro hdirect
      refine assignableWithin_congr hdirect ?_ fun s hs u hu => ?_
      · rintro ts rfl s hs
        have := depth_lt_of_mem_parts (t := union ts) hs
        exact ih (by omega)
      · have := depth_lt_of_mem_parts hs
        have := depth_lt_of_mem_parts hu
        exact ⟨ih (by omega), ih (by omega)⟩
    cases v with
    | any | unknown | never =>
      rw [assignableWithin_of_vague rfl, assignableWithin_of_vague rfl]
    | union vs =>
      rw [assignableWithin_union, assignableWithin_union]
      refine all_eq_of_mem fun u hu => ?_
      have := depth_lt_of_mem_parts (t := union vs) hu
      exact ih (by omega)
    | boolean =>
      rw [assignableWithin_boolean, assignableWithin_boolean,
        assignableWithin_succ_booleanLiteral (by omega),
        assignableWithin_succ_booleanLiteral (by omega)]
    | _ => exact hdirect rfl

/-- A target accepts a value when they fit all the way down. -/
def accepts (t v : StaticType) : Bool := assignableWithin (t.depth + v.depth + 2) t v

theorem assignableWithin_eq_accepts (h : t.depth + v.depth + 2 ≤ n) :
    assignableWithin n t v = t.accepts v := by
  induction h with
  | refl => rfl
  | step h ih => rw [assignableWithin_succ h, ih]

theorem assignable_eq_accepts (h : t.depth + v.depth + 2 ≤ depthLimit) :
    t.assignable v = t.accepts v :=
  assignableWithin_eq_accepts h

end Deep

/-! ## Steps without a count -/

section Steps

variable {t v : StaticType}

theorem accepts_of_vague (h : v.isVague = true) : t.accepts v = true :=
  assignableWithin_of_vague h _ _

theorem accepts_union (t : StaticType) (vs : List StaticType) :
    t.accepts (.union vs) = vs.all fun v => t.accepts v := by
  rw [← assignableWithin_eq_accepts (Nat.le_succ _), assignableWithin_union]
  refine all_eq_of_mem fun v hv => assignableWithin_eq_accepts ?_
  have := depth_lt_of_mem_parts (t := union vs) hv
  omega

theorem accepts_boolean (t : StaticType) : t.accepts .boolean =
    (t.accepts (.booleanLiteral true) && t.accepts (.booleanLiteral false)) := by
  rw [← assignableWithin_eq_accepts (Nat.le_succ _), assignableWithin_boolean]
  rfl

/-- A direct value is accepted by a union that has a member for it. -/
theorem union_accepts (h : v.isDirect = true) (ts : List StaticType) :
    (union ts).accepts v = ts.any fun t => t.accepts v := by
  rw [← assignableWithin_eq_accepts (Nat.le_succ _), union_assignableWithin h]
  refine any_eq_of_mem fun t ht => assignableWithin_eq_accepts ?_
  have := depth_lt_of_mem_parts (t := union ts) ht
  omega

/-- Targets that accept the same direct values accept the same values. -/
theorem accepts_eq_of_direct {t u : StaticType}
    (h : ∀ v : StaticType, v.isDirect = true → t.accepts v = u.accepts v) (v : StaticType) :
    t.accepts v = u.accepts v := by
  induction v using inductionOnParts with
  | step v ih =>
    cases v with
    | any | unknown | never => rw [accepts_of_vague rfl, accepts_of_vague rfl]
    | union vs =>
      rw [accepts_union, accepts_union]
      exact all_eq_of_mem ih
    | boolean => rw [accepts_boolean, accepts_boolean, h _ rfl, h _ rfl]
    | _ => exact h _ rfl

end Steps

end StaticType
end Inlay
