import Inlay.Proofs.Types.Assignability
import Mathlib.Data.List.Forall2
import Mathlib.Data.Option.Basic

/-!
# Types with related parts

Two types are alike when they have one form and their parts are related.  A comparison keeps a
relation when types that fit still fit after both are replaced by related ones.  Since each step
of assignability compares the parts in the way of the step before, it is enough to know the
comparison of the step before: what it keeps, signatures, members, objects and in the end the
step itself keep (`Keeps.direct`).
-/

namespace Inlay

/-- Fields of one name, both optional or neither, whose types are related. -/
inductive Field.Rel {α : Type} (R : α → α → Prop) : Field α → Field α → Prop
  | mk {name : String} {a b : α} {isOptional : Bool} : R a b →
      Field.Rel R ⟨name, a, isOptional⟩ ⟨name, b, isOptional⟩

/-- Signatures whose parameters and results are related. -/
inductive Signature.Rel {α : Type} (R : α → α → Prop) : Signature α → Signature α → Prop
  | mk {ps qs : List (Field α)} {a b : α} : List.Forall₂ (Field.Rel R) ps qs → R a b →
      Signature.Rel R ⟨ps, a⟩ ⟨qs, b⟩

theorem Signature.Rel.refl {α : Type} {R : α → α → Prop} (h : ∀ a, R a a) (f : Signature α) :
    Signature.Rel R f f :=
  ⟨List.forall₂_same.mpr fun p _ => ⟨h p.type⟩, h f.result⟩

namespace StaticType

/-- Types of one form, whose parts are related. -/
inductive Alike (R : StaticType → StaticType → Prop) : StaticType → StaticType → Prop
  | leaf {t : StaticType} : t.isLeaf = true → Alike R t t
  | union {ts us : List StaticType} : List.Forall₂ R ts us → Alike R (.union ts) (.union us)
  | array {t u : StaticType} : R t u → Alike R (.array t) (.array u)
  | function {f g : Signature StaticType} : Signature.Rel R f g →
      Alike R (.function f) (.function g)
  | object {name : Option String} {ms ms' : List (Field StaticType)}
      {call call' : Option (Signature StaticType)} : List.Forall₂ (Field.Rel R) ms ms' →
      Option.Rel (Signature.Rel R) call call' →
      Alike R (.object name ms call) (.object name ms' call')

section Kept

variable {R : StaticType → StaticType → Prop}

theorem callRel_refl (h : ∀ t, R t t) (call : Option (Signature StaticType)) :
    Option.Rel (Signature.Rel R) call call := by
  cases call with
  | none => exact .none
  | some f => exact .some (Signature.Rel.refl h f)

theorem Alike.refl (h : ∀ t, R t t) (t : StaticType) : Alike R t t := by
  cases t with
  | union ts => exact .union (List.forall₂_same.mpr fun t _ => h t)
  | array t => exact .array (h t)
  | function f => exact .function (Signature.Rel.refl h f)
  | object name ms call =>
    exact .object (List.forall₂_same.mpr fun m _ => ⟨h m.type⟩) (callRel_refl h call)
  | _ => exact .leaf rfl

end Kept

/-- Types that fit still fit when both are replaced by related ones.  A target without result is
left aside by signatures, so it may be replaced only by such a one or by what takes anything. -/
structure Keeps (R : StaticType → StaticType → Prop) (fits : StaticType → StaticType → Bool) :
    Prop where
  related : ∀ {t u v w : StaticType}, R t u → R v w → fits t v = true → fits u w = true
  result : ∀ {t u : StaticType}, R t u → t.isVoid = true →
    u.isVoid = true ∨ ∀ v, fits u v = true

section Signatures

variable {R : StaticType → StaticType → Prop} {fits : StaticType → StaticType → Bool}
  {ps ps' qs qs' ms ms' : List (Field StaticType)} {f f' g g' : Signature StaticType}
  {call call' own own' : Option (Signature StaticType)}

theorem requiredCount_eq_of_rel (h : List.Forall₂ (Field.Rel R) ps ps') :
    requiredCount ps = requiredCount ps' := by
  induction h with
  | nil => rfl
  | cons hp _ ih =>
    obtain ⟨-⟩ := hp
    rw [requiredCount, requiredCount] at ih ⊢
    rw [List.filter_cons, List.filter_cons]
    split
    · rw [List.length_cons, List.length_cons, ih]
    · exact ih

/-- Parameters compare in both directions, and each of them is kept. -/
theorem Keeps.params (h : Keeps R fits) (hps : List.Forall₂ (Field.Rel R) ps ps')
    (hqs : List.Forall₂ (Field.Rel R) qs qs')
    (hfits : (ps.zip qs).all (fun p =>
      fits p.1.type p.2.type || fits p.2.type p.1.type) = true) :
    (ps'.zip qs').all (fun p => fits p.1.type p.2.type || fits p.2.type p.1.type) = true := by
  induction hps generalizing qs qs' with
  | nil => rfl
  | cons hp _ ih =>
    cases hqs with
    | nil => rfl
    | cons hq hqs =>
      obtain ⟨hp⟩ := hp
      obtain ⟨hq⟩ := hq
      rw [List.zip_cons_cons, List.all_cons, Bool.and_eq_true, Bool.or_eq_true] at hfits ⊢
      exact ⟨hfits.1.imp (h.related hp hq) (h.related hq hp), ih hqs hfits.2⟩

theorem Keeps.signatureFits (h : Keeps R fits) (hf : Signature.Rel R f f')
    (hg : Signature.Rel R g g') (hfits : signatureFits fits f g = true) :
    signatureFits fits f' g' = true := by
  obtain ⟨hps, hr⟩ := hf
  obtain ⟨hqs, hs⟩ := hg
  rw [StaticType.signatureFits, Bool.and_eq_true, Bool.and_eq_true, decide_eq_true_eq,
    Bool.or_eq_true] at hfits ⊢
  obtain ⟨⟨hrequired, hparams⟩, hresult⟩ := hfits
  refine ⟨⟨?_, h.params hps hqs hparams⟩, ?_⟩
  · rw [← requiredCount_eq_of_rel hqs, ← hps.length_eq]
    exact hrequired
  · rcases hresult with hvoid | hresult
    · exact (h.result hr hvoid).imp_right fun htakes => htakes _
    · exact .inr (h.related hr hs hresult)

theorem memberNamed?_rel (h : List.Forall₂ (Field.Rel R) ms ms') (name : String) :
    Option.Rel (Field.Rel R) (memberNamed? ms name) (memberNamed? ms' name) := by
  induction h with
  | nil => exact .none
  | cons hm _ ih =>
    obtain ⟨htype⟩ := hm
    rename_i own _ _ _
    rw [memberNamed?, memberNamed?] at ih ⊢
    rw [List.find?_cons, List.find?_cons]
    dsimp only
    cases own == name with
    | true => exact .some ⟨htype⟩
    | false => exact ih

theorem Keeps.membersFit (h : Keeps R fits) (hms : List.Forall₂ (Field.Rel R) ms ms')
    (hps : List.Forall₂ (Field.Rel R) ps ps') (hfits : membersFit fits ms ps = true) :
    membersFit fits ms' ps' = true := by
  induction hms with
  | nil => rfl
  | cons hm _ ih =>
    obtain ⟨htype⟩ := hm
    rename_i name _ _ _
    rw [StaticType.membersFit, List.all_cons, Bool.and_eq_true] at hfits ⊢
    refine ⟨?_, ih hfits.2⟩
    have hhead := hfits.1
    have hfound := memberNamed?_rel hps name
    dsimp only at hhead ⊢
    generalize memberNamed? ps name = found, memberNamed? ps' name = found' at hfound hhead ⊢
    cases hfound with
    | none => exact hhead
    | some hfound =>
      obtain ⟨hfound⟩ := hfound
      exact h.related htype hfound hhead

theorem Keeps.callFits (h : Keeps R fits) (hcall : Option.Rel (Signature.Rel R) call call')
    (hown : Option.Rel (Signature.Rel R) own own') (hfits : callFits fits call own = true) :
    callFits fits call' own' = true := by
  cases hcall with
  | none => rfl
  | some hf =>
    cases hown with
    | none => exact hfits
    | some hg => exact h.signatureFits hf hg hfits

theorem all_isOptional_eq_of_rel (h : List.Forall₂ (Field.Rel R) ms ms') :
    ms.all (·.isOptional) = ms'.all (·.isOptional) := by
  induction h with
  | nil => rfl
  | cons hm _ ih =>
    obtain ⟨-⟩ := hm
    rw [List.all_cons, List.all_cons, ih]

theorem Keeps.objectFits (h : Keeps R fits) {name : Option String} {v w : StaticType}
    (hms : List.Forall₂ (Field.Rel R) ms ms')
    (hcall : Option.Rel (Signature.Rel R) call call') (hv : Alike R v w)
    (hfits : objectFits fits name ms call v = true) : objectFits fits name ms' call' w = true := by
  cases hv with
  | leaf hleaf => cases v <;> first | exact hfits | cases hleaf
  | union => cases hfits
  | array =>
    rw [StaticType.objectFits, ← all_isOptional_eq_of_rel hms]
    cases hcall <;> exact hfits
  | function hf =>
    rw [StaticType.objectFits, Bool.and_eq_true] at hfits ⊢
    rw [← all_isOptional_eq_of_rel hms]
    exact ⟨h.callFits hcall (.some hf) hfits.1, hfits.2⟩
  | object hps hown =>
    rw [StaticType.objectFits, Bool.or_eq_true, Bool.and_eq_true] at hfits ⊢
    exact hfits.imp_right fun hfits =>
      ⟨h.callFits hcall hown hfits.1, h.membersFit hms hps hfits.2⟩

end Signatures

section Forms

variable {R : StaticType → StaticType → Prop} {fits : StaticType → StaticType → Bool} {n : Nat}
  {t u v w : StaticType} {ts us : List StaticType}

theorem Alike.isDirect_eq (h : Alike R v w) : v.isDirect = w.isDirect := by
  cases h <;> rfl

theorem Alike.callSignature? (h : Alike R v w) :
    Option.Rel (Signature.Rel R) v.callSignature? w.callSignature? := by
  cases h with
  | leaf hleaf => cases v <;> first | exact .none | cases hleaf
  | union => exact .none
  | array => exact .none
  | function hf => exact .some hf
  | object _ hcall => exact hcall

theorem Alike.element? (h : Alike R v w) : Option.Rel R v.element? w.element? := by
  cases h with
  | leaf hleaf => cases v <;> first | exact .none | cases hleaf
  | array ht => exact .some ht
  | union | function | object => exact .none

/-- A member that took the value still takes it. -/
theorem Keeps.any (h : Keeps R fits) (hts : List.Forall₂ R ts us) (hv : R v w)
    (hfits : (ts.any fun t => fits t v) = true) : (us.any fun u => fits u w) = true := by
  induction hts with
  | nil => exact hfits
  | cons ht _ ih =>
    rw [List.any_cons, Bool.or_eq_true] at hfits ⊢
    exact hfits.imp (h.related ht hv) ih

/-- Where all members were taken, they still are. -/
theorem Keeps.all (h : Keeps R fits) (ht : R t u) (hts : List.Forall₂ R ts us)
    (hfits : (ts.all fun v => fits t v) = true) : (us.all fun w => fits u w) = true := by
  induction hts with
  | nil => rfl
  | cons hv _ ih =>
    rw [List.all_cons, Bool.and_eq_true] at hfits ⊢
    exact ⟨h.related ht hv hfits.1, ih hfits.2⟩

/-- A step against a direct value keeps what the steps below it keep. -/
theorem Keeps.direct (h : Keeps R (assignableWithin n)) (ht : Alike R t u) (hv : R v w)
    (halike : Alike R v w) (hdirect : v.isDirect = true)
    (hfits : assignableWithin (n + 1) t v = true) : assignableWithin (n + 1) u w = true := by
  have hdirect' : w.isDirect = true := halike.isDirect_eq ▸ hdirect
  cases ht with
  | union hts =>
    rw [union_assignableWithin hdirect] at hfits
    rw [union_assignableWithin hdirect']
    exact h.any hts hv hfits
  | array ht =>
    rw [array_assignableWithin hdirect] at hfits
    rw [array_assignableWithin hdirect']
    have helement := halike.element?
    generalize v.element? = held, w.element? = held' at helement hfits ⊢
    cases helement with
    | none => exact hfits
    | some hheld => exact h.related ht hheld hfits
  | function hf =>
    rw [function_assignableWithin hdirect] at hfits
    rw [function_assignableWithin hdirect']
    have hcall := halike.callSignature?
    generalize v.callSignature? = own, w.callSignature? = own' at hcall hfits ⊢
    cases hcall with
    | none => exact hfits
    | some hg => exact h.signatureFits hf hg hfits
  | object hms hcall =>
    rw [object_assignableWithin hdirect] at hfits
    rw [object_assignableWithin hdirect']
    exact h.objectFits hms hcall halike hfits
  | leaf hleaf =>
    cases halike with
    | leaf => exact hfits
    | union => cases hdirect
    | _ =>
      rw [leaf_assignableWithin hleaf rfl rfl] at hfits ⊢
      exact hfits

end Forms

end StaticType
end Inlay
