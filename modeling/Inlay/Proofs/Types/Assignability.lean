import Inlay.Types.Assignable
import Mathlib.Data.List.Basic

/-!
# What assignability goes down to

Assignability asks about smaller types: the members of a union or the two literals of
`boolean`, and then, for a value that is compared as it is, whatever the form of the target
asks for.  Each such step has a lemma here, so that no later proof opens the definition.

A type is assignable to itself.  The induction cannot stay with one type, since a union that is
taken apart leaves its members against the whole union, and these may be unions again: it runs
over all values that are among the members of the target.
-/

namespace Inlay
namespace StaticType

/-- A value that is compared as it is: it is not let pass, and not taken apart. -/
def isDirect : StaticType → Bool
  | .any | .unknown | .never | .union _ | .boolean => false
  | _ => true

/-- The type says nothing: `any` or `unknown`. -/
def isOpen (t : StaticType) : Bool := t.isAny || t.isUnknown

/-- A type without parts. -/
def isLeaf : StaticType → Bool
  | .union _ | .array _ | .function _ | .object .. => false
  | _ => true

/-- What an array holds. -/
def element? : StaticType → Option StaticType
  | .array t => some t
  | _ => none

section Arms

variable {t v : StaticType}

theorem assignableWithin_of_open (h : t.isOpen = true) (n : Nat) (v : StaticType) :
    assignableWithin n t v = true := by
  cases n with
  | zero => rfl
  | succ n => cases t <;> first | rfl | cases h

theorem assignableWithin_of_vague (h : v.isVague = true) (n : Nat) (t : StaticType) :
    assignableWithin n t v = true := by
  cases n with
  | zero => rfl
  | succ n => cases v <;> first | (cases t <;> rfl) | cases h

/-- A union fits where all of its members do. -/
theorem assignableWithin_union (n : Nat) (t : StaticType) (vs : List StaticType) :
    assignableWithin (n + 1) t (.union vs) = vs.all fun v => assignableWithin n t v := by
  cases ht : t.isOpen with
  | true =>
    rw [assignableWithin_of_open ht]
    exact (List.all_eq_true.mpr fun v _ => assignableWithin_of_open ht n v).symm
  | false => cases t <;> first | rfl | cases ht

theorem assignableWithin_boolean (n : Nat) (t : StaticType) :
    assignableWithin (n + 1) t .boolean = (assignableWithin n t (.booleanLiteral true) &&
      assignableWithin n t (.booleanLiteral false)) := by
  cases ht : t.isOpen with
  | true =>
    rw [assignableWithin_of_open ht, assignableWithin_of_open ht, assignableWithin_of_open ht]
    rfl
  | false => cases t <;> first | rfl | cases ht

/-- A direct value fits a union that has a member for it. -/
theorem union_assignableWithin (h : v.isDirect = true) (n : Nat) (ts : List StaticType) :
    assignableWithin (n + 1) (.union ts) v = ts.any fun t => assignableWithin n t v := by
  cases v <;> first | rfl | cases h

theorem function_assignableWithin (h : v.isDirect = true) (n : Nat) (f : Signature StaticType) :
    assignableWithin (n + 1) (.function f) v =
      v.callSignature?.any fun g => signatureFits (assignableWithin n) f g := by
  cases v with
  | object name ms call => cases call <;> rfl
  | _ => first | rfl | cases h

theorem object_assignableWithin (h : v.isDirect = true) (n : Nat) (name : Option String)
    (ms : List (Field StaticType)) (call : Option (Signature StaticType)) :
    assignableWithin (n + 1) (.object name ms call) v =
      objectFits (assignableWithin n) name ms call v := by
  cases v <;> first | rfl | cases h

theorem array_assignableWithin (h : v.isDirect = true) (n : Nat) (t : StaticType) :
    assignableWithin (n + 1) (.array t) v = v.element?.any fun u => assignableWithin n t u := by
  cases v <;> first | rfl | cases h

/-- A target without parts takes nothing that has parts, unless it takes anything. -/
theorem leaf_assignableWithin (ht : t.isLeaf = true) (hv : v.isLeaf = false)
    (h : v.isDirect = true) (n : Nat) : assignableWithin (n + 1) t v = t.isOpen := by
  cases v with
  | union => cases h
  | array | function | object => cases t <;> first | rfl | cases ht
  | _ => cases hv

end Arms

/-! ## What a type is made of -/

/-- The types of the parameters, and of the result. -/
def signatureTypes (f : Signature StaticType) : List StaticType :=
  f.params.map (·.type) ++ [f.result]

/-- The types that a type is made of. -/
def parts : StaticType → List StaticType
  | .union ts => ts
  | .array t => [t]
  | .function f => signatureTypes f
  | .object _ ms call => ms.map (·.type) ++ (call.map signatureTypes).getD []
  | _ => []

/-- A type occurs in another one at any depth, or is that. -/
inductive OccursIn : StaticType → StaticType → Prop
  | self (t : StaticType) : OccursIn t t
  | part {s t u : StaticType} : s ∈ t.parts → OccursIn u s → OccursIn u t

/-- A type whose number literals are numbers, and whose objects have one member of each name. -/
structure IsProper (t : StaticType) : Prop where
  numbers : ∀ x, OccursIn (.numberLiteral x) t → x ≠ .nan
  members : ∀ name ms call, OccursIn (.object name ms call) t → (ms.map (·.name)).Nodup

/-- A type is proper where it is so at its top and its parts are proper. -/
theorem isProper_iff {t : StaticType} : t.IsProper ↔ t ≠ .numberLiteral .nan ∧
    (∀ name ms call, t = .object name ms call → (ms.map (·.name)).Nodup) ∧
    ∀ s ∈ t.parts, s.IsProper := by
  constructor
  · intro h
    refine ⟨?_, ?_, fun s hs => ⟨?_, ?_⟩⟩
    · rintro rfl
      exact h.numbers .nan (.self _) rfl
    · rintro name ms call rfl
      exact h.members name ms call (.self _)
    · exact fun x hx => h.numbers x (.part hs hx)
    · exact fun name ms call hobject => h.members name ms call (.part hs hobject)
  · rintro ⟨hnumber, hmembers, hparts⟩
    refine ⟨fun x hx => ?_, fun name ms call hobject => ?_⟩
    · cases hx with
      | self => exact fun hnan => hnumber (congrArg numberLiteral hnan)
      | part hs hx => exact (hparts _ hs).numbers x hx
    · cases hobject with
      | self => exact hmembers name ms call rfl
      | part hs hobject => exact (hparts _ hs).members name ms call hobject

theorem IsProper.part {s t : StaticType} (h : t.IsProper) (hs : s ∈ t.parts) : s.IsProper :=
  (isProper_iff.mp h).2.2 s hs

theorem isProper_of_parts_nil {t : StaticType} (hparts : t.parts = [])
    (hnumber : t ≠ .numberLiteral .nan) : t.IsProper := by
  refine isProper_iff.mpr ⟨hnumber, ?_, fun s hs => absurd (hparts ▸ hs) List.not_mem_nil⟩
  rintro name ms call rfl
  rw [List.map_eq_nil_iff.mp (List.append_eq_nil_iff.mp hparts).1]
  exact List.nodup_nil

/-! ## Types against themselves -/

section Self

variable {fits : StaticType → StaticType → Bool}

/-- The types of the signature fit themselves, so the signature does. -/
theorem signatureFits_self {f : Signature StaticType}
    (h : ∀ t ∈ signatureTypes f, fits t t = true) : signatureFits fits f f = true := by
  have hrequired : requiredCount f.params ≤ f.params.length := List.length_filter_le _ _
  have hparams : (f.params.zip f.params).all (fun p =>
      fits p.1.type p.2.type || fits p.2.type p.1.type) = true := by
    refine List.all_eq_true.mpr fun p hp => ?_
    rw [List.zip_eq_zipWith, List.zipWith_self, List.mem_map] at hp
    obtain ⟨q, hq, rfl⟩ := hp
    have htype : fits q.type q.type = true :=
      h _ (List.mem_append_left _ (List.mem_map_of_mem hq))
    show (fits q.type q.type || fits q.type q.type) = true
    rw [htype]
    rfl
  have hresult : fits f.result f.result = true :=
    h _ (List.mem_append_right _ (List.mem_singleton_self _))
  rw [signatureFits, hparams, hresult, decide_eq_true hrequired, Bool.or_true]
  rfl

theorem memberNamed?_of_mem {ms : List (Field StaticType)} (hnames : (ms.map (·.name)).Nodup)
    {m : Field StaticType} (hm : m ∈ ms) : memberNamed? ms m.name = some m := by
  induction ms with
  | nil => exact absurd hm List.not_mem_nil
  | cons f rest ih =>
    rw [List.map_cons, List.nodup_cons] at hnames
    rcases List.mem_cons.mp hm with rfl | hm
    · exact List.find?_cons_of_pos (beq_self_eq_true _)
    · have hother : f.name ≠ m.name := fun heq =>
        hnames.1 (heq ▸ List.mem_map_of_mem hm)
      exact (List.find?_cons_of_neg (by simpa using hother)).trans (ih hnames.2 hm)

theorem objectFits_self {name : Option String} {ms : List (Field StaticType)}
    {call : Option (Signature StaticType)} (hnames : (ms.map (·.name)).Nodup)
    (h : ∀ t ∈ (object name ms call).parts, fits t t = true) :
    objectFits fits name ms call (.object name ms call) = true := by
  have hcall : callFits fits call call = true := by
    cases call with
    | none => rfl
    | some f => exact signatureFits_self fun t ht => h t (List.mem_append_right _ ht)
  have hmembers : membersFit fits ms ms = true := by
    refine List.all_eq_true.mpr fun m hm => ?_
    rw [memberNamed?_of_mem hnames hm]
    exact h _ (List.mem_append_left _ (List.mem_map_of_mem hm))
  rw [objectFits, hcall, hmembers, Bool.true_and, Bool.or_true]

/-- A direct value fits itself where its parts do. -/
theorem assignableWithin_self_of_parts {n : Nat} {t : StaticType} (hdirect : t.isDirect = true)
    (ht : t.IsProper) (h : ∀ s ∈ t.parts, assignableWithin n s s = true) :
    assignableWithin (n + 1) t t = true := by
  cases t with
  | any | unknown | never | union | boolean => cases hdirect
  | void | null | undefined | string | number | bigint => rfl
  | stringLiteral s => exact beq_self_eq_true s
  | booleanLiteral b => exact beq_self_eq_true b
  | numberLiteral x => exact (Number.same_self_iff x).mpr (ht.numbers x (.self _))
  | array t =>
    rw [array_assignableWithin hdirect]
    exact h t (List.mem_singleton_self t)
  | function f =>
    rw [function_assignableWithin hdirect]
    exact signatureFits_self h
  | object name ms call =>
    rw [object_assignableWithin hdirect]
    exact objectFits_self (ht.members name ms call (.self _)) h

end Self

/-! ## Members of unions -/

/-- A type is among the members of another one: the members of a union may be unions, and
`boolean` has its two literals. -/
inductive IsAmong : StaticType → StaticType → Prop
  | self (t : StaticType) : IsAmong t t
  | member {t m : StaticType} {ts : List StaticType} : m ∈ ts → IsAmong t m → IsAmong t (.union ts)
  | literal (b : Bool) : IsAmong (.booleanLiteral b) .boolean

theorem IsAmong.of_union {t m : StaticType} {ts : List StaticType} (h : IsAmong (.union ts) t)
    (hm : m ∈ ts) : IsAmong m t := by
  generalize hunion : union ts = u at h
  induction h with
  | self => exact hunion ▸ .member hm (.self m)
  | member hmem _ ih => exact .member hmem (ih hunion)
  | literal => cases hunion

theorem IsAmong.of_boolean {t : StaticType} (h : IsAmong .boolean t) (b : Bool) :
    IsAmong (.booleanLiteral b) t := by
  generalize hboolean : boolean = u at h
  induction h with
  | self => exact hboolean ▸ .literal b
  | member hmem _ ih => exact .member hmem (ih hboolean)
  | literal => cases hboolean

/-- The induction is on the depth.  A value that is taken apart goes down to its own members, and
a union that is asked for goes down to the member that the value came from. -/
theorem IsAmong.assignableWithin {v t : StaticType} (h : IsAmong v t) (hv : v.IsProper)
    (n : Nat) : assignableWithin n t v = true := by
  induction n generalizing v t with
  | zero => rfl
  | succ n ih =>
    have hdirect : v.isDirect = true → StaticType.assignableWithin (n + 1) t v = true := by
      intro hdirect
      cases h with
      | self =>
        exact assignableWithin_self_of_parts hdirect hv fun s hs => ih (.self s) (hv.part hs)
      | member hm hmember =>
        rw [union_assignableWithin hdirect]
        exact List.any_eq_true.mpr ⟨_, hm, ih hmember hv⟩
      | literal b => rfl
    cases v with
    | any | unknown | never => exact assignableWithin_of_vague rfl _ _
    | union ts =>
      rw [assignableWithin_union]
      exact List.all_eq_true.mpr fun m hm => ih (h.of_union hm) (hv.part hm)
    | boolean =>
      rw [assignableWithin_boolean, ih (h.of_boolean true) (isProper_of_parts_nil rfl nofun),
        ih (h.of_boolean false) (isProper_of_parts_nil rfl nofun)]
      rfl
    | _ => exact hdirect rfl

/-- A type is assignable to itself. -/
theorem assignable_self {t : StaticType} (ht : t.IsProper) : assignable t t = true :=
  IsAmong.assignableWithin (.self t) ht depthLimit

/-- Unions in unions, one of them empty, in a member of an object that can be called. -/
theorem assignable_self_of_nested :
    let state := union [union [], union [boolean, stringLiteral "open"]]
    let toggle := function ⟨[⟨"to", state, true⟩], void⟩
    let panel := object (some "Panel") [⟨"state", state, false⟩, ⟨"toggle", toggle, true⟩]
      (some ⟨[⟨"parts", array state, false⟩], never⟩)
    panel.IsProper ∧ assignable panel panel = true := by
  intro state toggle panel
  have hstate : state.IsProper := by
    refine isProper_iff.mpr ⟨nofun, nofun, ?_⟩
    simp only [state, parts, List.forall_mem_cons]
    refine ⟨isProper_of_parts_nil rfl nofun, isProper_iff.mpr ⟨nofun, nofun, ?_⟩, nofun⟩
    simp only [parts, List.forall_mem_cons]
    exact ⟨isProper_of_parts_nil rfl nofun, isProper_of_parts_nil rfl nofun, nofun⟩
  have htoggle : toggle.IsProper := by
    refine isProper_iff.mpr ⟨nofun, nofun, ?_⟩
    simp only [toggle, parts, signatureTypes, List.map_cons, List.map_nil, List.cons_append,
      List.nil_append, List.forall_mem_cons]
    exact ⟨hstate, isProper_of_parts_nil rfl nofun, nofun⟩
  have hpanel : panel.IsProper := by
    refine isProper_iff.mpr ⟨nofun, ?_, ?_⟩
    · intro name ms call heq
      obtain ⟨-, rfl, -⟩ := object.inj heq
      decide
    · simp only [panel, parts, signatureTypes, List.map_cons, List.map_nil, List.cons_append,
        List.nil_append, List.forall_mem_cons, Option.map_some, Option.getD_some]
      refine ⟨hstate, htoggle, isProper_iff.mpr ⟨nofun, nofun, ?_⟩,
        isProper_of_parts_nil rfl nofun, nofun⟩
      simp only [parts, List.forall_mem_cons]
      exact ⟨hstate, nofun⟩
  exact ⟨hpanel, assignable_self hpanel⟩

/-- What is no number differs from itself, and of two members of one name the first is found. -/
example : assignable (numberLiteral .nan) (numberLiteral .nan) = false := rfl

example :
    let t := object none [⟨"size", number, false⟩, ⟨"size", string, false⟩] none
    assignable t t = false := rfl

end StaticType
end Inlay
