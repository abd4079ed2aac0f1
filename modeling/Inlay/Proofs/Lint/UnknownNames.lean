import Inlay.Proofs.Catalog.Views
import Inlay.Proofs.Lint.StaticText

/-!
# Unknown names and targets that are not found

Three rules say of a name whether it is known, and the types of bindings are made from the member
that a name finds.  Both read the same views, so that a name that is reported has no target, and one
without a target is reported, once: `unknown_names_reported`.  The exceptions are the names of data,
which are any names, and the names on tags that are not known at all.

The rules look a name up in a view but take their suggestions from the list of its names.  A view
lists no name twice, whatever has become of the knowledge base since it was made, so a name that is
suggested is one that is found.
-/

namespace Inlay

open Markup

/-! ## Suggested names -/

theorem mem_of_foldl_nearerOf {candidates : List (String × Nat)} {best : Option (String × Nat)}
    {found : String × Nat} (h : candidates.foldl nearerOf best = some found) :
    best = some found ∨ found ∈ candidates := by
  induction candidates generalizing best with
  | nil => exact .inl h
  | cons candidate rest ih =>
    rcases ih h with hbest | hmem
    · cases best with
      | none => exact .inr (Option.some.inj hbest ▸ List.mem_cons_self)
      | some current =>
        rw [nearerOf] at hbest
        split at hbest
        · exact .inl hbest
        · exact .inr (Option.some.inj hbest ▸ List.mem_cons_self)
    · exact .inr (List.mem_cons_of_mem candidate hmem)

/-- A suggested name is one of the candidates. -/
theorem mem_of_nearest? {name found : String} {candidates : List String} {most : Nat}
    (h : nearest? name candidates most = some found) : found ∈ candidates := by
  rw [nearest?, Option.map_eq_some_iff] at h
  obtain ⟨e, he, rfl⟩ := h
  have hmem : e ∈ admissible name candidates most :=
    (mem_of_foldl_nearerOf he).resolve_left (Option.some_ne_none e).symm
  rw [admissible, List.mem_filterMap] at hmem
  obtain ⟨c, hc, hsome⟩ := hmem
  dsimp only at hsome
  split at hsome
  · rw [← Option.some.inj hsome]
    exact (List.mem_filter.mp hc).1
  · cases hsome

/-! ## What a name finds -/

/-- The categories in which the name of a binding is looked up, one after the other. -/
def BindingTypes.categories : Binding → List Category
  | .plain | .boolean => [.attributes]
  | .property => [.properties, .attributes]
  | .event => [.events]

namespace Knowledge

variable {kb : Knowledge} {tag name : String} {a : Attribute}

theorem finds_eq : kb.finds tag a = (BindingTypes.categories a.binding).any fun c =>
    (kb.members c tag).contains a.name := by
  rw [finds, BindingTypes.member?]
  cases a.binding with
  | plain => exact Option.isSome_map.trans (Bool.or_false _).symm
  | boolean => exact Option.isSome_map.trans (Bool.or_false _).symm
  | event => exact Option.isSome_map.trans (Bool.or_false _).symm
  | property =>
    simp only [Consult.value_bind, Consult.value_pure, Consult.value_member?, Knowledge.member?,
      BindingTypes.categories, List.any_cons, List.any_nil, Bool.or_false, NameMap.contains]
    cases (kb.members .properties tag).get? a.name with
    | none => exact Option.isSome_map
    | some d => rfl

/-- The names that a tag has for bindings of a kind. -/
def targetNames (kb : Knowledge) (tag : String) (binding : Binding) : List String :=
  (BindingTypes.categories binding).flatMap fun c => (kb.members c tag).names

/-- A name that is listed is found. -/
theorem finds_of_mem_targetNames (hindexed : ∀ c, (kb.members c tag).Indexed)
    (h : name ∈ kb.targetNames tag a.binding) : kb.finds tag { a with name := name } = true := by
  obtain ⟨c, hc, hname⟩ := List.mem_flatMap.mp h
  rw [finds_eq]
  exact List.any_eq_true.mpr ⟨c, hc, (hindexed c).contains_of_mem_names hname⟩

end Knowledge

/-! ## What the rules find -/

/-- The rules about names that a tag does not have. -/
def nameRules : List Rule := [unknownAttribute, unknownProperty, unknownEvent]

/-- The rule about the names of bindings of a kind. -/
def nameRule : Binding → Rule
  | .plain | .boolean => unknownAttribute
  | .property => unknownProperty
  | .event => unknownEvent

/-- The attribute is for data of the program. -/
def isData (a : Attribute) : Bool :=
  (a.binding = .plain || a.binding = .boolean) && isStartOf UnknownAttribute.dataMark a.lower

/-- A rule passes over the name of an attribute if another rule is for its kind of binding, if it is
the name of data, and if the tag is not known.  Events are looked up on any tag. -/
def passesOver (r : Rule) (kb : Knowledge) (n : Node) (a : Attribute) : Bool :=
  r.info != (nameRule a.binding).info || isData a || (a.binding != .event && !kb.hasTag n.tag)

/-- What a rule finds: one thing at most, with a suggestion from among the names that the tag has
for the kind of binding. -/
theorem value_onAttribute_nameRule {r : Rule} (hr : r ∈ nameRules) (s : Scene) (n : Node)
    (a : Attribute) (kb : Knowledge) :
    ∃ what mark query, (r.onAttribute s n a).value kb =
      if passesOver r kb n a || kb.finds n.tag a then []
      else [unknownName what mark n a (s.suggest query (kb.targetNames n.tag a.binding))] := by
  simp only [nameRules, List.mem_cons, List.not_mem_nil, or_false] at hr
  -- What is read is named only when all conditions stand outside of the readings: `value_ite` does
  -- not see a condition whose reading has been replaced.
  rcases hr with rfl | rfl | rfl
  · refine ⟨"attribute", id, a.lower, ?_⟩
    show (UnknownAttribute.onAttribute s n a).value kb = _
    simp only [UnknownAttribute.onAttribute, Consult.value_bind, Consult.value_ite,
      Consult.value_pure]
    simp only [Consult.value_hasTag, Consult.value_members, passesOver, isData,
      Knowledge.finds_eq, Knowledge.targetNames]
    cases a.binding <;> simp +decide [BindingTypes.categories, nameRule, ite_or] <;> rfl
  · refine ⟨"property", ("." ++ ·), a.name, ?_⟩
    show (UnknownProperty.onAttribute s n a).value kb = _
    simp only [UnknownProperty.onAttribute, Consult.value_bind, Consult.value_ite,
      Consult.value_pure]
    simp only [Consult.value_hasTag, Consult.value_members, passesOver, isData,
      Knowledge.finds_eq, Knowledge.targetNames]
    cases a.binding <;> simp +decide [BindingTypes.categories, nameRule, ite_or]
  · refine ⟨"event", ("@" ++ ·), a.name, ?_⟩
    show (UnknownEvent.onAttribute s n a).value kb = _
    simp only [UnknownEvent.onAttribute, Consult.value_bind, Consult.value_ite, Consult.value_pure]
    simp only [Consult.value_members, passesOver, isData, Knowledge.finds_eq,
      Knowledge.targetNames]
    cases a.binding with
    | event =>
      simp [BindingTypes.categories, nameRule]
      rfl
    | plain => simp +decide [nameRule]
    | boolean => simp +decide [nameRule]
    | property => simp +decide [nameRule]

open Engine

section Reports

variable {s : Scene} {typeOf : HostExpression → StaticType} {memo : BindingMemo} {n : Node}
  {a : Attribute} {kb : Knowledge} {r : Rule}

theorem reportsOf_nameRule (hr : r ∈ nameRules) :
    reportsOf r s typeOf memo n a kb = r.diagnostics s ((r.onAttribute s n a).value kb) := by
  have hrules : ∀ r ∈ nameRules, r ∈ markupRules ∧ ∀ s n a x types,
      r.onAssignment s n a x types = [] := by
    simp [nameRules, markupRules, unknownAttribute, unknownProperty, unknownEvent]
  exact reportsOf_onAttribute (hrules r hr).1 (hrules r hr).2

/-- Names that are found are not reported, and neither are those of data. -/
theorem reportsOf_nameRule_eq_nil (hr : r ∈ nameRules)
    (h : kb.finds n.tag a = true ∨ isData a = true) : reportsOf r s typeOf memo n a kb = [] := by
  obtain ⟨what, mark, query, hvalue⟩ := value_onAttribute_nameRule hr s n a kb
  have hskip : (passesOver r kb n a || kb.finds n.tag a) = true := by
    rcases h with h | h <;> simp [passesOver, h]
  rw [reportsOf_nameRule hr, hvalue, if_pos hskip, Rule.diagnostics_nil]

/-- What is reported says the name, and what it suggests is found. -/
theorem suggested_of_mem_reportsOf (hindexed : ∀ c, (kb.members c n.tag).Indexed)
    (hr : r ∈ nameRules) {d : Diagnostic} (hd : d ∈ reportsOf r s typeOf memo n a kb) :
    ∃ suggested, d.finding.payload = .unknownTarget a.name suggested ∧
      ∀ name, suggested = some name → kb.finds n.tag { a with name := name } = true := by
  obtain ⟨what, mark, query, hvalue⟩ := value_onAttribute_nameRule hr s n a kb
  rw [reportsOf_nameRule hr, hvalue] at hd
  split at hd
  · rw [Rule.diagnostics_nil] at hd
    exact absurd hd List.not_mem_nil
  · have hfinding : d.finding = _ := List.mem_singleton.mp (Rule.finding_of_mem_diagnostics hd)
    refine ⟨_, congrArg Finding.payload hfinding, fun name hname => ?_⟩
    exact Knowledge.finds_of_mem_targetNames hindexed (mem_of_nearest? hname)

/-- On a known tag, the rules together report once whatever is neither found nor data. -/
theorem length_reportsOf_nameRules (hon : ∀ r ∈ nameRules, (s.settings.severity? r.info).isSome)
    (htag : kb.hasTag n.tag = true) :
    (nameRules.flatMap fun r => reportsOf r s typeOf memo n a kb).length =
      if kb.finds n.tag a || isData a then 0 else 1 := by
  have hlength : ∀ r ∈ nameRules, (reportsOf r s typeOf memo n a kb).length =
      if r.info != (nameRule a.binding).info || isData a || kb.finds n.tag a then 0 else 1 := by
    intro r hr
    obtain ⟨what, mark, query, hvalue⟩ := value_onAttribute_nameRule hr s n a kb
    rw [reportsOf_nameRule hr, Rule.length_diagnostics (hon r hr), hvalue, passesOver, htag,
      Bool.not_true, Bool.and_false, Bool.or_false]
    split <;> rfl
  have hsum : (nameRules.flatMap fun r => reportsOf r s typeOf memo n a kb).length =
      (reportsOf unknownAttribute s typeOf memo n a kb).length +
        ((reportsOf unknownProperty s typeOf memo n a kb).length +
          (reportsOf unknownEvent s typeOf memo n a kb).length) := by
    simp [nameRules]
  rw [hsum, hlength _ (by simp [nameRules]), hlength _ (by simp [nameRules]),
    hlength _ (by simp [nameRules])]
  -- One of the rules is for the kind of binding, and the others pass it over.
  generalize kb.finds n.tag a = found
  generalize isData a = data
  cases a.binding <;> cases found <;> cases data <;> rfl

end Reports

/-- An attribute that binds to nothing that is known is reported once, as long as its tag is known
and it is not for data; one that binds to something is not reported, on any tag; and whatever a rule
suggests in place of a name, the attribute would bind to. -/
theorem unknown_names_reported (as : List Action) (s : Scene)
    (typeOf : HostExpression → StaticType) (memo : BindingMemo) (n : Node) (a : Attribute) :
    let kb := Knowledge.run {} as
    (∀ x, ((BindingTypes.compute typeOf n.tag a x).value kb).isFound = kb.finds n.tag a) ∧
    (kb.hasTag n.tag = true → (∀ r ∈ nameRules, (s.settings.severity? r.info).isSome) →
      (nameRules.flatMap fun r => reportsOf r s typeOf memo n a kb).length =
        if kb.finds n.tag a || isData a then 0 else 1) ∧
    (kb.finds n.tag a = true ∨ isData a = true →
      ∀ r ∈ nameRules, reportsOf r s typeOf memo n a kb = []) ∧
    ∀ r ∈ nameRules, ∀ d ∈ reportsOf r s typeOf memo n a kb,
      ∃ suggested, d.finding.payload = .unknownTarget a.name suggested ∧
        ∀ name, suggested = some name → kb.finds n.tag { a with name := name } = true := by
  intro kb
  have hindexed : ∀ c, (kb.members c n.tag).Indexed :=
    fun c => Knowledge.indexed_run_members as c n.tag
  refine ⟨fun x => BindingTypes.isFound_compute, fun htag hon => ?_,
    fun h r hr => reportsOf_nameRule_eq_nil hr h, fun r hr d hd => ?_⟩
  · exact length_reportsOf_nameRules hon htag
  · exact suggested_of_mem_reportsOf hindexed hr hd

open IncompatibleType (stateAttribute stateElement usualScene)

/-- An attribute `state` is bound on a tag that has an attribute `stage`. -/
theorem unknown_names_reported_of_misspelled :
    let tag := Knowledge.tagWithAttributes "x-el" [{ name := "stage" }]
    let as : List Action := [.mutate (.absorb .builtIn tag)]
    let kb := Knowledge.run {} as
    let s := { usualScene with settings := { isStrict := true } }
    let n := stateElement .presence
    let a := stateAttribute .presence
    kb.hasTag n.tag = true ∧
      (nameRules.flatMap fun r => reportsOf r s (fun _ => .any) [] n a kb).length = 1 ∧
      (∀ r ∈ nameRules, reportsOf r s (fun _ => .any) [] n { a with name := "stage" } kb = []) ∧
      (reportsOf unknownAttribute s (fun _ => .any) [] n a kb).map (·.finding.help) =
        [some "Did you mean 'stage'?"] := by
  intro tag as kb s n a
  have htag : kb.hasTag n.tag = true := by decide +kernel
  have hon : ∀ r ∈ nameRules, (s.settings.severity? r.info).isSome := by decide
  have hunknown : (kb.finds n.tag a || isData a) = false := by decide +kernel
  have hknown : kb.finds n.tag { a with name := "stage" } = true := by decide +kernel
  obtain ⟨-, hlength, -⟩ := unknown_names_reported as s (fun _ => .any) [] n a
  obtain ⟨-, -, hnone, -⟩ :=
    unknown_names_reported as s (fun _ => .any) [] n { a with name := "stage" }
  have hone := (hlength htag hon).trans (if_neg (Bool.eq_false_iff.mp hunknown))
  exact ⟨htag, hone, hnone (.inl hknown), by decide +kernel⟩

end Inlay
