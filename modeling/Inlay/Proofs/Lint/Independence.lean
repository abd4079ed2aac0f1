import Inlay.Lint.Engine
import Mathlib.Data.List.Basic

/-!
# Independence of rules

What one rule reports does not depend on which other rules run, nor on how seriously any rule
is taken: `checkMarkup_rules_independent`.

A change of levels acts on the rules that run and on the diagnostics in the same way: it takes
the severity that a rule has by its name and gives another one, or none.  `Enabled.regrade`
and `Diagnostic.regrade` are the two actions.  No rule reads a level
(`markupRules_ignoreLevels`), so a check by regraded rules reports the regraded diagnostics, and
each part of the walk keeps this: `diagnostics_checkNodes_regrade`.  That nothing is looked at
where no rule runs makes no difference, since the walk then finds nothing.
-/

namespace Inlay

open Markup

/-! ## Levels -/

/-- The level at which findings have a severity. -/
def Severity.level : Severity → Level
  | .warning => .warn
  | .error => .error

theorem Severity.severity?_level (severity : Severity) :
    severity.level.severity? = some severity := by
  cases severity <;> rfl

namespace Settings

/-- The settings with a rule at a level. -/
def setLevel (s : Settings) (rule : String) (level : Level) : Settings :=
  { s with levels := (rule, level) :: s.levels }

/-- The settings with all rules about markup switched off but those with certain names. -/
def only (s : Settings) (on : String → Bool) : Settings :=
  let others := (markupRules.map (·.info.name)).filter fun name => !on name
  { s with levels := others.map (fun name => (name, Level.off)) ++ s.levels }

/-- The rules with a name run. -/
def Runs (s : Settings) (rule : String) : Prop :=
  ∀ r ∈ markupRules, r.info.name = rule → (s.severity? r.info).isSome = true

instance (s : Settings) (rule : String) : Decidable (s.Runs rule) :=
  inferInstanceAs (Decidable (∀ r ∈ markupRules, _))

theorem severity?_setLevel (s : Settings) (rule : String) (level : Level) (info : RuleInfo) :
    (s.setLevel rule level).severity? info =
      if info.name = rule then level.severity? else s.severity? info := by
  rw [severity?, Settings.level, setLevel, List.lookup_cons]
  split
  · next h =>
    rw [if_pos (beq_iff_eq.mp h)]
    rfl
  · next h =>
    rw [if_neg (beq_eq_false_iff_ne.mp h)]
    rfl

theorem lookup_map_off_append {names : List String} {levels : List (String × Level)}
    {name : String} :
    (names.map (fun n => (n, Level.off)) ++ levels).lookup name =
      if name ∈ names then some .off else levels.lookup name := by
  induction names with
  | nil => rfl
  | cons n rest ih =>
    rw [List.map_cons, List.cons_append, List.lookup_cons, ih]
    by_cases h : name = n
    · simp [h]
    · have hne : (name == n) = false := beq_eq_false_iff_ne.mpr h
      simp only [hne, List.mem_cons, h, false_or]

theorem severity?_only (s : Settings) (on : String → Bool) {r : Rule} (hr : r ∈ markupRules) :
    (s.only on).severity? r.info = if on r.info.name then s.severity? r.info else none := by
  have hname : r.info.name ∈ markupRules.map (·.info.name) := List.mem_map_of_mem hr
  rw [severity?, Settings.level, only, lookup_map_off_append]
  cases hon : on r.info.name with
  | true =>
    have hkept : r.info.name ∉ (markupRules.map (·.info.name)).filter fun name => !on name := by
      simp [hon]
    rw [if_neg hkept]
    rfl
  | false =>
    have hoff : r.info.name ∈ (markupRules.map (·.info.name)).filter fun name => !on name :=
      List.mem_filter.mpr ⟨hname, by rw [hon, Bool.not_false]⟩
    rw [if_pos hoff]
    rfl

end Settings

/-- The scene with other levels. -/
def Scene.withLevels (s : Scene) (isStrict : Bool) (levels : List (String × Level)) : Scene :=
  { s with settings := { s.settings with isStrict := isStrict, levels := levels } }

/-- A rule that reads no level. -/
structure Rule.IgnoresLevels (r : Rule) : Prop where
  onNode : ∀ s isStrict levels n, r.onNode (s.withLevels isStrict levels) n = r.onNode s n
  onAttribute : ∀ s isStrict levels n a,
    r.onAttribute (s.withLevels isStrict levels) n a = r.onAttribute s n a
  onAssignment : ∀ s isStrict levels n a x types,
    r.onAssignment (s.withLevels isStrict levels) n a x types = r.onAssignment s n a x types

theorem markupRules_ignoreLevels : ∀ r ∈ markupRules, r.IgnoresLevels := by
  intro r hr
  simp only [markupRules, List.mem_cons, List.not_mem_nil, or_false] at hr
  rcases hr with rfl | rfl | rfl | rfl | rfl | rfl | rfl | rfl | rfl | rfl | rfl | rfl | rfl | rfl
  all_goals exact ⟨fun _ _ _ _ => rfl, fun _ _ _ _ _ => rfl, fun _ _ _ _ _ _ _ => rfl⟩

/-! ## Regrading -/

/-- The rule at the severity that is given for its name, if there is one. -/
def Enabled.regrade (grade : String → Severity → Option Severity) (e : Enabled) :
    Option Enabled :=
  (grade e.rule.info.name e.severity).map fun severity => { e with severity := severity }

/-- The diagnostic at the severity that is given for its rule, if there is one. -/
def Diagnostic.regrade (grade : String → Severity → Option Severity) (d : Diagnostic) :
    Option Diagnostic :=
  (grade d.rule d.severity).map fun severity => { d with severity := severity }

/-- The severity that a rule has, if its name is among certain ones. -/
def keeping (on : String → Bool) (name : String) (severity : Severity) : Option Severity :=
  if on name then some severity else none

theorem filterMap_regrade_keeping (on : String → Bool) (ds : List Diagnostic) :
    ds.filterMap (Diagnostic.regrade (keeping on)) = ds.filter fun d => on d.rule := by
  rw [← List.filterMap_eq_filter]
  refine List.filterMap_congr fun d _ => ?_
  rw [Diagnostic.regrade, keeping, Option.guard]
  split <;> rfl

theorem bind_keeping (on : String → Bool) (name : String) (severity : Option Severity) :
    severity.bind (keeping on name) = if on name then severity else none := by
  cases severity with
  | none => exact (ite_self none).symm
  | some severity => rfl

/-- The severity that a rule has, unless it is the named one. -/
def setting (rule : String) (severity : Severity) (name : String) (old : Severity) :
    Option Severity :=
  some (if name = rule then severity else old)

theorem filterMap_regrade_setting (rule : String) (severity : Severity) (ds : List Diagnostic) :
    ds.filterMap (Diagnostic.regrade (setting rule severity)) =
      ds.map fun d => if d.rule = rule then { d with severity := severity } else d := by
  rw [← List.filterMap_eq_map]
  refine List.filterMap_congr fun d _ => ?_
  rw [Diagnostic.regrade, setting, Option.map_some, Function.comp]
  split <;> rfl

variable {grade : String → Severity → Option Severity} {s : Scene} {isStrict : Bool}
  {levels : List (String × Level)} {kb : Knowledge}

variable (grade s isStrict levels) in
/-- A regraded rule makes regraded diagnostics of its findings. -/
theorem Enabled.regrade_diagnose (e : Enabled) (f : Finding) :
    (e.diagnose s f).regrade grade =
      (e.regrade grade).map fun e => e.diagnose (s.withLevels isStrict levels) f := by
  rw [Diagnostic.regrade, Enabled.regrade, Option.map_map]
  rfl

theorem Enabled.value_run (look : Rule → Consult (List Finding)) (rules : List Enabled) :
    (Enabled.run s look rules).value kb =
      rules.flatMap fun e => ((look e.rule).value kb).map (e.diagnose s) := by
  induction rules with
  | nil => rfl
  | cons e rest ih =>
    rw [List.flatMap_cons, ← ih]
    rfl

variable (grade s isStrict levels kb) in
/-- In one place, regraded rules report what the rules report, regraded. -/
theorem Enabled.value_run_regrade (look look' : Rule → Consult (List Finding))
    {rules : List Enabled} (h : ∀ e ∈ rules, look' e.rule = look e.rule) :
    (Enabled.run (s.withLevels isStrict levels) look' (rules.filterMap (regrade grade))).value kb =
      ((Enabled.run s look rules).value kb).filterMap (Diagnostic.regrade grade) := by
  rw [value_run, value_run]
  induction rules with
  | nil => rfl
  | cons e rest ih =>
    rw [List.forall_mem_cons] at h
    have hdiagnose := regrade_diagnose grade s isStrict levels e
    rw [List.flatMap_cons, List.filterMap_append, List.filterMap_map, ← ih h.2]
    cases hgrade : e.regrade grade with
    | none =>
      have hnone : ((look e.rule).value kb).filterMap
          (Diagnostic.regrade grade ∘ e.diagnose s) = [] :=
        List.filterMap_eq_nil_iff.mpr fun f _ => by rw [Function.comp, hdiagnose, hgrade]; rfl
      rw [List.filterMap_cons_none hgrade, hnone, List.nil_append]
    | some e' =>
      have hrule : e'.rule = e.rule := by
        obtain ⟨severity, _, rfl⟩ := Option.map_eq_some_iff.mp hgrade
        rfl
      have hsome : ((look e.rule).value kb).filterMap (Diagnostic.regrade grade ∘ e.diagnose s) =
          ((look e.rule).value kb).map (e'.diagnose (s.withLevels isStrict levels)) := by
        rw [← List.filterMap_eq_map]
        refine List.filterMap_congr fun f _ => ?_
        rw [Function.comp, hdiagnose, hgrade]
        rfl
      rw [List.filterMap_cons_some hgrade, hsome, List.flatMap_cons, hrule, h.1]

/-! ## The walk -/

namespace Engine

variable {rules : List Enabled} {typeOf : HostExpression → StaticType} {memo : BindingMemo}

theorem diagnostics_checkAttribute_regrade (h : ∀ e ∈ rules, e.rule.IgnoresLevels) (n : Node)
    (a : Attribute) :
    ((checkAttribute (rules.filterMap (Enabled.regrade grade)) (s.withLevels isStrict levels)
        typeOf memo n a).value kb).diagnostics =
      ((checkAttribute rules s typeOf memo n a).value kb).diagnostics.filterMap
        (Diagnostic.regrade grade) := by
  have hname := Enabled.value_run_regrade grade s isStrict levels kb
    (fun r => r.onAttribute s n a) (fun r => r.onAttribute (s.withLevels isStrict levels) n a)
    fun e he => (h e he).onAttribute s isStrict levels n a
  rw [checkAttribute, checkAttribute, Consult.value_bind, Consult.value_bind]
  cases hx : a.assignment with
  | none => exact hname
  | some x =>
    dsimp only
    rw [Consult.value_bind, Consult.value_bind, Consult.value_bind, Consult.value_bind,
      Consult.value_pure, Consult.value_pure]
    generalize (BindingTypes.resolve memo typeOf n.tag a x).value kb = types
    have hvalue := Enabled.value_run_regrade grade s isStrict levels kb
      (fun r => pure (r.onAssignment s n a x types))
      (fun r => pure (r.onAssignment (s.withLevels isStrict levels) n a x types))
      fun e he => by rw [(h e he).onAssignment s isStrict levels n a x types]
    rw [Report.append, Report.append, List.filterMap_append, ← hname]
    exact congrArg _ hvalue

theorem diagnostics_checkAttributes_regrade (h : ∀ e ∈ rules, e.rule.IgnoresLevels) (n : Node)
    (as : List Attribute) :
    ((checkAttributes (rules.filterMap (Enabled.regrade grade)) (s.withLevels isStrict levels)
        typeOf memo n as).value kb).diagnostics =
      ((checkAttributes rules s typeOf memo n as).value kb).diagnostics.filterMap
        (Diagnostic.regrade grade) := by
  induction as with
  | nil => rfl
  | cons a rest ih =>
    simp only [checkAttributes, Consult.value_bind, Consult.value_pure, Report.append,
      List.filterMap_append, diagnostics_checkAttribute_regrade h n a, ih]

theorem diagnostics_checkNode_regrade (h : ∀ e ∈ rules, e.rule.IgnoresLevels) (n : Node) :
    ((checkNode (rules.filterMap (Enabled.regrade grade)) (s.withLevels isStrict levels)
        typeOf memo n).value kb).diagnostics =
      ((checkNode rules s typeOf memo n).value kb).diagnostics.filterMap
        (Diagnostic.regrade grade) := by
  have hnode := Enabled.value_run_regrade grade s isStrict levels kb
    (fun r => r.onNode s n) (fun r => r.onNode (s.withLevels isStrict levels) n)
    fun e he => (h e he).onNode s isStrict levels n
  rw [checkNode, checkNode, Consult.value_bind, Consult.value_bind]
  dsimp only
  split
  · exact hnode
  · simp only [Consult.value_bind, Consult.value_pure, Report.append, List.filterMap_append, hnode,
      diagnostics_checkAttributes_regrade h n n.attributes]

/-- A walk by regraded rules reports what a walk by the rules does, regraded. -/
theorem diagnostics_checkNodes_regrade (h : ∀ e ∈ rules, e.rule.IgnoresLevels) (ns : List Node) :
    ((checkNodes (rules.filterMap (Enabled.regrade grade)) (s.withLevels isStrict levels)
        typeOf memo ns).value kb).diagnostics =
      ((checkNodes rules s typeOf memo ns).value kb).diagnostics.filterMap
        (Diagnostic.regrade grade) := by
  induction ns with
  | nil => rfl
  | cons n rest ih =>
    simp only [checkNodes, Consult.value_bind, Consult.value_pure, Report.append,
      List.filterMap_append, diagnostics_checkNode_regrade h n, ih]

/-- Rules that are all taken away find nothing, so neither do no rules. -/
theorem diagnostics_checkNodes_nil (ns : List Node) :
    ((checkNodes [] s typeOf memo ns).value kb).diagnostics = [] := by
  have h : ((checkNodes [] (s.withLevels s.settings.isStrict s.settings.levels) typeOf memo
      ns).value kb).diagnostics =
        ((checkNodes [] s typeOf memo ns).value kb).diagnostics.filterMap
          (Diagnostic.regrade fun _ _ => none) :=
    diagnostics_checkNodes_regrade (List.forall_mem_nil _) ns
  exact h.trans (List.filterMap_eq_nil_iff.mpr fun _ _ => rfl)

/-! ## Checks -/

/-- What a check of markup reports. -/
def diagnosticsOf (s : Scene) (types : TypeProvider) (memo : BindingMemo) (kb : Knowledge) :
    List Diagnostic :=
  ((checkMarkup s types memo).value kb).diagnostics

theorem diagnosticsOf_eq (s : Scene) (types : TypeProvider) (memo : BindingMemo)
    (kb : Knowledge) :
    diagnosticsOf s types memo kb =
      ((checkNodes (enabledRules markupRules s.settings) s (types s.document.fileName) memo
        s.tree.nodes).value kb).diagnostics := by
  rw [diagnosticsOf, checkMarkup, checkMarkupWith]
  split
  · next hnone =>
    rw [List.isEmpty_iff.mp hnone, diagnostics_checkNodes_nil]
    rfl
  · rfl

theorem enabledRules_regrade {rs : List Rule} {old new : Settings}
    (h : ∀ r ∈ rs, new.severity? r.info = (old.severity? r.info).bind (grade r.info.name)) :
    enabledRules rs new = (enabledRules rs old).filterMap (Enabled.regrade grade) := by
  rw [enabledRules, enabledRules, List.filterMap_filterMap]
  refine List.filterMap_congr fun r hr => ?_
  rw [h r hr]
  cases hseverity : old.severity? r.info with
  | none => rfl
  | some severity => rfl

/-- Where other levels give each rule the severity that `grade` makes of the one it had, the
diagnostics are those there were, regraded. -/
theorem diagnosticsOf_regrade (types : TypeProvider) (memo : BindingMemo)
    (h : ∀ r ∈ markupRules, (s.withLevels isStrict levels).settings.severity? r.info =
      (s.settings.severity? r.info).bind (grade r.info.name)) :
    diagnosticsOf (s.withLevels isStrict levels) types memo kb =
      (diagnosticsOf s types memo kb).filterMap (Diagnostic.regrade grade) := by
  rw [diagnosticsOf_eq, diagnosticsOf_eq, enabledRules_regrade h]
  refine diagnostics_checkNodes_regrade (fun e he => ?_) s.tree.nodes
  obtain ⟨r, hr, hmap⟩ := List.mem_filterMap.mp he
  obtain ⟨severity, _, rfl⟩ := Option.map_eq_some_iff.mp hmap
  exact markupRules_ignoreLevels r hr

end Engine

/-- The scene with a rule at a level. -/
def Scene.setLevel (s : Scene) (rule : String) (level : Level) : Scene :=
  { s with settings := s.settings.setLevel rule level }

/-- The scene with all rules about markup switched off but those with certain names. -/
def Scene.only (s : Scene) (on : String → Bool) : Scene :=
  { s with settings := s.settings.only on }

open Engine

theorem diagnosticsOf_only (s : Scene) (types : TypeProvider) (memo : BindingMemo) (kb : Knowledge)
    (on : String → Bool) :
    diagnosticsOf (s.only on) types memo kb =
      (diagnosticsOf s types memo kb).filter fun d => on d.rule := by
  rw [← filterMap_regrade_keeping]
  refine diagnosticsOf_regrade types memo fun r hr => ?_
  rw [bind_keeping]
  exact s.settings.severity?_only on hr

/-- Switching a rule off takes its diagnostics out; giving a rule that runs another severity
gives it to its diagnostics; and any choice among the rules gives the diagnostics of
the chosen ones.  Nothing else changes, and the order stays. -/
theorem checkMarkup_rules_independent (s : Scene) (types : TypeProvider) (memo : BindingMemo)
    (kb : Knowledge) (rule : String) :
    diagnosticsOf (s.setLevel rule .off) types memo kb =
        (diagnosticsOf s types memo kb).filter (fun d => d.rule != rule) ∧
      (s.settings.Runs rule → ∀ severity : Severity,
        diagnosticsOf (s.setLevel rule severity.level) types memo kb =
          (diagnosticsOf s types memo kb).map fun d =>
            if d.rule = rule then { d with severity := severity } else d) ∧
      ∀ on : String → Bool, diagnosticsOf (s.only on) types memo kb =
        (diagnosticsOf s types memo kb).filter fun d => on d.rule := by
  refine ⟨?_, ?_, ?_⟩
  · rw [← filterMap_regrade_keeping (fun name => name != rule)]
    refine diagnosticsOf_regrade types memo fun r _ => ?_
    refine (s.settings.severity?_setLevel rule .off r.info).trans ?_
    rw [bind_keeping]
    by_cases h : r.info.name = rule
    · rw [if_pos h, if_neg (by simp [h])]
      rfl
    · rw [if_neg h, if_pos (by simp [h])]
  · intro hruns severity
    rw [← filterMap_regrade_setting]
    refine diagnosticsOf_regrade types memo fun r hr => ?_
    have hlevel := s.settings.severity?_setLevel rule severity.level r.info
    rw [severity.severity?_level] at hlevel
    refine hlevel.trans ?_
    split
    · next h =>
      obtain ⟨old, hold⟩ := Option.isSome_iff_exists.mp (hruns r hr h)
      rw [hold, Option.bind_some, setting, if_pos h]
    · next h =>
      cases s.settings.severity? r.info with
      | none => rfl
      | some old => rw [Option.bind_some, setting, if_neg h]
  · exact fun on => diagnosticsOf_only s types memo kb on

/-- A scene with an element that is neither known nor closed. -/
def unclosedScene : Scene :=
  { document :=
      { fileName := "a.ts", dialect := .markup, location := ⟨5, 10⟩
        parts := [.text { text := "<x-a>", span := ⟨5, 10⟩ }] }
    tree :=
      { roots :=
          [.mk { id := 0, tag := "x-a", kind := .element, whole := ⟨0, 5⟩, nameSpan := ⟨1, 4⟩,
                 startTag := ⟨0, 5⟩ } []]
        problems := [] }
    settings := {} }

/-- Two rules report the element.  The second one runs, so it can be made more severe. -/
theorem checkMarkup_rules_independent_unclosedScene :
    (diagnosticsOf unclosedScene (fun _ _ => .any) [] {}).map (fun d => (d.rule, d.severity)) =
        [("no-unknown-tag-name", .warning), ("no-unclosed-tag", .warning)] ∧
      unclosedScene.settings.Runs "no-unclosed-tag" ∧
      diagnosticsOf (unclosedScene.setLevel "no-unclosed-tag" .error) (fun _ _ => .any) [] {} =
        (diagnosticsOf unclosedScene (fun _ _ => .any) [] {}).map fun d =>
          if d.rule = "no-unclosed-tag" then { d with severity := .error } else d := by
  have hruns : unclosedScene.settings.Runs "no-unclosed-tag" := by decide
  refine ⟨by decide +kernel, hruns, ?_⟩
  exact (checkMarkup_rules_independent unclosedScene (fun _ _ => .any) [] {}
    "no-unclosed-tag").2.1 hruns .error

end Inlay
