import Inlay.Lint.Context

/-!
# Walks with a shared context

Whether the rules of a walk share a context or each finding is marked with its rule afterwards
makes no difference: `Context.checkMarkupWith_eq`.  The equation is one of consultations, so
the knowledge base is asked the same questions in the same order.

Between two places nothing of the context counts but what has been reported, since every hook
begins by entering its rule.  `Context.Adds` says so of each part of a walk.
-/

namespace Inlay

open Markup

instance : LawfulMonad Consult :=
  LawfulMonad.mk' Consult
    (fun c => by
      refine congrArg Consult.mk (funext fun kb => ?_)
      exact congrArg (Prod.mk _) (List.append_nil _))
    (fun a f => rfl)
    (fun c f g => by
      refine congrArg Consult.mk (funext fun kb => ?_)
      exact congrArg (Prod.mk _) (List.append_assoc _ _ _))

theorem Report.append_empty (r : Report) : r.append {} = r := by
  rw [Report.append, List.append_nil, List.append_nil]

theorem Report.append_assoc (a b c : Report) :
    (a.append b).append c = a.append (b.append c) := by
  rw [Report.append, Report.append, Report.append, Report.append, List.append_assoc,
    List.append_assoc]

namespace Context

variable {α : Type} {walk : Context → Consult Context} {found : Consult Report}

/-- Whatever context a part of a walk begins with, it adds what is found to the reports. -/
def Adds (walk : Context → Consult Context) (found : Consult Report) : Prop :=
  ∀ c, toReport <$> walk c = c.toReport.append <$> found

theorem adds_pure : Adds pure (pure {}) := by
  intro c
  rw [map_pure, map_pure, Report.append_empty]

/-- Parts of a walk come one after the other. -/
theorem Adds.bind (h : Adds walk found) {walk' : Context → Consult Context}
    {found' : Consult Report} (h' : Adds walk' found') :
    Adds (fun c => walk c >>= walk') (do return (← found).append (← found')) := by
  intro c
  calc toReport <$> (walk c >>= walk')
      = walk c >>= fun x => x.toReport.append <$> found' := by
        rw [map_bind]
        exact bind_congr h'
    _ = (toReport <$> walk c) >>= fun r => r.append <$> found' := (bind_map_left _ _ _).symm
    _ = found >>= fun a => (c.toReport.append a).append <$> found' := by
        rw [h c, bind_map_left]
    _ = c.toReport.append <$> (do return (← found).append (← found')) := by
        simp only [map_eq_pure_bind, bind_assoc, pure_bind, Report.append_assoc]

/-- What is asked in between is asked by both. -/
theorem adds_of_bind {asked : Consult α} {walk : α → Context → Consult Context}
    {found : α → Consult Report} (h : ∀ a, Adds (walk a) (found a)) :
    Adds (fun c => asked >>= fun a => walk a c) (asked >>= found) := by
  intro c
  rw [map_bind, map_bind]
  exact bind_congr fun a => h a c

/-- The reports of the current rule are its findings, marked with it. -/
theorem foldl_report (s : Scene) (c : Context) (e : Enabled) (fs : List Finding) :
    (fs.foldl (report s) (c.enter e)).toReport =
      c.toReport.append { diagnostics := fs.map (e.diagnose s) } := by
  have hfold : ∀ c : Context, c.rule = e.rule.info.name → c.severity = e.severity →
      (fs.foldl (report s) c).toReport =
        c.toReport.append { diagnostics := fs.map (e.diagnose s) } := by
    induction fs with
    | nil => exact fun c _ _ => (Report.append_empty _).symm
    | cons f rest ih =>
      intro c hrule hseverity
      have hmarked : c.diagnostic s f = e.diagnose s f := by
        rw [diagnostic, hrule, hseverity, Enabled.diagnose]
      rw [List.foldl_cons, ih (c.report s f) hrule hseverity, toReport, report, hmarked]
      simp only [Report.append, toReport, List.map_cons, List.append_assoc, List.singleton_append]
  exact hfold (c.enter e) rfl rfl

theorem adds_runHook (s : Scene) (look : Rule → Consult (List Finding)) (rules : List Enabled) :
    Adds (runHook s look rules)
      (do return { diagnostics := ← Enabled.run s look rules }) := by
  induction rules with
  | nil => exact adds_pure
  | cons e rest ih =>
    intro c
    have hmore : ∀ found : List Finding,
        toReport <$> runHook s look rest (found.foldl (report s) (c.enter e)) = do
          let more ← Enabled.run s look rest
          return c.toReport.append { diagnostics := found.map (e.diagnose s) ++ more } := by
      intro found
      rw [ih, foldl_report]
      simp only [map_bind, map_pure, Report.append, List.append_assoc, List.append_nil]
    have hrun : Enabled.run s look (e :: rest) = do
        let found ← look e.rule
        let more ← Enabled.run s look rest
        return found.map (e.diagnose s) ++ more := by
      simp only [Enabled.run, Consult.collect, bind_assoc, pure_bind]
    rw [runHook, map_bind, bind_congr hmore, hrun]
    simp only [map_eq_pure_bind, bind_assoc, pure_bind]

variable {rules : List Enabled} {s : Scene} {typeOf : HostExpression → StaticType}
  {memo : BindingMemo}

theorem adds_checkAttribute (n : Node) (a : Attribute) :
    Adds (checkAttribute rules s typeOf memo n a)
      (Engine.checkAttribute rules s typeOf memo n a) := by
  have hname := adds_runHook s (fun r => r.onAttribute s n a) rules
  cases ha : a.assignment with
  | none =>
    intro c
    have hc := hname c
    simp only [checkAttribute, Engine.checkAttribute, ha, bind_pure]
    exact hc
  | some assignment =>
    have hvalue : Adds (fun c => do
        let types ← BindingTypes.resolve memo typeOf n.tag a assignment
        runHook s (fun r => pure (r.onAssignment s n a assignment types)) rules
          { c with bindings := c.bindings ++ [(assignment.id, types)] }) (do
        let types ← BindingTypes.resolve memo typeOf n.tag a assignment
        Engine.checkAssignment rules s n a assignment types) := by
      refine adds_of_bind fun types c => ?_
      have hc := adds_runHook s (fun r => pure (r.onAssignment s n a assignment types)) rules
        { c with bindings := c.bindings ++ [(assignment.id, types)] }
      rw [hc, Engine.checkAssignment]
      simp only [map_eq_pure_bind, bind_assoc, pure_bind]
      refine bind_congr fun found => congrArg pure ?_
      rw [toReport, toReport, Report.append, Report.append, List.append_nil]
    intro c
    have hc := (hname.bind hvalue) c
    simp only [checkAttribute, Engine.checkAttribute, ha]
    refine hc.trans ?_
    simp only [bind_assoc, pure_bind]

theorem adds_checkAttributes (n : Node) (as : List Attribute) :
    Adds (checkAttributes rules s typeOf memo n as)
      (Engine.checkAttributes rules s typeOf memo n as) := by
  induction as with
  | nil => exact adds_pure
  | cons a rest ih => exact (adds_checkAttribute n a).bind ih

theorem adds_checkNode (n : Node) :
    Adds (checkNode rules s typeOf memo n) (Engine.checkNode rules s typeOf memo n) := by
  have hnode := adds_runHook s (fun r => r.onNode s n) rules
  intro c
  rw [checkNode, Engine.checkNode]
  by_cases hkind : n.kind ≠ .element
  · simp only [if_pos hkind, bind_pure]
    exact hnode c
  · simp only [if_neg hkind]
    refine (hnode.bind (adds_checkAttributes n n.attributes) c).trans ?_
    simp only [bind_assoc, pure_bind]

theorem adds_checkNodes (ns : List Node) :
    Adds (checkNodes rules s typeOf memo ns) (Engine.checkNodes rules s typeOf memo ns) := by
  induction ns with
  | nil => exact adds_pure
  | cons n rest ih => exact (adds_checkNode n).bind ih

/-- A walk with a shared context reports what the engine does, and consults the knowledge base in
the same way. -/
theorem checkMarkupWith_eq (rules : List Rule) (s : Scene) (types : TypeProvider)
    (memo : BindingMemo) :
    toReport <$> checkMarkupWith rules s types memo =
      Engine.checkMarkupWith rules s types memo := by
  rw [checkMarkupWith, Engine.checkMarkupWith]
  split
  · rw [map_pure]
    rfl
  · rw [adds_checkNodes]
    exact id_map _

end Context
end Inlay
