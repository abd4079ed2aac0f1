import Inlay.Proofs.Markup.Arena

/-!
# Lookups in an arena

Lookups in an arena go by numbers and take steps: a stack is worked off, candidates are entered
one level at a time, parents are followed.  On the arena of a tree whose numbers are places they
give what is defined by recursion on the tree, and never run out of steps:
`Arena.walk_ofDocument`, `Arena.nodeAt?_ofDocument`, `Arena.unclosedAt?_ofDocument`.
-/

namespace Inlay
namespace Markup

/-- The entries of some elements stand in an arena at their numbers. -/
structure Arena.Holds (a : Arena) (es : List Element) : Prop where
  numbered : AtNumbers a.nodes
  entries : ∀ n ∈ entriesOf es, n ∈ a.nodes

mutual
theorem Element.length_pathAt_le (offset : Nat) : ∀ e : Element,
    (e.pathAt offset).length ≤ e.walk.length
  | .mk n cs => by
    have hcs := length_pathIn_le offset cs
    rw [Element.pathAt, Element.walk, List.length_append, List.length_singleton, List.length_cons]
    omega

/-- A path goes through every node at most once. -/
theorem length_pathIn_le (offset : Nat) : ∀ es : List Element,
    (pathIn offset es).length ≤ (walkAll es).length
  | [] => Nat.le_refl 0
  | e :: es => by
    have he := e.length_pathAt_le offset
    have hes := length_pathIn_le offset es
    rw [pathIn, walkAll, List.length_append]
    split <;> omega
end

namespace Arena

variable {a : Arena} {e : Element} {es : List Element} {n : Node} {cs : List Element}

namespace Holds

theorem head (h : a.Holds (e :: es)) : a.Holds [e] := by
  refine ⟨h.numbered, fun n hn => h.entries n ?_⟩
  rw [entriesOf, entriesOf, List.append_nil] at hn
  rw [entriesOf]
  exact List.mem_append_left _ hn

theorem tail (h : a.Holds (e :: es)) : a.Holds es := by
  refine ⟨h.numbered, fun n hn => h.entries n ?_⟩
  rw [entriesOf]
  exact List.mem_append_right _ hn

/-- The children take the place of their parent. -/
theorem expand (h : a.Holds (.mk n cs :: es)) : a.Holds (cs ++ es) := by
  refine ⟨h.numbered, fun m hm => h.entries m ?_⟩
  rw [entriesOf, Element.entries, List.cons_append]
  rw [entriesOf_append] at hm
  exact List.mem_cons_of_mem _ hm

theorem children (h : a.Holds (.mk n cs :: es)) : a.Holds cs := by
  have hexpand := h.head.expand
  rwa [List.append_nil] at hexpand

theorem node? (h : a.Holds (.mk n cs :: es)) : a.node? n.id = some (.ofNode n (idsOf cs)) := by
  refine h.numbered.getElem? (n := .ofNode n (idsOf cs)) (h.entries _ ?_)
  rw [entriesOf, Element.entries]
  exact List.mem_append_left _ List.mem_cons_self

theorem childrenOf (h : a.Holds (.mk n cs :: es)) : a.childrenOf n.id = idsOf cs := by
  rw [Arena.childrenOf, h.node?]
  rfl

end Holds

/-- The nodes come off the stack in document order. -/
theorem Holds.walkFrom {steps : Nat} (h : a.Holds es) (hsteps : (walkAll es).length ≤ steps) :
    a.walkFrom steps (idsOf es) = (walkAll es).map (·.id) := by
  induction steps generalizing es with
  | zero =>
    cases es with
    | nil => rfl
    | cons e es =>
      obtain ⟨n, cs⟩ := e
      rw [walkAll, Element.walk, List.cons_append, List.length_cons] at hsteps
      exact absurd hsteps (Nat.not_succ_le_zero _)
  | succ steps ih =>
    cases es with
    | nil => rfl
    | cons e es =>
      obtain ⟨n, cs⟩ := e
      have hwalk : walkAll (.mk n cs :: es) = n :: walkAll (cs ++ es) := by
        rw [walkAll, Element.walk, List.cons_append, walkAll_append]
      rw [hwalk, List.length_cons] at hsteps
      have hids : a.childrenOf n.id ++ idsOf es = idsOf (cs ++ es) := by
        rw [h.childrenOf, idsOf, idsOf, idsOf, List.map_append]
      have hrest := ih h.expand (Nat.le_of_succ_le_succ hsteps)
      rw [hwalk, List.map_cons, ← hrest, ← hids]
      rfl

/-- Among siblings the first one that the cursor touches is found. -/
theorem Holds.find?_touches (h : a.Holds es) (offset : Nat) :
    (idsOf es).find? (a.touches offset) =
      (es.find? fun e => e.node.whole.touches offset).map fun e => e.node.id := by
  induction es with
  | nil => rfl
  | cons e es ih =>
    obtain ⟨n, cs⟩ := e
    have htouches : a.touches offset n.id = n.whole.touches offset := by
      rw [touches, h.node?]
      rfl
    have hrest : idsOf (.mk n cs :: es) = n.id :: idsOf es := rfl
    rw [hrest, List.find?_cons, List.find?_cons, htouches, ih h.tail]
    cases hn : n.whole.touches offset <;> simp [Element.node, hn]

theorem pathIn_eq (offset : Nat) (es : List Element) :
    pathIn offset es =
      ((es.find? fun e => e.node.whole.touches offset).map (·.pathAt offset)).getD [] := by
  induction es with
  | nil => rfl
  | cons e es ih =>
    rw [pathIn, List.find?_cons]
    cases he : e.node.whole.touches offset with
    | true => rfl
    | false => exact ih

theorem Holds.of_mem (h : a.Holds es) (he : e ∈ es) : a.Holds [e] := by
  induction es with
  | nil => exact absurd he List.not_mem_nil
  | cons x xs ih =>
    rcases List.mem_cons.mp he with rfl | he
    · exact h.head
    · exact ih h.tail he

/-- Candidates are entered down to the innermost node around the cursor. -/
theorem Holds.descend {steps : Nat} (h : a.Holds es) (offset : Nat)
    (hsteps : (pathIn offset es).length ≤ steps) (found : Option Nat) :
    a.descend offset steps (idsOf es) found =
      ((pathIn offset es).head?.map (·.id)).or found := by
  induction steps generalizing es found with
  | zero =>
    rw [List.eq_nil_of_length_eq_zero (Nat.le_zero.mp hsteps)]
    rfl
  | succ steps ih =>
    rw [Arena.descend, h.find?_touches, pathIn_eq]
    rw [pathIn_eq] at hsteps
    cases hfirst : es.find? fun e => e.node.whole.touches offset with
    | none => rfl
    | some e =>
      obtain ⟨n, cs⟩ := e
      have hheld := h.of_mem (List.mem_of_find?_eq_some hfirst)
      rw [hfirst] at hsteps
      have hdeeper : (pathIn offset cs).length ≤ steps := by
        rw [Option.map_some, Option.getD_some, Element.pathAt, List.length_append] at hsteps
        exact Nat.le_of_succ_le_succ hsteps
      have hnode : (Element.mk n cs).node = n := rfl
      simp only [Option.map_some, Option.getD_some, Element.pathAt, hnode, hheld.childrenOf,
        ih hheld.children hdeeper, List.head?_append]
      cases (pathIn offset cs).head? <;> rfl

/-- Whether a node lacks its end tag around a cursor. -/
def lacksEnd (offset : Nat) (n : Node) : Bool := n.isUnclosed && n.startTag.stop ≤ offset

theorem climb_none (a : Arena) (offset steps : Nat) : a.climb offset steps none = none := by
  cases steps <;> rfl

mutual
/-- From the innermost node of a path, parents lead along it and out of the element. -/
theorem Holds.climb_pathAt (offset : Nat) : ∀ (e : Element) (outer : Option Node) (steps : Nat),
    a.Holds [e] → e.node.Below outer → e.All Element.Linked →
    a.climb offset ((e.pathAt offset).length + steps) ((e.pathAt offset).head?.map (·.id)) =
      (((e.pathAt offset).find? (lacksEnd offset)).map (·.id)).or
        (a.climb offset steps (outer.map (·.id)))
  | .mk n cs, outer, steps, h, hbelow, hlinked => by
    obtain ⟨hself, hchildren⟩ := Element.all_mk.mp hlinked
    have hparent : n.parent = outer.map (·.id) := hbelow.parent
    have hcs := Holds.climb_pathIn offset cs (some n) (steps + 1) h.children
      (fun c hc => ⟨hself.children c hc, hchildren c hc⟩)
    have hunclosed : (NodeEntry.ofNode n (idsOf cs)).isUnclosed = n.isUnclosed := rfl
    have hstart : (NodeEntry.ofNode n (idsOf cs)).startTag = n.startTag := rfl
    have hupwards : (NodeEntry.ofNode n (idsOf cs)).parent = outer.map (·.id) := hparent
    have hhead : ((pathIn offset cs ++ [n]).head?.map (·.id)) =
        ((pathIn offset cs).head?.map (·.id)).or (some n.id) := by
      rw [List.head?_append]
      cases (pathIn offset cs).head? <;> rfl
    have hsteps : (pathIn offset cs ++ [n]).length + steps =
        (pathIn offset cs).length + (steps + 1) := by
      rw [List.length_append, List.length_singleton]
      omega
    rw [Element.pathAt, hsteps, hhead]
    refine hcs.trans ?_
    rw [Option.map_some, Arena.climb, h.node?]
    dsimp only
    rw [hunclosed, hstart, hupwards, List.find?_append, List.find?_singleton, lacksEnd]
    cases (pathIn offset cs).find? (lacksEnd offset) with
    | some m => rfl
    | none =>
      cases hn : n.isUnclosed && decide (n.startTag.stop ≤ offset) <;> rfl

theorem Holds.climb_pathIn (offset : Nat) : ∀ (es : List Element) (outer : Option Node)
    (steps : Nat), a.Holds es → (∀ e ∈ es, e.node.Below outer ∧ e.All Element.Linked) →
    a.climb offset ((pathIn offset es).length + steps)
        (((pathIn offset es).head?.map (·.id)).or (outer.map (·.id))) =
      (((pathIn offset es).find? (lacksEnd offset)).map (·.id)).or
        (a.climb offset steps (outer.map (·.id)))
  | [], outer, steps, _, _ => by
    rw [pathIn, List.length_nil, Nat.zero_add]
    rfl
  | e :: es, outer, steps, h, hlinked => by
    obtain ⟨⟨hbelow, hself⟩, hrest⟩ := List.forall_mem_cons.mp hlinked
    rw [pathIn]
    split
    · have hhead : ((e.pathAt offset).head?.map (·.id)).or (outer.map (·.id)) =
          (e.pathAt offset).head?.map (·.id) := by
        obtain ⟨n, cs⟩ := e
        rw [Element.pathAt, List.head?_append]
        cases (pathIn offset cs).head? <;> rfl
      rw [hhead]
      exact Holds.climb_pathAt offset e outer steps h.head hbelow hself
    · exact Holds.climb_pathIn offset es outer steps h.tail hrest
end

/-! ## Documents -/

theorem holds_ofDocument (d : Document) : (ofDocument d).Holds (Tree.ofDocument d).roots := by
  rw [ofDocument_eq]
  exact ⟨Tree.atNumbers_ofDocument d, fun _ hn => hn⟩

theorem length_ofDocument (d : Document) :
    (ofDocument d).nodes.length = (walkAll (Tree.ofDocument d).roots).length := by
  have hids := congrArg List.length (ids_entriesOf (Tree.ofDocument d).roots)
  rw [List.length_map, List.length_map] at hids
  rw [ofDocument_eq]
  exact hids

theorem length_path_le (d : Document) (offset : Nat) :
    (pathIn offset (Tree.ofDocument d).roots).length ≤ (ofDocument d).nodes.length :=
  Nat.le_trans (length_pathIn_le offset _) (Nat.le_of_eq (length_ofDocument d).symm)

theorem roots_ofDocument (d : Document) :
    (ofDocument d).roots = idsOf (Tree.ofDocument d).roots := by
  rw [ofDocument_eq]
  rfl

/-- The stack of a document gives all nodes in document order. -/
theorem walk_ofDocument (d : Document) :
    (ofDocument d).walk = (Tree.ofDocument d).nodes.map (·.id) := by
  rw [walk, roots_ofDocument]
  exact (holds_ofDocument d).walkFrom (Nat.le_of_eq (length_ofDocument d).symm)

theorem nodeAt?_ofDocument (d : Document) (offset : Nat) :
    (ofDocument d).nodeAt? offset = ((Tree.ofDocument d).nodeAt? offset).map (·.id) := by
  rw [nodeAt?, roots_ofDocument, (holds_ofDocument d).descend offset (length_path_le d offset),
    Option.or_none]
  rfl

/-- Parents lead from the node at a cursor along all nodes around it. -/
theorem unclosedAt?_ofDocument (d : Document) (offset : Nat) :
    (ofDocument d).unclosedAt? offset = ((Tree.ofDocument d).unclosedAt? offset).map (·.id) := by
  obtain ⟨spare, hspare⟩ := Nat.exists_eq_add_of_le (length_path_le d offset)
  have hclimb := Holds.climb_pathIn offset (Tree.ofDocument d).roots none spare
    (holds_ofDocument d) (Tree.linked_roots d)
  rw [← hspare, Option.map_none, Option.or_none] at hclimb
  rw [unclosedAt?, nodeAt?_ofDocument]
  refine hclimb.trans ?_
  rw [climb_none, Option.or_none]
  rfl

end Arena
end Markup
end Inlay
