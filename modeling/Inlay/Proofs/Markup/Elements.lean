import Inlay.Markup.Lookup

/-!
# Elements of a tree

`Tree.elements` lists what `Tree.nodes` lists, each node with its children.  A property of an
element with its children that all elements of a tree have is shown from the inside out:
`Element.all_mk`.
-/

namespace Inlay
namespace Markup

mutual
/-- An element and all those inside it, in the order of `Element.walk`. -/
def Element.elements : Element → List Element
  | .mk n cs => .mk n cs :: elementsOf cs

def elementsOf : List Element → List Element
  | [] => []
  | e :: es => e.elements ++ elementsOf es
end

/-- All elements in document order. -/
def Tree.elements (t : Tree) : List Element := elementsOf t.roots

theorem elementsOf_eq (es : List Element) : elementsOf es = es.flatMap Element.elements := by
  induction es with
  | nil => rw [elementsOf, List.flatMap_nil]
  | cons e rest ih => rw [elementsOf, List.flatMap_cons, ih]

mutual
theorem Element.walk_eq_map : ∀ e : Element, e.walk = e.elements.map Element.node
  | .mk n cs => by
    rw [Element.walk, Element.elements, List.map_cons, walkAll_eq_map cs]
    rfl

theorem walkAll_eq_map : ∀ es : List Element, walkAll es = (elementsOf es).map Element.node
  | [] => by rw [walkAll, elementsOf, List.map_nil]
  | e :: es => by
    rw [walkAll, elementsOf, List.map_append, Element.walk_eq_map e, walkAll_eq_map es]
end

theorem Tree.nodes_eq_map (t : Tree) : t.nodes = t.elements.map Element.node :=
  walkAll_eq_map t.roots

theorem Tree.exists_element {t : Tree} {n : Node} (hn : n ∈ t.nodes) :
    ∃ e ∈ t.elements, e.node = n := by
  rw [nodes_eq_map] at hn
  exact List.mem_map.mp hn

theorem Tree.node_mem {t : Tree} {e : Element} (he : e ∈ t.elements) : e.node ∈ t.nodes := by
  rw [nodes_eq_map]
  exact List.mem_map_of_mem he

/-! ## Elements inside elements -/

theorem Element.mem_elements_self (e : Element) : e ∈ e.elements := by
  obtain ⟨n, cs⟩ := e
  exact List.mem_cons_self

mutual
theorem Element.elements_sublist {x : Element} : ∀ e : Element, x ∈ e.elements →
    x.elements.Sublist e.elements
  | .mk n cs, hx => by
    rw [Element.elements, List.mem_cons] at hx
    rcases hx with rfl | hx
    · exact List.Sublist.refl _
    · exact (elementsOf_sublist cs hx).cons _

theorem elementsOf_sublist {x : Element} : ∀ es : List Element, x ∈ elementsOf es →
    x.elements.Sublist (elementsOf es)
  | [], hx => absurd hx List.not_mem_nil
  | e :: es, hx => by
    rw [elementsOf, List.mem_append] at hx
    rcases hx with hx | hx
    · exact (Element.elements_sublist e hx).trans (List.sublist_append_left _ _)
    · exact (elementsOf_sublist es hx).trans (List.sublist_append_right _ _)
end

theorem sublist_elementsOf (es : List Element) : es.Sublist (elementsOf es) := by
  induction es with
  | nil => exact List.Sublist.refl _
  | cons e rest ih =>
    rw [elementsOf]
    exact (List.singleton_sublist.mpr e.mem_elements_self).append ih

mutual
/-- What lies in an element is the element, or a child of something in it. -/
theorem Element.eq_or_child {x : Element} : ∀ e : Element, x ∈ e.elements →
    x = e ∨ ∃ p ∈ e.elements, x ∈ p.children
  | .mk n cs, hx => by
    rw [Element.elements, List.mem_cons] at hx
    rcases hx with rfl | hx
    · exact .inl rfl
    · rcases mem_or_child cs hx with hc | ⟨p, hp, hc⟩
      · exact .inr ⟨.mk n cs, List.mem_cons_self, hc⟩
      · exact .inr ⟨p, List.mem_cons_of_mem _ hp, hc⟩

theorem mem_or_child {x : Element} : ∀ es : List Element, x ∈ elementsOf es →
    x ∈ es ∨ ∃ p ∈ elementsOf es, x ∈ p.children
  | [], hx => absurd hx List.not_mem_nil
  | e :: es, hx => by
    rw [elementsOf, List.mem_append] at hx
    simp only [elementsOf, List.mem_append]
    rcases hx with hx | hx
    · rcases Element.eq_or_child e hx with rfl | ⟨p, hp, hc⟩
      · exact .inl List.mem_cons_self
      · exact .inr ⟨p, .inl hp, hc⟩
    · rcases mem_or_child es hx with hx | ⟨p, hp, hc⟩
      · exact .inl (List.mem_cons_of_mem _ hx)
      · exact .inr ⟨p, .inr hp, hc⟩
end

/-- The children of an element lie behind it. -/
theorem Tree.cons_children_sublist {t : Tree} {e : Element} (he : e ∈ t.elements) :
    (e :: e.children).Sublist t.elements := by
  have hinner := elementsOf_sublist t.roots he
  obtain ⟨n, cs⟩ := e
  rw [Element.elements] at hinner
  exact ((sublist_elementsOf cs).cons_cons _).trans hinner

mutual
theorem Element.find?_eq (id : Nat) : ∀ e : Element,
    e.find? id = e.elements.find? fun x => x.node.id = id
  | .mk n cs => by
    rw [Element.find?, Element.elements, List.find?_cons, findIn?_eq id cs, Element.node]
    by_cases hid : n.id = id
    · rw [if_pos hid, decide_eq_true hid]
    · rw [if_neg hid, decide_eq_false hid]

theorem findIn?_eq (id : Nat) : ∀ es : List Element,
    findIn? id es = (elementsOf es).find? fun x => x.node.id = id
  | [] => by rw [findIn?, elementsOf, List.find?_nil]
  | e :: es => by
    rw [findIn?, elementsOf, List.find?_append, Element.find?_eq id e, findIn?_eq id es]
    cases List.find? (fun x => decide (x.node.id = id)) e.elements <;> rfl
end

/-! ## Properties of all elements -/

/-- An element and all those inside it have a property. -/
def Element.All (P : Element → Prop) (e : Element) : Prop := ∀ x ∈ e.elements, P x

theorem Element.all_mk {P : Element → Prop} {n : Node} {cs : List Element} :
    (Element.mk n cs).All P ↔ P (.mk n cs) ∧ ∀ c ∈ cs, c.All P := by
  rw [Element.All, Element.elements, List.forall_mem_cons, elementsOf_eq]
  refine and_congr_right fun _ => ?_
  constructor
  · intro h c hc x hx
    exact h x (List.mem_flatMap.mpr ⟨c, hc, hx⟩)
  · intro h x hx
    obtain ⟨c, hc, hx⟩ := List.mem_flatMap.mp hx
    exact h c hc x hx

theorem Element.All.self {P : Element → Prop} {e : Element} (h : e.All P) : P e := by
  obtain ⟨n, cs⟩ := e
  exact (Element.all_mk.mp h).1

theorem Tree.forall_elements_iff {P : Element → Prop} {t : Tree} :
    (∀ e ∈ t.elements, P e) ↔ ∀ e ∈ t.roots, e.All P := by
  rw [Tree.elements, elementsOf_eq]
  constructor
  · intro h e he x hx
    exact h x (List.mem_flatMap.mpr ⟨e, he, hx⟩)
  · intro h x hx
    obtain ⟨e, he, hx⟩ := List.mem_flatMap.mp hx
    exact h e he x hx

/-! ## Properties of what is being made -/

/-- Wherever the open element ends and whatever children it gets, it will have a property, and its
complete children have it. -/
structure Frame.Promises (P : Element → Prop) (f : Frame) : Prop where
  close : ∀ stop tag cs, P (.mk { f.node.endAt stop with endTag := tag } cs)
  done : ∀ e ∈ f.done, e.All P

/-- All that is complete has a property, and all that is open will have it. -/
structure Builder.Promises (P : Element → Prop) (b : Builder) : Prop where
  roots : ∀ e ∈ b.roots, e.All P
  frames : ∀ f ∈ b.frames, f.Promises P

section Promises

variable {P : Element → Prop} {f : Frame} {e : Element} {fs : List Frame} {roots : List Element}
variable {b : Builder}

theorem Element.all_leaf {n : Node} (h : P (.mk n [])) : (Element.mk n []).All P :=
  Element.all_mk.mpr ⟨h, List.forall_mem_nil _⟩

theorem Frame.Promises.add (h : f.Promises P) (he : e.All P) : (f.add e).Promises P :=
  ⟨h.close, List.forall_mem_cons.mpr ⟨he, h.done⟩⟩

theorem Frame.Promises.toElement (h : f.Promises P) (stop : Nat) (tag : Option Span) :
    ({ f with node := { f.node.endAt stop with endTag := tag } } : Frame).toElement.All P :=
  Element.all_mk.mpr ⟨h.close stop tag _, fun e he => h.done e (List.mem_reverse.mp he)⟩

theorem promises_closeIn {name : String} {tag : Span} {outer : List Frame}
    (h : ∀ f ∈ fs, f.Promises P) (hclose : Builder.closeIn name tag fs = some (e, outer)) :
    e.All P ∧ ∀ f ∈ outer, f.Promises P := by
  fun_induction Builder.closeIn name tag fs with
  | case1 => exact absurd hclose.symm (Option.some_ne_none _)
  | case2 f rest _ =>
    obtain ⟨rfl, rfl⟩ := Prod.mk.inj (Option.some.inj hclose)
    obtain ⟨hf, hrest⟩ := List.forall_mem_cons.mp h
    exact ⟨hf.toElement tag.stop (some tag), hrest⟩
  | case3 => exact absurd hclose.symm (Option.some_ne_none _)
  | case4 f _ g rest ih =>
    obtain ⟨hf, hg, hrest⟩ := List.forall_mem_cons.mp h |>.imp_right List.forall_mem_cons.mp
    have hinner := hf.toElement tag.start f.node.endTag
    exact ih (List.forall_mem_cons.mpr ⟨hg.add hinner, hrest⟩) hclose

theorem all_closeAll {stop : Nat} (hroots : ∀ e ∈ roots, e.All P) (h : ∀ f ∈ fs, f.Promises P) :
    ∀ e ∈ Builder.closeAll stop roots fs, e.All P := by
  fun_induction Builder.closeAll stop roots fs with
  | case1 => exact hroots
  | case2 f =>
    have hf := h f List.mem_cons_self
    exact List.forall_mem_cons.mpr ⟨hf.toElement stop f.node.endTag, hroots⟩
  | case3 f g outer ih =>
    obtain ⟨hf, hg, hrest⟩ := List.forall_mem_cons.mp h |>.imp_right List.forall_mem_cons.mp
    have hinner := hf.toElement stop f.node.endTag
    exact ih (List.forall_mem_cons.mpr ⟨hg.add hinner, hrest⟩)

namespace Builder

theorem Promises.add (h : b.Promises P) (he : e.All P) : (b.add e).Promises P := by
  have hframes := h.frames
  rw [Builder.add]
  split
  · exact ⟨List.forall_mem_cons.mpr ⟨he, h.roots⟩, h.frames⟩
  · next f rest hcons =>
    rw [hcons] at hframes
    obtain ⟨hf, hrest⟩ := List.forall_mem_cons.mp hframes
    exact ⟨h.roots, List.forall_mem_cons.mpr ⟨hf.add he, hrest⟩⟩

theorem Promises.dropCurrent (h : b.Promises P)
    (hcurrent : ∀ n, b.current = some n → P (.mk n [])) : b.dropCurrent.Promises P := by
  rw [Builder.dropCurrent]
  split
  · next n hn =>
    have hadd := h.add (Element.all_leaf (hcurrent n hn))
    exact ⟨hadd.roots, hadd.frames⟩
  · exact h

theorem Promises.closeNode (h : b.Promises P) (text : String) (tag name : Span) :
    (b.closeNode text tag name).Promises P := by
  rw [Builder.closeNode]
  split
  · next e outer hclose =>
    obtain ⟨he, houter⟩ := promises_closeIn h.frames hclose
    have hb : { b with frames := outer }.Promises P := ⟨h.roots, houter⟩
    exact hb.add he
  · exact ⟨h.roots, h.frames⟩

/-- The attributes of the current node are not among what is complete or open. -/
theorem Promises.addAttribute (h : b.Promises P) (d : Document) (text : String) (p : Pending)
    (quote : Quote) (stop : Nat) : (b.addAttribute d text p quote stop).Promises P := by
  rw [Builder.addAttribute]
  split
  · exact h
  · dsimp only
    split <;> exact ⟨h.roots, h.frames⟩

theorem Promises.finish (h : b.Promises P) {stop : Nat}
    (hcurrent : ∀ n, b.current = some n → P (.mk (n.endStartTag stop) [])) :
    (b.finish stop).Promises P := by
  have hb : { b with current := b.current.map fun n : Node => n.endStartTag stop }.Promises P :=
    ⟨h.roots, h.frames⟩
  have hdrop := hb.dropCurrent fun n hn => by
    obtain ⟨m, hm, rfl⟩ := Option.map_eq_some_iff.mp hn
    exact hcurrent m hm
  exact ⟨all_closeAll hdrop.roots hdrop.frames, List.forall_mem_nil _⟩

end Builder

end Promises

end Markup
end Inlay
