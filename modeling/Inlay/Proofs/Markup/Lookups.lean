import Inlay.Proofs.Markup.Links

/-!
# Lookups by offset

A cursor is looked up from the outside in, into the first element that it touches, and never
back out.  Nothing is missed: `Tree.lookups_scan` says that the answer is the deepest of all nodes
that the cursor touches, and that the attribute found is the first one of the whole tree.

Elements beside each other can share a boundary, so a cursor can touch two of them.  Inside the
second one it then touches nothing, since everything inside an element begins behind the start of
its tag.  In the same way an attribute ends before the bracket of its tag, and so before the
children.  `Element.Strict` is what ranges must keep for this, besides being nested.
-/

namespace Inlay
namespace Markup

/-! ## Room between ranges -/

/-- The name of a node ends behind its start, so that nothing in it begins with it. -/
def Node.Roomy (n : Node) : Prop := n.whole.start < n.nameSpan.stop

/-- An element with a bracket between its attributes and its children. -/
structure Element.Strict (e : Element) : Prop where
  roomy : e.node.Roomy
  bracket : e.children ≠ [] → ∀ a ∈ e.node.attributes, a.whole.stop < e.node.startTag.stop

theorem Element.strict_leaf {n : Node} (h : n.Roomy) : (Element.mk n []).Strict :=
  ⟨h, fun hne => absurd rfl hne⟩

namespace Builder

variable {b : Builder} {n : Node} {pos pos' : Nat} {φ φ' : Phase}

/-- What is complete or open is strict, and the current node has a name. -/
structure StrictSoFar (b : Builder) : Prop where
  promises : b.Promises Element.Strict
  current : ∀ n, b.current = some n → n.Roomy

theorem StrictSoFar.openNode (h : b.StrictSoFar) (text : String) {start stop : Nat}
    (hstart : 0 < start) (hstop : start < stop) :
    (b.openNode text (Span.of start stop)).StrictSoFar := by
  have hdrop := h.promises.dropCurrent fun n hn => Element.strict_leaf (h.current n hn)
  refine ⟨⟨hdrop.roots, hdrop.frames⟩, ?_⟩
  rintro n ⟨⟩
  show start - 1 < max start stop
  omega

/-- The end of a start tag stands behind the attributes. -/
theorem StrictSoFar.endStartTag (h : b.StrictSoFar) (hnested : b.NestedAt pos (.tag none))
    {stop : Nat} (hstop : pos < stop) (selfClosed : Bool) :
    (b.endStartTag stop selfClosed).StrictSoFar := by
  obtain ⟨n, hn, hbegins, -, -⟩ := hnested
  have hroomy := h.current n hn
  have hb : { b with current := none }.Promises Element.Strict :=
    ⟨h.promises.roots, h.promises.frames⟩
  rw [Builder.endStartTag, hn]
  dsimp only
  split
  · refine ⟨hb.add (Element.all_leaf (Element.strict_leaf hroomy)), fun m hm => ?_⟩
    rw [current_add] at hm
    exact absurd hm (Option.some_ne_none m).symm
  · refine ⟨⟨hb.roots, List.forall_mem_cons.mpr ⟨⟨?_, List.forall_mem_nil _⟩, hb.frames⟩⟩, ?_⟩
    · refine fun _ _ _ => ⟨hroomy, fun _ a ha => ?_⟩
      have hinside := hbegins.attributes.mem (List.mem_map_of_mem ha)
      exact Nat.lt_of_le_of_lt hinside.2.2 hstop
    · rintro m ⟨⟩

theorem StrictSoFar.addAttribute (h : b.StrictSoFar) (d : Document) (text : String) (p : Pending)
    (quote : Quote) (stop : Nat) : (b.addAttribute d text p quote stop).StrictSoFar := by
  refine ⟨h.promises.addAttribute d text p quote stop, fun m hm => ?_⟩
  rw [Builder.addAttribute] at hm
  split at hm
  · exact h.current m hm
  · next n hn =>
    dsimp only at hm
    split at hm
    · exact h.current m hm
    · obtain rfl := Option.some.inj hm
      exact h.current n hn

theorem StrictSoFar.read (h : b.StrictSoFar) (hnested : b.NestedAt pos φ) {t : Token}
    (ht : Follows φ pos t φ' pos') (d : Document) (text : String) :
    (b.read d text t).StrictSoFar := by
  have hread := hnested.read ht d text
  cases ht with
  | text | comment => exact h
  | attributeName | attributeValue | mistake =>
    exact ⟨⟨h.promises.roots, h.promises.frames⟩, h.current⟩
  | close =>
    refine ⟨h.promises.closeNode text _ _, fun m hm => ?_⟩
    exact absurd (hm.symm.trans hread.1) (Option.some_ne_none m)
  | openName hstart hstop => exact h.openNode text (by omega) hstop
  | attributeEnd =>
    have hb : { b with pending := none }.StrictSoFar :=
      ⟨⟨h.promises.roots, h.promises.frames⟩, h.current⟩
    rw [Builder.read]
    split
    · exact hb.addAttribute d text _ _ _
    · exact h
  | openEnd hbracket => exact h.endStartTag hnested (by omega) false
  | selfClose hbracket => exact h.endStartTag hnested (by omega) true

theorem StrictSoFar.foldl_read {ts : List Token} (h : b.StrictSoFar) (hnested : b.NestedAt pos φ)
    (hts : Path φ pos ts φ' pos') (d : Document) (text : String) :
    (ts.foldl (Builder.read d text) b).StrictSoFar := by
  induction hts generalizing b with
  | nil => exact h
  | cons ht _ ih => exact ih (h.read hnested ht d text) (hnested.read ht d text)

theorem strictSoFar_empty : ({} : Builder).StrictSoFar :=
  ⟨⟨List.forall_mem_nil _, List.forall_mem_nil _⟩, fun _ h => absurd h (by simp)⟩

theorem StrictSoFar.finish (h : b.StrictSoFar) (stop : Nat) :
    ∀ e ∈ (b.finish stop).roots, e.All Element.Strict :=
  (h.promises.finish fun n hn => Element.strict_leaf (h.current n hn)).roots

end Builder

/-- Elements beside each other between two offsets, with all that is in them. -/
structure Siblings (lo hi : Nat) (es : List Element) : Prop where
  inOrder : InOrder lo hi (es.map Element.whole)
  nested : ∀ e ∈ es, e.All Element.Nested
  strict : ∀ e ∈ es, e.All Element.Strict

theorem Tree.siblings_ofDocument (d : Document) :
    Siblings 0 d.text.utf8ByteSize (Tree.ofDocument d).roots := by
  have hroots := rootsNested_ofDocument d
  refine ⟨hroots.inOrder_roots, hroots.all_roots, ?_⟩
  obtain ⟨ts, htokens, φ, done, hpath, -⟩ := tokens_eq d.text
  have hread := Builder.strictSoFar_empty.foldl_read Builder.nestedAt_empty hpath d d.text
  intro e he
  rw [ofDocument, Builder.toTree, Builder.ofDocument, htokens, List.foldl_append] at he
  exact hread.finish _ e (List.mem_reverse.mp he)

section Siblings

variable {lo hi : Nat} {n : Node} {e : Element} {cs es : List Element}

theorem Siblings.tail (h : Siblings lo hi (e :: es)) : Siblings e.whole.stop hi es :=
  ⟨h.inOrder.2.2, (List.forall_mem_cons.mp h.nested).2, (List.forall_mem_cons.mp h.strict).2⟩

/-- The children of an element lie behind its start. -/
theorem Siblings.children (h : Siblings lo hi (.mk n cs :: es)) :
    Siblings n.startTag.stop (Element.mk n cs).node.contentStop cs ∧
      n.whole.start < n.startTag.stop := by
  obtain ⟨hnested, hinner⟩ := Element.all_mk.mp (h.nested _ List.mem_cons_self)
  obtain ⟨hstrict, hbelow⟩ := Element.all_mk.mp (h.strict _ List.mem_cons_self)
  have hroomy : n.whole.start < n.nameSpan.stop := hstrict.roomy
  have htag : n.nameSpan.stop ≤ n.startTag.stop := hnested.begins.attributes.le
  exact ⟨⟨hnested.children, hinner, hbelow⟩, by omega⟩

/-- All that is in an element lies in its range. -/
theorem Siblings.within (h : Siblings lo hi (e :: es)) (hn : n ∈ e.walk) :
    e.whole.start ≤ n.whole.start ∧ n.whole.stop ≤ e.whole.stop := by
  rw [Element.walk_eq_map] at hn
  obtain ⟨x, hx, rfl⟩ := List.mem_map.mp hn
  exact Element.within_whole e (h.nested e List.mem_cons_self) x hx

end Siblings

/-! ## Depths -/

mutual
/-- The nodes of an element at a depth, each with its own depth, in the order of `Element.walk`. -/
def Element.levels (depth : Nat) : Element → List (Node × Nat)
  | .mk n cs => (n, depth) :: levelsOf (depth + 1) cs

def levelsOf (depth : Nat) : List Element → List (Node × Nat)
  | [] => []
  | e :: es => e.levels depth ++ levelsOf depth es
end

/-- All nodes of a tree with their depths.  Those in no other have the depth zero. -/
def Tree.levels (t : Tree) : List (Node × Nat) := levelsOf 0 t.roots

mutual
theorem Element.map_fst_levels (depth : Nat) : ∀ e : Element,
    (e.levels depth).map Prod.fst = e.walk
  | .mk n cs => by rw [Element.levels, List.map_cons, map_fst_levelsOf (depth + 1) cs, Element.walk]

theorem map_fst_levelsOf (depth : Nat) : ∀ es : List Element,
    (levelsOf depth es).map Prod.fst = walkAll es
  | [] => rfl
  | e :: es => by
    rw [levelsOf, List.map_append, Element.map_fst_levels depth e, map_fst_levelsOf depth es,
      walkAll]
end

theorem Element.mem_walk_of_mem_levels {e : Element} {depth : Nat} {p : Node × Nat}
    (hp : p ∈ e.levels depth) : p.1 ∈ e.walk := by
  rw [← e.map_fst_levels depth]
  exact List.mem_map_of_mem hp

theorem mem_walkAll_of_mem_levelsOf {es : List Element} {depth : Nat} {p : Node × Nat}
    (hp : p ∈ levelsOf depth es) : p.1 ∈ walkAll es := by
  rw [← map_fst_levelsOf depth es]
  exact List.mem_map_of_mem hp

mutual
/-- Every node in an element is one deeper than the node of the element whose child it is. -/
theorem Element.levels_outer : ∀ (e : Element) {depth : Nat} {p : Node × Nat},
    p ∈ e.levels depth → p = (e.node, depth) ∨
      ∃ q ∈ e.levels depth, ∃ x ∈ e.elements, ∃ c ∈ x.children,
        q.1 = x.node ∧ p.1 = c.node ∧ p.2 = q.2 + 1
  | .mk n cs, depth, p, hp => by
    rw [Element.levels, List.mem_cons] at hp
    rw [Element.levels, Element.elements]
    rcases hp with rfl | hp
    · exact .inl rfl
    · right
      rcases levelsOf_outer cs hp with ⟨c, hc, rfl⟩ | ⟨q, hq, x, hx, hchild⟩
      · exact ⟨(n, depth), List.mem_cons_self, .mk n cs, List.mem_cons_self, c, hc, rfl, rfl, rfl⟩
      · exact ⟨q, List.mem_cons_of_mem _ hq, x, List.mem_cons_of_mem _ hx, hchild⟩

theorem levelsOf_outer : ∀ (es : List Element) {depth : Nat} {p : Node × Nat},
    p ∈ levelsOf depth es → (∃ e ∈ es, p = (e.node, depth)) ∨
      ∃ q ∈ levelsOf depth es, ∃ x ∈ elementsOf es, ∃ c ∈ x.children,
        q.1 = x.node ∧ p.1 = c.node ∧ p.2 = q.2 + 1
  | [], _, _, hp => absurd hp List.not_mem_nil
  | e :: es, depth, p, hp => by
    rw [levelsOf, List.mem_append] at hp
    rw [levelsOf, elementsOf]
    rcases hp with hp | hp
    · rcases Element.levels_outer e hp with rfl | ⟨q, hq, x, hx, hchild⟩
      · exact .inl ⟨e, List.mem_cons_self, rfl⟩
      · exact .inr ⟨q, List.mem_append_left _ hq, x, List.mem_append_left _ hx, hchild⟩
    · rcases levelsOf_outer es hp with ⟨r, hr, rfl⟩ | ⟨q, hq, x, hx, hchild⟩
      · exact .inl ⟨r, List.mem_cons_of_mem _ hr, rfl⟩
      · exact .inr ⟨q, List.mem_append_right _ hq, x, List.mem_append_right _ hx, hchild⟩
end

mutual
/-- What is deeper than an element begins behind its start. -/
theorem Element.levels_behind : ∀ (e : Element) {es : List Element} {lo hi depth : Nat},
    Siblings lo hi (e :: es) → ∀ p ∈ e.levels depth,
      (p.2 = depth ∧ p.1 = e.node) ∨ (depth < p.2 ∧ e.whole.start < p.1.whole.start)
  | .mk n cs, _, _, _, depth, h, p, hp => by
    obtain ⟨hchildren, hroom⟩ := h.children
    rw [Element.levels, List.mem_cons] at hp
    rcases hp with rfl | hp
    · exact .inl ⟨rfl, rfl⟩
    · right
      show depth < p.2 ∧ n.whole.start < p.1.whole.start
      rcases levelsOf_behind cs hchildren p hp with ⟨hdepth, hstart⟩ | ⟨hdepth, hstart⟩
      · omega
      · omega

/-- What is deeper than elements beside each other begins behind the first offset. -/
theorem levelsOf_behind : ∀ (es : List Element) {lo hi depth : Nat}, Siblings lo hi es →
    ∀ p ∈ levelsOf depth es,
      (p.2 = depth ∧ lo ≤ p.1.whole.start) ∨ (depth < p.2 ∧ lo < p.1.whole.start)
  | [], _, _, _, _, _, hp => absurd hp List.not_mem_nil
  | e :: es, lo, _, depth, h, p, hp => by
    obtain ⟨hstart, hspan, -⟩ := h.inOrder
    rw [levelsOf, List.mem_append] at hp
    rcases hp with hp | hp
    · rcases Element.levels_behind e h p hp with ⟨hdepth, hnode⟩ | ⟨hdepth, hbehind⟩
      · refine .inl ⟨hdepth, ?_⟩
        rw [hnode]
        exact hstart
      · exact .inr ⟨hdepth, by omega⟩
    · rcases levelsOf_behind es h.tail p hp with ⟨hdepth, hbehind⟩ | ⟨hdepth, hbehind⟩
      · exact .inl ⟨hdepth, by omega⟩
      · exact .inr ⟨hdepth, by omega⟩
end

/-! ## The innermost node -/

/-- Of all nodes that a cursor touches, this one is the deepest, and the first of these. -/
def Deepest (offset : Nat) (levels : List (Node × Nat)) (n : Node) : Prop :=
  ∃ depth, (n, depth) ∈ levels ∧ n.whole.touches offset = true ∧
    ∀ p ∈ levels, p.1.whole.touches offset = true →
      p.2 < depth ∨ (p.2 = depth ∧ n.id ≤ p.1.id)

section Lookup

variable {offset : Nat}

theorem Siblings.not_touches {lo hi : Nat} {e : Element} {es : List Element} {n : Node}
    (h : Siblings lo hi (e :: es)) (hn : n ∈ e.walk) (he : ¬ e.whole.touches offset = true) :
    ¬ n.whole.touches offset = true := by
  have hwithin := h.within hn
  rw [Span.touches_iff] at he ⊢
  omega

mutual
theorem Element.deepest_pathAt : ∀ (e : Element) {es : List Element} {lo hi depth : Nat},
    Siblings lo hi (e :: es) → (e.walk.map (·.id)).Pairwise (· < ·) →
    e.whole.touches offset = true →
    ∃ n, (e.pathAt offset).head? = some n ∧ Deepest offset (e.levels depth) n
  | .mk n cs, _, _, _, depth, h, hids, htouched => by
    rw [Element.walk, List.map_cons, List.pairwise_cons] at hids
    rw [Element.pathAt, Element.levels]
    rcases deepest_pathIn cs h.children.1 hids.2 with ⟨hnone, hout⟩ | ⟨x, hx, j, hmem, hxt, hbest⟩
    · refine ⟨n, by rw [hnone]; rfl, depth, List.mem_cons_self, htouched, ?_⟩
      refine List.forall_mem_cons.mpr ⟨fun _ => .inr ⟨rfl, Nat.le_refl _⟩, fun p hp hpt => ?_⟩
      exact absurd hpt (hout p hp)
    · refine ⟨x, by rw [List.head?_append, hx]; rfl, j, List.mem_cons_of_mem _ hmem, hxt, ?_⟩
      refine List.forall_mem_cons.mpr ⟨fun _ => .inl ?_, hbest⟩
      show depth < j
      rcases levelsOf_behind cs h.children.1 _ hmem with ⟨hdepth, -⟩ | ⟨hdepth, -⟩
      · exact Nat.lt_of_lt_of_eq (Nat.lt_succ_self depth) hdepth.symm
      · exact Nat.lt_of_succ_lt hdepth

theorem deepest_pathIn : ∀ (es : List Element) {lo hi depth : Nat}, Siblings lo hi es →
    ((walkAll es).map (·.id)).Pairwise (· < ·) →
    (pathIn offset es = [] ∧ ∀ p ∈ levelsOf depth es, ¬ p.1.whole.touches offset = true) ∨
      ∃ n, (pathIn offset es).head? = some n ∧ Deepest offset (levelsOf depth es) n
  | [], _, _, _, _, _ => .inl ⟨rfl, List.forall_mem_nil _⟩
  | e :: es, _, _, depth, h, hids => by
    rw [walkAll, List.map_append, List.pairwise_append] at hids
    obtain ⟨hinner, hrest, hacross⟩ := hids
    rw [pathIn, levelsOf]
    split
    · next htouched =>
      right
      obtain ⟨x, hx, j, hmem, hxt, hbest⟩ := Element.deepest_pathAt e h hinner htouched
      refine ⟨x, hx, j, List.mem_append_left _ hmem, hxt, ?_⟩
      refine List.forall_mem_append.mpr ⟨hbest, fun p hp hpt => ?_⟩
      -- Behind the first element that is touched only another one beside it can be.
      have hid : x.id < p.1.id :=
        hacross _ (List.mem_map_of_mem (Element.mem_walk_of_mem_levels hmem)) _
          (List.mem_map_of_mem (mem_walkAll_of_mem_levelsOf hp))
      have hdepth : depth ≤ j := by
        rcases Element.levels_behind e h _ hmem with ⟨hj, -⟩ | ⟨hj, -⟩
        · exact Nat.le_of_eq hj.symm
        · exact Nat.le_of_lt hj
      rw [Span.touches_iff] at htouched hpt
      rcases levelsOf_behind es h.tail p hp with ⟨hp, -⟩ | ⟨-, hbehind⟩
      · omega
      · exact absurd (Nat.lt_of_lt_of_le hbehind hpt.1) (Nat.not_lt.mpr htouched.2)
    · next htouched =>
      have hout : ∀ p ∈ e.levels depth, ¬ p.1.whole.touches offset = true := fun p hp =>
        h.not_touches (Element.mem_walk_of_mem_levels hp) htouched
      rcases deepest_pathIn es h.tail hrest with ⟨hnone, hnot⟩ | ⟨x, hx, j, hmem, hxt, hbest⟩
      · exact .inl ⟨hnone, List.forall_mem_append.mpr ⟨hout, hnot⟩⟩
      · refine .inr ⟨x, hx, j, List.mem_append_right _ hmem, hxt, ?_⟩
        exact List.forall_mem_append.mpr ⟨fun p hp hpt => absurd hpt (hout p hp), hbest⟩
end

/-! ## Attributes -/

/-- The first attribute that a cursor touches. -/
def firstTouched (offset : Nat) (attributes : List Attribute) : Option Attribute :=
  attributes.find? fun a => a.whole.touches offset

theorem firstTouched_eq_none {as : List Attribute} :
    firstTouched offset as = none ↔ ∀ a ∈ as, ¬ a.whole.touches offset = true :=
  List.find?_eq_none

theorem firstTouched_append (as bs : List Attribute) :
    firstTouched offset (as ++ bs) = (firstTouched offset as).or (firstTouched offset bs) :=
  List.find?_append

/-- The attributes of elements beside each other begin behind the first offset. -/
theorem Siblings.attributes_behind {lo hi : Nat} {es : List Element} (h : Siblings lo hi es)
    {a : Attribute} (ha : a ∈ (walkAll es).flatMap (·.attributes)) : lo < a.whole.start := by
  obtain ⟨n, hn, ha⟩ := List.mem_flatMap.mp ha
  rw [walkAll_eq_map] at hn
  obtain ⟨x, hx, rfl⟩ := List.mem_map.mp hn
  have hwithin := within_elementsOf es h.nested h.inOrder x hx
  obtain ⟨e, he, hx⟩ := List.mem_flatMap.mp (elementsOf_eq es ▸ hx)
  have hroomy : x.whole.start < x.node.nameSpan.stop := (h.strict e he x hx).roomy
  have hname := (h.nested e he x hx).begins.attributes.mem (List.mem_map_of_mem ha)
  omega

/-- A cursor that touches one of the elements has reached the first offset. -/
theorem Siblings.le_of_pathIn {lo hi : Nat} {es : List Element} {n : Node}
    (h : Siblings lo hi es) (hn : (pathIn offset es).head? = some n) : lo ≤ offset := by
  induction es generalizing lo with
  | nil => exact absurd hn (Option.some_ne_none n).symm
  | cons e es ih =>
    obtain ⟨hstart, hspan, -⟩ := h.inOrder
    rw [pathIn] at hn
    split at hn
    · next htouched => exact Nat.le_trans hstart (Span.touches_iff.mp htouched).1
    · exact Nat.le_trans (Nat.le_trans hstart hspan) (ih h.tail hn)

mutual
theorem Element.firstTouched_pathAt : ∀ (e : Element) {es : List Element} {lo hi : Nat},
    Siblings lo hi (e :: es) →
    (e.pathAt offset).head?.bind (fun n => firstTouched offset n.attributes) =
      firstTouched offset (e.walk.flatMap (·.attributes))
  | .mk n cs, _, _, _, h => by
    have hinner := firstTouched_pathIn cs h.children.1
    rw [Element.pathAt, List.head?_append, Element.walk, List.flatMap_cons, firstTouched_append,
      ← hinner]
    cases hhead : (pathIn offset cs).head? with
    | none =>
      show firstTouched offset n.attributes = (firstTouched offset n.attributes).or none
      rw [Option.or_none]
    | some x =>
      -- The cursor is behind the start tag, and so behind the attributes of the tag.
      have hreached := h.children.1.le_of_pathIn hhead
      have hcs : cs ≠ [] := by
        rintro rfl
        exact absurd hhead (Option.some_ne_none x).symm
      have hnone : firstTouched offset n.attributes = none := by
        refine firstTouched_eq_none.mpr fun a ha htouched => ?_
        have hbracket : a.whole.stop < n.startTag.stop :=
          (h.strict _ List.mem_cons_self).self.bracket hcs a ha
        have hstop := (Span.touches_iff.mp htouched).2
        omega
      rw [hnone]
      rfl

/-- The attributes of the innermost node that a cursor touches are the only ones of all that it
can touch. -/
theorem firstTouched_pathIn : ∀ (es : List Element) {lo hi : Nat}, Siblings lo hi es →
    (pathIn offset es).head?.bind (fun n => firstTouched offset n.attributes) =
      firstTouched offset ((walkAll es).flatMap (·.attributes))
  | [], _, _, _ => rfl
  | e :: es, _, _, h => by
    rw [pathIn, walkAll, List.flatMap_append, firstTouched_append]
    split
    · next htouched =>
      have hrest : firstTouched offset ((walkAll es).flatMap (·.attributes)) = none := by
        refine firstTouched_eq_none.mpr fun a ha hat => ?_
        have hbehind := h.tail.attributes_behind ha
        have hstop : offset ≤ e.whole.stop := (Span.touches_iff.mp htouched).2
        have hstart := (Span.touches_iff.mp hat).1
        omega
      rw [hrest, Option.or_none]
      exact Element.firstTouched_pathAt e h
    · next htouched =>
      have hfirst : firstTouched offset (e.walk.flatMap (·.attributes)) = none := by
        refine firstTouched_eq_none.mpr fun a ha hat => htouched ?_
        have hin := Element.inOrder_attributes e (h.nested e List.mem_cons_self)
        obtain ⟨hlo, -, hhi⟩ := hin.mem (List.mem_map_of_mem ha)
        obtain ⟨hstart, hstop⟩ := Span.touches_iff.mp hat
        exact Span.touches_iff.mpr ⟨Nat.le_trans hlo hstart, Nat.le_trans hstop hhi⟩
      rw [hfirst, Option.none_or]
      exact firstTouched_pathIn es h.tail
end

/-! ## The whole tree -/

theorem Deepest.id_eq {levels : List (Node × Nat)} {n m : Node} (hn : Deepest offset levels n)
    (hm : Deepest offset levels m) : n.id = m.id := by
  obtain ⟨j, hnmem, hntouched, hnbest⟩ := hn
  obtain ⟨k, hmmem, hmtouched, hmbest⟩ := hm
  have hnm : k < j ∨ (k = j ∧ n.id ≤ m.id) := hnbest _ hmmem hmtouched
  have hmn : j < k ∨ (j = k ∧ m.id ≤ n.id) := hmbest _ hnmem hntouched
  omega

theorem Deepest.mem_nodes {t : Tree} {n : Node} (h : Deepest offset t.levels n) : n ∈ t.nodes := by
  obtain ⟨depth, hmem, -⟩ := h
  exact mem_walkAll_of_mem_levelsOf hmem

/-- The attributes of a node lie in its start tag. -/
theorem Element.Nested.firstTouched_outside {e : Element} (h : e.Nested)
    (hout : ¬ e.node.startTag.touches offset = true) :
    firstTouched offset e.node.attributes = none := by
  refine firstTouched_eq_none.mpr fun a ha htouched => hout ?_
  obtain ⟨hlo, -, hhi⟩ := h.begins.attributes.mem (List.mem_map_of_mem ha)
  have hstart := h.begins.name_start
  have hname := h.begins.name
  rw [Span.touches_iff] at htouched ⊢
  omega

end Lookup

/-- The lookups of a cursor are found by a scan of all nodes and all attributes.  `depth` says
that the depths are those of the parents that nodes name, and `numbers` that attributes are
scanned in the order of their numbers. -/
structure Tree.LookupsScan (t : Tree) (offset : Nat) : Prop where
  nodes : t.levels.map Prod.fst = t.nodes
  depth : ∀ p ∈ t.levels, (t.parent? p.1 = none ∧ p.2 = 0) ∨
    ∃ q ∈ t.levels, t.parent? p.1 = some q.1 ∧ p.2 = q.2 + 1
  numbers : (t.attributes.map (·.id)).Pairwise (· < ·)
  nodeAt_none : t.nodeAt? offset = none ↔ ∀ n ∈ t.nodes, ¬ n.whole.touches offset = true
  nodeAt_some : ∀ n, t.nodeAt? offset = some n ↔ Deepest offset t.levels n
  attributeAt : t.attributeAt? offset = t.attributes.find? fun a => a.whole.touches offset

theorem Tree.parent?_of_mem_levels (d : Document) {p : Node × Nat}
    (hp : p ∈ (Tree.ofDocument d).levels) :
    ((Tree.ofDocument d).parent? p.1 = none ∧ p.2 = 0) ∨
      ∃ q ∈ (Tree.ofDocument d).levels,
        (Tree.ofDocument d).parent? p.1 = some q.1 ∧ p.2 = q.2 + 1 := by
  have hlinked := linked_ofDocument d
  have hnumbers := (numbered_ofDocument d).nodes
  rcases levelsOf_outer _ hp with ⟨e, he, rfl⟩ | ⟨q, hq, x, hx, c, hc, hqx, hpc, hdepth⟩
  · exact .inl ⟨parent?_of_none (hlinked.rootParent e he), rfl⟩
  · refine .inr ⟨q, hq, ?_, hdepth⟩
    have hchild : c.node ∈ (Tree.ofDocument d).childrenOf x.node.id := by
      rw [childrenOf_of_mem hnumbers hx]
      exact List.mem_map_of_mem hc
    rw [hpc, hqx]
    exact parent?_of_mem hnumbers hx (hlinked.childParent _ _ hchild)

theorem Tree.nodeAt?_deepest (d : Document) (offset : Nat) :
    ((Tree.ofDocument d).nodeAt? offset = none ∧
        ∀ p ∈ (Tree.ofDocument d).levels, ¬ p.1.whole.touches offset = true) ∨
      ∃ n, (Tree.ofDocument d).nodeAt? offset = some n ∧
        Deepest offset (Tree.ofDocument d).levels n := by
  have hids : ((walkAll (Tree.ofDocument d).roots).map (·.id)).Pairwise (· < ·) := by
    have hnumbers := (numbered_ofDocument d).nodes
    rw [Tree.nodes] at hnumbers
    rw [hnumbers]
    exact List.pairwise_lt_range
  rcases deepest_pathIn _ (siblings_ofDocument d) hids with ⟨hnone, hout⟩ | hfound
  · refine .inl ⟨?_, hout⟩
    rw [nodeAt?, pathAt, hnone, List.head?_nil]
  · exact .inr hfound

theorem Tree.attributeAt?_eq (d : Document) (offset : Nat) :
    (Tree.ofDocument d).attributeAt? offset =
      (Tree.ofDocument d).attributes.find? fun a => a.whole.touches offset := by
  have hpath : ((Tree.ofDocument d).nodeAt? offset).bind
      (fun n => firstTouched offset n.attributes) =
        firstTouched offset (Tree.ofDocument d).attributes :=
    firstTouched_pathIn _ (siblings_ofDocument d)
  refine Eq.trans ?_ hpath
  rw [attributeAt?, startTagAt?]
  rcases nodeAt?_deepest d offset with ⟨hnode, -⟩ | ⟨n, hnode, depth, hmem, -⟩
  · rw [hnode]
    rfl
  · rw [hnode, Option.filter_some, Option.bind_some]
    split
    · rfl
    · next hout =>
      obtain ⟨e, he, rfl⟩ := exists_element (mem_walkAll_of_mem_levelsOf hmem)
      exact (((rootsNested_ofDocument d).nested_of_mem he).firstTouched_outside hout).symm

/-- The innermost node at a cursor is the deepest one that it touches, the first of them if there
are several, and the attribute at a cursor is the first one that it touches. -/
theorem Tree.lookups_scan (d : Document) (offset : Nat) :
    (Tree.ofDocument d).LookupsScan offset := by
  have hnodes : (Tree.ofDocument d).levels.map Prod.fst = (Tree.ofDocument d).nodes :=
    map_fst_levelsOf 0 _
  refine ⟨hnodes, fun _ => parent?_of_mem_levels d, pairwise_attribute_ids d, ?_, ?_,
    attributeAt?_eq d offset⟩
  · rw [← hnodes]
    rcases nodeAt?_deepest d offset with ⟨hnone, hout⟩ | ⟨n, hsome, depth, hmem, htouched, -⟩
    · exact iff_of_true hnone (List.forall_mem_map.mpr hout)
    · refine iff_of_false (fun hnone => ?_) (fun hout => ?_)
      · exact Option.some_ne_none n (hsome.symm.trans hnone)
      · exact hout n (List.mem_map_of_mem hmem) htouched
  · intro n
    rcases nodeAt?_deepest d offset with ⟨hnone, hout⟩ | ⟨m, hsome, hdeepest⟩
    · refine iff_of_false (fun hsome => ?_) ?_
      · exact Option.some_ne_none n (hsome.symm.trans hnone)
      · rintro ⟨depth, hmem, htouched, -⟩
        exact hout _ hmem htouched
    · rw [hsome, Option.some_inj]
      constructor
      · rintro rfl
        exact hdeepest
      · intro hn
        exact eq_of_number_eq (numbered_ofDocument d).nodes hdeepest.mem_nodes hn.mem_nodes
          (hdeepest.id_eq hn)

end Markup
end Inlay
