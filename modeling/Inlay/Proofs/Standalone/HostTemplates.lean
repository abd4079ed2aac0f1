import Mathlib.Data.List.Perm.Subperm
import Inlay.Proofs.Host.Nesting
import Inlay.Proofs.Standalone.HostSteps
import Inlay.Standalone.HostTemplates

/-!
# The stand-in for a host parser is regular

What is asked of a parser of host files, the reader of tokens gives: `regular_templates`.

`Laminar` says it of the template literals in a part of source, tagged or not, listed by where
they begin.  While source is read, each frame that is open is laminar between its start and the
frame inside it, and the innermost one up to the current position; behind a dollar sign in a
template it is laminar up to that sign, where a hole may begin.  A visit then finds some of the
templates, in another order and with their tags.
-/

namespace Inlay
namespace Standalone

/-! ## Texts and gaps -/

theorem textsFrom_eq_cons (stop cursor : Nat) (holes : List Span) :
    ∃ first rest, Literal.textsFrom stop cursor holes = first :: rest ∧ first.start = cursor := by
  cases holes with
  | nil => exact ⟨_, _, rfl, rfl⟩
  | cons hole rest => exact ⟨_, _, rfl, rfl⟩

/-- The gaps between the texts are the holes. -/
theorem gaps_textsFrom (stop cursor : Nat) (holes : List (Span × List Token)) :
    ((holes.map fun hole => Chain.code hole.2).zip
        ((Literal.textsFrom stop cursor (holes.map Prod.fst)).zip
          (Literal.textsFrom stop cursor (holes.map Prod.fst)).tail)).map
        (fun (code, before, after) => (Span.of before.stop after.start, code)) =
      holes.map fun hole => (Span.of hole.1.start hole.1.stop, Chain.code hole.2) := by
  induction holes generalizing cursor with
  | nil => rfl
  | cons hole rest ih =>
    obtain ⟨first, more, hmore, hfirst⟩ := textsFrom_eq_cons stop hole.1.stop (rest.map Prod.fst)
    have hrest := ih hole.1.stop
    rw [List.map_cons, List.map_cons, List.map_cons, Literal.textsFrom, List.tail_cons, ← hrest,
      hmore, List.zip_cons_cons, List.zip_cons_cons, List.map_cons]
    show (Span.of hole.1.start first.start, Chain.code hole.2) :: _ = _
    rw [hfirst, List.tail_cons]

theorem gaps_tagged (tag : List Token) (span : Span) (holes : List (Span × List Token)) :
    (tagged tag span holes).gaps =
      holes.map fun hole => (Span.of hole.1.start hole.1.stop, Chain.code hole.2) :=
  gaps_textsFrom (span.stop - 1) (span.start + 1) holes

/-! ## Templates of tokens -/

mutual
/-- The templates in a token by where they begin, as if none had a tag. -/
def Token.templates : Token → List TaggedTemplate
  | .leaf _ _ => []
  | .group _ _ tokens => templatesIn tokens
  | .template span holes => tagged [] span holes :: templatesInHoles holes

def templatesIn : List Token → List TaggedTemplate
  | [] => []
  | t :: ts => t.templates ++ templatesIn ts

def templatesInHoles : List (Span × List Token) → List TaggedTemplate
  | [] => []
  | (_, tokens) :: rest => templatesIn tokens ++ templatesInHoles rest
end

theorem templatesIn_append (ts us : List Token) :
    templatesIn (ts ++ us) = templatesIn ts ++ templatesIn us := by
  induction ts with
  | nil => rw [templatesIn, List.nil_append, List.nil_append]
  | cons t rest ih => rw [List.cons_append, templatesIn, templatesIn, ih, List.append_assoc]

theorem templatesIn_concat (ts : List Token) (t : Token) :
    templatesIn (ts ++ [t]) = templatesIn ts ++ t.templates := by
  rw [templatesIn_append, templatesIn, templatesIn, List.append_nil]

theorem templatesInHoles_concat (holes : List (Span × List Token)) (span : Span)
    (tokens : List Token) :
    templatesInHoles (holes ++ [(span, tokens)]) = templatesInHoles holes ++ templatesIn tokens := by
  induction holes with
  | nil =>
    rw [List.nil_append, templatesInHoles, templatesInHoles, List.nil_append, templatesInHoles,
      List.append_nil]
  | cons h rest ih =>
    rw [List.cons_append, templatesInHoles, templatesInHoles, ih, List.append_assoc]

theorem exists_hole_of_mem {holes : List (Span × List Token)} {t : TaggedTemplate}
    (h : t ∈ templatesInHoles holes) : ∃ hole ∈ holes, t ∈ templatesIn hole.2 := by
  induction holes with
  | nil =>
    rw [templatesInHoles] at h
    exact absurd h List.not_mem_nil
  | cons hole rest ih =>
    rw [templatesInHoles] at h
    rcases List.mem_append.mp h with h | h
    · exact ⟨hole, List.mem_cons_self, h⟩
    · obtain ⟨other, hother, hmem⟩ := ih h
      exact ⟨other, List.mem_cons_of_mem hole hother, hmem⟩

/-- Templates between two positions, listed by where they begin: each of them is placed, and
follows those before it. -/
structure Laminar (source : String) (lo hi : Nat) (ts : List TaggedTemplate) : Prop where
  between : ∀ t ∈ ts, lo ≤ t.span.start ∧ t.span.start < t.span.stop ∧ t.span.stop ≤ hi
  placed : ∀ t ∈ ts, t.Placed source
  nested : ts.Pairwise fun a b => b.Follows a

namespace Laminar

variable {source : String} {lo mid hi : Nat} {xs ys : List TaggedTemplate}

theorem nil : Laminar source lo hi [] := ⟨List.forall_mem_nil _, List.forall_mem_nil _, .nil⟩

theorem mono {lo' hi' : Nat} (h : Laminar source lo hi xs) (hlo : lo' ≤ lo) (hhi : hi ≤ hi') :
    Laminar source lo' hi' xs := by
  refine ⟨fun t ht => ?_, h.placed, h.nested⟩
  have hbetween := h.between t ht
  omega

/-- Templates behind a position come behind those before it. -/
theorem append (h : Laminar source lo mid xs) (h' : Laminar source mid hi ys) (hlo : lo ≤ mid)
    (hhi : mid ≤ hi) : Laminar source lo hi (xs ++ ys) := by
  constructor
  · exact List.forall_mem_append.mpr
      ⟨(h.mono (Nat.le_refl lo) hhi).between, (h'.mono hlo (Nat.le_refl hi)).between⟩
  · exact List.forall_mem_append.mpr ⟨h.placed, h'.placed⟩
  · refine List.pairwise_append.mpr ⟨h.nested, h'.nested, fun a ha b hb => .inl ?_⟩
    exact Nat.le_trans (h.between a ha).2.2 (h'.between b hb).1

end Laminar

namespace HostReader

/-! ## Frames -/

namespace Frame

def start : Frame → Nat
  | .source _ => 0
  | .group start _ _ | .template start _ | .hole start _ => start

/-- Where the contents of a frame begin at the earliest. -/
def inside : Frame → Nat
  | .source _ => 0
  | .group start _ _ | .template start _ | .hole start _ => start + 1

def templates : Frame → List TaggedTemplate
  | .source read | .group _ _ read | .hole _ read => templatesIn read.reverse
  | .template _ holes => templatesInHoles holes.reverse

/-- The holes that have been read in a template before `stop` lie in order and on boundaries, and
so does the start of a hole that is open. -/
def HolesPlaced (source : String) (stop : Nat) : Frame → Prop
  | .source _ | .group _ _ _ => True
  | .hole start _ => IsBoundary source start
  | .template start holes =>
    IsBoundary source (start + 1) ∧ InOrder (start + 1) stop (holes.reverse.map Prod.fst) ∧
      (∀ h ∈ holes, IsBoundary source h.1.start ∧ IsBoundary source h.1.stop) ∧
      ∀ h ∈ holes, ∀ t ∈ templatesIn h.2, h.1.start < t.span.start ∧ t.span.stop < h.1.stop

/-- What has been read in a frame lies before `stop`. -/
structure Placed (source : String) (stop : Nat) (f : Frame) : Prop where
  laminar : Laminar source f.inside stop f.templates
  holes : f.HolesPlaced source stop

theorem Placed.mono {source : String} {stop stop' : Nat} {f : Frame} (h : f.Placed source stop)
    (hle : stop ≤ stop') : f.Placed source stop' := by
  obtain ⟨hlaminar, hholes⟩ := h
  refine ⟨hlaminar.mono (Nat.le_refl _) hle, ?_⟩
  cases f with
  | source read => trivial
  | group start b read => trivial
  | hole start read => exact hholes
  | template start holes => exact ⟨hholes.1, hholes.2.1.mono_right hle, hholes.2.2⟩

end Frame

/-- Each frame is placed before the one inside it, and the innermost one before `stop`. -/
def FramesPlaced (source : String) (stop : Nat) : List Frame → Prop
  | [] => True
  | f :: outer => f.Placed source stop ∧ f.inside ≤ stop ∧ FramesPlaced source f.start outer

section Frames

variable {source : String} {pos stop start outer : Nat} {b : Bracket} {read : List Token}
  {holes : List (Span × List Token)} {f : Frame} {fs : List Frame} {t : Token}

theorem FramesPlaced.mono (h : FramesPlaced source pos fs) (hle : pos ≤ stop) :
    FramesPlaced source stop fs := by
  cases fs with
  | nil => trivial
  | cons f outer =>
    obtain ⟨hf, hinside, houter⟩ := h
    exact ⟨hf.mono hle, Nat.le_trans hinside hle, houter⟩

/-- A token comes behind what has been read. -/
theorem FramesPlaced.add (h : FramesPlaced source pos (f :: fs))
    (ht : Laminar source pos stop t.templates) (hle : pos ≤ stop) :
    FramesPlaced source stop (f.add t :: fs) := by
  obtain ⟨hf, hinside, houter⟩ := h
  have hlaminar := hf.laminar.append ht hinside hle
  have hinside' := Nat.le_trans hinside hle
  cases f with
  | source read =>
    rw [Frame.templates, ← templatesIn_concat, ← List.reverse_cons] at hlaminar
    exact ⟨⟨hlaminar, trivial⟩, hinside', houter⟩
  | group start b read =>
    rw [Frame.templates, ← templatesIn_concat, ← List.reverse_cons] at hlaminar
    exact ⟨⟨hlaminar, trivial⟩, hinside', houter⟩
  | hole start read =>
    rw [Frame.templates, ← templatesIn_concat, ← List.reverse_cons] at hlaminar
    exact ⟨⟨hlaminar, hf.holes⟩, hinside', houter⟩
  | template start holes => exact ⟨hf.mono hle, hinside', houter⟩

/-- A frame that is opened is empty. -/
theorem FramesPlaced.opens (h : FramesPlaced source f.start fs) (hinside : f.inside ≤ stop)
    (hempty : f.templates = []) (hholes : f.HolesPlaced source stop) :
    FramesPlaced source stop (f :: fs) :=
  ⟨⟨hempty ▸ .nil, hholes⟩, hinside, h⟩

theorem FramesPlaced.closeGroup (h : FramesPlaced source pos (.group start b read :: f :: fs))
    (hlt : pos < stop) :
    FramesPlaced source stop (f.add (.group (Span.of start stop) b read.reverse) :: fs) := by
  obtain ⟨hread, hinside, hrest⟩ := h
  have hinside : start + 1 ≤ pos := hinside
  have hgroup : Laminar source start stop
      (Token.group (Span.of start stop) b read.reverse).templates := by
    rw [Token.templates]
    exact hread.laminar.mono (Nat.le_succ start) (Nat.le_of_lt hlt)
  exact FramesPlaced.add hrest hgroup (by show start ≤ stop; omega)

theorem FramesPlaced.closeHole
    (h : FramesPlaced source pos (.hole start read :: .template outer holes :: fs))
    (hlt : pos < stop) (hstop : IsBoundary source stop) :
    FramesPlaced source stop
      (.template outer ((Span.of start stop, read.reverse) :: holes) :: fs) := by
  obtain ⟨⟨hread, hstart⟩, hinside, ⟨hbefore, houter, hin, hgaps, hwithin⟩, hle, hrest⟩ := h
  have hinside : start + 1 ≤ pos := hinside
  have hle : outer + 1 ≤ start := hle
  have hspan : Span.of start stop = ⟨start, stop⟩ := by rw [Span.of, Nat.max_eq_right (by omega)]
  have hnew : Laminar source start stop (templatesIn read.reverse) :=
    hread.mono (Nat.le_succ start) (Nat.le_of_lt hlt)
  rw [hspan]
  refine ⟨⟨?_, houter, ?_, ?_, ?_⟩, ?_, hrest⟩
  · rw [Frame.templates, List.reverse_cons, templatesInHoles_concat]
    exact hbefore.append hnew hle (by show start ≤ stop; omega)
  · rw [List.reverse_cons, List.map_append]
    exact InOrder.concat (s := ⟨start, stop⟩) hin (by show start ≤ stop; omega)
  · exact List.forall_mem_cons.mpr ⟨⟨hstart, hstop⟩, hgaps⟩
  · refine List.forall_mem_cons.mpr ⟨fun t ht => ?_, hwithin⟩
    obtain ⟨hlo, -, hhi⟩ := hread.between t ht
    exact ⟨hlo, Nat.lt_of_le_of_lt hhi hlt⟩
  · show outer + 1 ≤ stop
    omega

/-- The template that is closed is placed. -/
theorem placed_tagged (h : (Frame.template start holes).HolesPlaced source pos)
    (hpos : IsBoundary source pos) (tag : List Token) :
    (tagged tag (Span.of start (pos + 1)) holes.reverse).Placed source := by
  obtain ⟨hstart, hin, hgaps, -⟩ := h
  have hlt : start + 1 ≤ pos := hin.le
  have hspan : Span.of start (pos + 1) = ⟨start, pos + 1⟩ := by
    rw [Span.of, Nat.max_eq_right (by omega)]
  obtain ⟨hordered, hboundaries⟩ := Literal.texts_of_gaps hin hstart hpos fun g hg => by
    obtain ⟨h, hh, rfl⟩ := List.mem_map.mp hg
    exact hgaps h (List.mem_reverse.mp hh)
  rw [hspan]
  exact ⟨hordered, hboundaries, hstart, hpos⟩

theorem FramesPlaced.closeTemplate (h : FramesPlaced source pos (.template start holes :: f :: fs))
    (hpos : IsBoundary source pos) :
    FramesPlaced source (pos + 1)
      (f.add (.template (Span.of start (pos + 1)) holes.reverse) :: fs) := by
  obtain ⟨⟨hholes, hplaced⟩, hinside, hrest⟩ := h
  have hinside : start + 1 ≤ pos := hinside
  have hself := placed_tagged hplaced hpos []
  have hstop : (Span.of start (pos + 1)).stop = pos + 1 := Nat.max_eq_right (by omega)
  have htemplate : Laminar source start (pos + 1)
      (Token.template (Span.of start (pos + 1)) holes.reverse).templates := by
    have hwithin := hholes.mono (Nat.le_succ start) (Nat.le_succ pos)
    rw [Token.templates]
    refine ⟨List.forall_mem_cons.mpr ⟨?_, hwithin.between⟩,
      List.forall_mem_cons.mpr ⟨hself, hwithin.placed⟩, ?_⟩
    · show start ≤ start ∧ start < (Span.of start (pos + 1)).stop ∧ _ ≤ pos + 1
      rw [hstop]
      exact ⟨Nat.le_refl start, by omega, Nat.le_of_eq hstop⟩
    · -- All that lies in a literal lies in one of its holes.
      refine List.pairwise_cons.mpr ⟨fun t ht => .inr ?_, hwithin.nested⟩
      obtain ⟨hole, hhole, hmem⟩ := exists_hole_of_mem ht
      obtain ⟨hlo, hhi⟩ := hplaced.2.2.2 hole (List.mem_reverse.mp hhole) t hmem
      refine ⟨_, gaps_tagged [] _ _ ▸ List.mem_map_of_mem hhole, hlo, ?_⟩
      exact Nat.lt_of_lt_of_le hhi (Nat.le_max_right _ _)
  exact FramesPlaced.add hrest htemplate (by show start ≤ pos + 1; omega)

end Frames

/-- Every step of the reader keeps what is open placed. -/
theorem FramesPlaced.kept (source : String) : Kept source (FramesPlaced source) where
  later := FramesPlaced.mono
  leaf h _ _ := h.add (by rw [Token.templates]; exact .nil) (Nat.le_refl _)
  openGroup h hlt _ := FramesPlaced.opens h hlt rfl trivial
  openTemplate h hstop :=
    FramesPlaced.opens h (Nat.le_refl _) rfl
      ⟨hstop, Nat.le_refl _, List.forall_mem_nil _, List.forall_mem_nil _⟩
  openHole h hstart hlt := FramesPlaced.opens h hlt rfl hstart
  closeGroup := FramesPlaced.closeGroup
  closeHole := FramesPlaced.closeHole
  closeTemplate := FramesPlaced.closeTemplate

end HostReader

theorem laminar_of_readTokens? {source : String} {tokens : List Token}
    (h : readTokens? source = some tokens) :
    Laminar source 0 source.utf8ByteSize (templatesIn tokens) := by
  have hstart : HostReader.FramesPlaced source 0 [.source []] :=
    HostReader.FramesPlaced.opens trivial (Nat.le_refl 0) rfl trivial
  obtain ⟨_, hframes⟩ := (HostReader.FramesPlaced.kept source).readTokens hstart h
  have hlaminar := hframes.1.laminar
  rw [HostReader.Frame.templates, List.reverse_reverse] at hlaminar
  exact hlaminar

/-! ## Tagged templates -/

/-- A template without its tag. -/
def untagged (t : TaggedTemplate) : TaggedTemplate := { t with tag := Chain.code [] }

/-- A visit comes to templates that are, but for their tags, some of those in `ts`, in any
order. -/
def Visit.Adds (v : Visit) (ts : List TaggedTemplate) (v' : Visit) : Prop :=
  ∃ found : List TaggedTemplate,
    v'.templates.Perm (v.templates ++ found) ∧ (found.map untagged).Subperm ts

section Visits

variable {t : Token} {found ts : List TaggedTemplate}

theorem Visit.templates_goOn (v : Visit) (t : Token) (found : List TaggedTemplate) :
    (v.goOn t found).templates = v.templates ++ found :=
  (List.append_assoc _ _ _).symm

theorem Visit.templates_leaf (v : Visit) (t : Token) (kind : Leaf) :
    (v.leaf t kind).templates = v.templates := by
  have hgo : (v.goOn t []).templates = v.templates := by rw [templates_goOn, List.append_nil]
  have hrestart : ∀ chain, (v.restart chain []).templates = v.templates :=
    fun _ => List.append_nil _
  rw [Visit.leaf.eq_def]
  split
  · split
    · exact hgo
    · split
      · exact hrestart []
      · exact hrestart [t]
  · split
    · exact hgo
    · exact hrestart [t]
  · exact hgo
  · exact hgo
  · exact hrestart [t]
  · exact hrestart [t]
  · split
    · exact hgo
    · exact hrestart []
  · exact hrestart []
  · exact hrestart []
  · exact hrestart []

theorem Visit.templates_group (v : Visit) (t : Token) (b : Bracket)
    (found : List TaggedTemplate) :
    (v.group t b found).templates = v.templates ++ found := by
  rw [Visit.group]
  split
  · have hgo : ({ v with run := v.run ++ found } : Visit).templates = v.templates ++ found :=
      v.templates_goOn t found
    exact (List.append_nil _).trans hgo
  · split
    · exact v.templates_goOn t found
    · rfl

/-- A template comes to the others with those in its holes if it is tagged, and otherwise only
those in its holes do. -/
theorem Visit.adds_template (v : Visit) (holes : List (Span × List Token))
    (hfound : (found.map untagged).Subperm ts) :
    v.Adds (tagged [] t.span holes :: ts) (v.template t holes found) := by
  rw [Visit.template]
  split
  · refine ⟨tagged v.chain.reverse t.span holes :: found, ?_, (List.subperm_cons _).mpr hfound⟩
    show (v.done ++ (_ :: v.run ++ found)).Perm (v.done ++ v.run ++ _ :: found)
    rw [List.append_assoc, List.cons_append]
    exact List.perm_middle.symm.append_left v.done
  · exact ⟨found, .refl _, hfound.trans (List.sublist_cons_self _ ts).subperm⟩

mutual
theorem adds_visit : ∀ (t : Token) (v : Visit), v.Adds t.templates (visit v t)
  | .leaf span kind, v => by
    rw [visit, Token.templates]
    refine ⟨[], ?_, List.Subperm.refl _⟩
    rw [Visit.templates_leaf, List.append_nil]
  | .group span b tokens, v => by
    rw [visit, Token.templates]
    obtain ⟨found, hperm, hsub⟩ := adds_visitAll tokens {}
    exact ⟨_, by rw [Visit.templates_group], (hperm.map untagged).subperm.trans hsub⟩
  | .template span holes, v => by
    rw [visit, Token.templates]
    exact v.adds_template holes (subperm_visitHoles holes)

theorem adds_visitAll : ∀ (tokens : List Token) (v : Visit),
    v.Adds (templatesIn tokens) (visitAll v tokens)
  | [], v => by
    rw [visitAll, templatesIn]
    exact ⟨[], by rw [List.append_nil], List.Subperm.refl _⟩
  | t :: rest, v => by
    rw [visitAll, templatesIn]
    obtain ⟨found, hperm, hsub⟩ := adds_visit t v
    obtain ⟨more, hperm', hsub'⟩ := adds_visitAll rest (visit v t)
    refine ⟨found ++ more, ?_, ?_⟩
    · rw [← List.append_assoc]
      exact hperm'.trans (hperm.append_right more)
    · rw [List.map_append]
      exact hsub.append hsub'

theorem subperm_visitHoles : ∀ holes : List (Span × List Token),
    ((visitHoles holes).map untagged).Subperm (templatesInHoles holes)
  | [] => by
    rw [visitHoles, templatesInHoles]
    exact .refl _
  | (_, tokens) :: rest => by
    rw [visitHoles, templatesInHoles, List.map_append]
    obtain ⟨found, hperm, hsub⟩ := adds_visitAll tokens {}
    exact ((hperm.map untagged).subperm.trans hsub).append (subperm_visitHoles rest)
end

end Visits

/-- The templates that the stand-in finds are placed, and of any two of them one follows the
other. -/
theorem regular_templates : HostParser.Regular templates? := by
  have hfound : ∀ {source : String} {tokens : List Token}, readTokens? source = some tokens →
      (∀ t ∈ (visitAll {} tokens).templates, t.Placed source) ∧
        (visitAll {} tokens).templates.Pairwise fun a b => b.Follows a ∨ a.Follows b := by
    intro source tokens htokens
    have hlaminar := laminar_of_readTokens? htokens
    obtain ⟨found, hperm, ordered, hordered, hsub⟩ := adds_visitAll tokens {}
    have hvisited : (visitAll {} tokens).templates.Perm found := hperm
    constructor
    · intro t ht
      have hmem : untagged t ∈ templatesIn tokens :=
        hsub.mem (hordered.mem_iff.mpr (List.mem_map_of_mem (hvisited.mem_iff.mp ht)))
      have hplaced := hlaminar.placed _ hmem
      exact ⟨hplaced.inOrder, hplaced.boundaries, hplaced.ends⟩
    · -- The order in which they begin is lost, so either of two may be the first one.
      have hnested : ordered.Pairwise fun a b => b.Follows a ∨ a.Follows b :=
        (hlaminar.nested.sublist hsub).imp .inl
      exact (List.pairwise_map.mp (hnested.perm hordered Or.symm)).perm hvisited.symm Or.symm
  constructor
  · intro fileName source found h
    obtain ⟨tokens, htokens, rfl⟩ := Option.map_eq_some_iff.mp h
    exact (hfound htokens).1
  · intro fileName source found h
    obtain ⟨tokens, htokens, rfl⟩ := Option.map_eq_some_iff.mp h
    exact (hfound htokens).2

end Standalone
end Inlay
