import Inlay.Proofs.Host.Extraction

/-!
# Nested literals

Two template literals of a source lie apart, or one lies in a hole of the other.  A parser that
finds them so is `HostParser.Regular`, and then the documents of a source are nested in the same
way: of the documents that touch one position, listed by their places, each lies inside the one
before it.
-/

namespace Inlay

namespace TaggedTemplate

def Before (a b : TaggedTemplate) : Prop := a.span.stop ≤ b.span.start

def InHole (inner outer : TaggedTemplate) : Prop :=
  ∃ gap ∈ outer.gaps, gap.1.start < inner.span.start ∧ inner.span.stop < gap.1.stop

/-- One template comes behind another one, or lies in a hole of it. -/
def Follows (b a : TaggedTemplate) : Prop := a.Before b ∨ b.InHole a

end TaggedTemplate

/-- The templates of a parser are placed, and of any two of a file one follows the other. -/
structure HostParser.Regular (parse : HostParser) : Prop where
  places : parse.Places
  nested : ∀ fileName source templates, parse fileName source = some templates →
    templates.Pairwise fun a b => b.Follows a ∨ a.Follows b

theorem HostParser.regular_ofSource {known : String} {templates : List TaggedTemplate}
    (hplaced : ∀ t ∈ templates, t.Placed known)
    (hnested : templates.Pairwise fun a b => b.Follows a ∨ a.Follows b) :
    (ofSource known templates).Regular := by
  refine ⟨places_ofSource hplaced, fun fileName source found hfound => ?_⟩
  rw [ofSource] at hfound
  split at hfound
  · rw [← Option.some.inj hfound]
    exact hnested
  · cases hfound

/-- A span begins behind another one, or lies inside it and touches neither of its ends. -/
def Span.Follows (b a : Span) : Prop :=
  a.stop < b.start ∨ a.start < b.start ∧ b.stop < a.stop

namespace Literal

variable {source : String} {tags : LiteralTags} {a b : TaggedTemplate} {l m : Literal}

/-- Literals follow each other as their templates do. -/
theorem follows_ofTemplate? (ha : a.Placed source) (hb : b.Placed source) (h : b.Follows a)
    (hl : ofTemplate? tags a = some l) (hm : ofTemplate? tags b = some m) :
    m.location.Follows l.location := by
  have hlocation : ∀ {t : TaggedTemplate} {l : Literal}, t.Placed source →
      ofTemplate? tags t = some l →
        l.location = ⟨t.span.start + 1, t.span.stop - 1⟩ ∧ t.span.start + 1 ≤ t.span.stop - 1 := by
    intro t l ht hl
    obtain ⟨dialect, -, rfl⟩ := Option.map_eq_some_iff.mp hl
    have hle := ht.inOrder.le
    exact ⟨by rw [location, Span.of, Nat.max_eq_right hle], hle⟩
  obtain ⟨hla, hlea⟩ := hlocation ha hl
  obtain ⟨hlb, hleb⟩ := hlocation hb hm
  rw [hla, hlb]
  rcases h with hbefore | ⟨gap, hgap, hlo, hhi⟩
  · have hbefore : a.span.stop ≤ b.span.start := hbefore
    exact .inl (by show a.span.stop - 1 < b.span.start + 1; omega)
  · -- The gaps lie between the backticks.
    have hin := (TaggedTemplate.between_spec ha.inOrder ha.boundaries).1.sublist a.gaps_sublist
    obtain ⟨hstart, -, hstop⟩ := hin.mem (List.mem_map_of_mem hgap)
    refine .inr ⟨?_, ?_⟩
    · show a.span.start + 1 < b.span.start + 1
      omega
    · show b.span.stop - 1 < a.span.stop - 1
      omega

theorem map_location_documentsFrom (fileName source : String) (next : Nat)
    (literals : List Literal) :
    (documentsFrom fileName source next literals).map Document.location =
      literals.map location := by
  induction literals generalizing next with
  | nil => rfl
  | cons l rest ih =>
    rw [documentsFrom, List.map_cons, List.map_cons, ih]
    rfl

end Literal

/-- The documents of a source are nested: each one begins behind an earlier one or lies inside
it. -/
theorem documents_nested {parse : HostParser} (hparse : parse.Regular) {fileName source : String}
    {tags : LiteralTags} {docs : List Document}
    (h : documents? parse fileName source tags = some docs) :
    docs.Pairwise fun a b => b.location.Follows a.location := by
  obtain ⟨templates, htemplates, rfl⟩ := Option.map_eq_some_iff.mp h
  have hplaced := hparse.places fileName source templates htemplates
  have hextracted :=
    Literal.extracted_documents (hparse.places.literals htemplates tags) fileName
  generalize hliterals : templates.filterMap (Literal.ofTemplate? tags) = literals at hextracted ⊢
  have hnested : literals.Pairwise fun a b =>
      b.location.Follows a.location ∨ a.location.Follows b.location := by
    rw [← hliterals]
    refine List.pairwise_filterMap.mpr
      ((hparse.nested fileName source templates htemplates).imp_of_mem ?_)
    intro a b ha hb hab l hl m hm
    exact hab.imp
      (fun h => Literal.follows_ofTemplate? (hplaced a ha) (hplaced b hb) h hl hm)
      (fun h => Literal.follows_ofTemplate? (hplaced b hb) (hplaced a ha) h hm hl)
  have hperm := List.mergeSort_perm (Literal.documentsFrom fileName source 0 literals)
    fun a b => a.location.start ≤ b.location.start
  have hlocations : (literals.map Literal.location).Pairwise fun a b =>
      b.Follows a ∨ a.Follows b := List.pairwise_map.mpr hnested
  rw [← Literal.map_location_documentsFrom fileName source 0] at hlocations
  have hdocuments := (List.pairwise_map.mp hlocations).perm hperm.symm Or.symm
  -- The order by place tells which of two documents follows the other.
  refine (hextracted.sorted.and hdocuments).imp_of_mem fun {a b} ha hb hab => ?_
  obtain ⟨hstart, hfollows | hfollows⟩ := hab
  · exact hfollows
  · have hinside := (hextracted.mirrors b hb).inside
    rcases hfollows with hlt | ⟨hlt, -⟩
    · omega
    · omega

end Inlay
