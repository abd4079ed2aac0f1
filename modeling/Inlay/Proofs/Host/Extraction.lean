import Inlay.Host.Literal
import Inlay.Proofs.Text.Bytes
import Inlay.Proofs.Text.Spans
import Mathlib.Data.List.Nodup

/-!
# Documents and their host file

A document mirrors its place in the host file byte by byte: `Document.Mirrors`.  Its parts fill
its place without a gap, so its text is as long as the place, and an offset and
the position that it stands for differ by the start of the place alone.

All that is asked of the parser of host files is that the texts of a template lie in order inside
it and on character boundaries: `TaggedTemplate.Placed`.  Then so do the texts of the literal that
it is, `Literal.Placed`, and the documents of any such literals mirror the file:
`documents_extracted`.  A gap that is no hole is left to the text around it, which keeps this so.
-/

namespace Inlay

/-! ## Mirrors -/

/-- What a part shows at a position of the host file: the byte that is there, or an
underscore. -/
def Part.byteAt (source : String) (position : Nat) : Part → Option UInt8
  | .text _ => (bytesOf source)[position]?
  | .hole _ => some 0x5F

/-- A document shows its place in the host file, and positions differ by the start of that
place. -/
structure Document.Mirrors (source : String) (d : Document) : Prop where
  tiles : Tiles d.location.start d.location.stop (d.parts.map Part.span)
  inside : d.location.start ≤ d.location.stop ∧ d.location.stop ≤ source.utf8ByteSize
  length : d.text.utf8ByteSize = d.location.length
  bytes : ∀ p ∈ d.parts, ∀ i, p.span.contains (d.toHost i) = true →
    (bytesOf d.text)[i]? = p.byteAt source (d.toHost i)
  toHost : ∀ i ≤ d.text.utf8ByteSize,
    d.location.touches (d.toHost i) = true ∧ d.ofHost (d.toHost i) = i
  ofHost : ∀ position, d.location.touches position = true →
    d.ofHost position ≤ d.text.utf8ByteSize ∧ d.toHost (d.ofHost position) = position

/-- Documents in the order of their places, whose holes have different numbers. -/
structure Extracted (source : String) (docs : List Document) : Prop where
  mirrors : ∀ d ∈ docs, d.Mirrors source
  sorted : docs.Pairwise fun a b => a.location.start ≤ b.location.start
  ids : ((docs.flatMap Document.holes).map (·.id)).Nodup

/-! ## Text from parts -/

/-- A text part holds what its span holds of the source. -/
def Part.IsOf (source : String) : Part → Prop
  | .text t => t.span.slice? source = some t.text
  | .hole _ => True

theorem flatMap_utf8EncodeChar_placeholder (n : Nat) :
    (placeholder n).flatMap String.utf8EncodeChar = List.replicate n 0x5F := by
  induction n with
  | zero => rfl
  | succ n ih =>
    rw [placeholder] at ih ⊢
    rw [List.replicate_succ, List.flatMap_cons, ih, List.replicate_succ]
    rfl

section Parts

variable {source : String} {p : Part} {location : Span}

/-- A part that is shown whole shows its bytes. -/
theorem bytes_shown (hp : p.IsOf source) :
    ((Document.shown p p.span).flatMap String.utf8EncodeChar).length = p.span.length ∧
      ∀ i < p.span.length, ((Document.shown p p.span).flatMap String.utf8EncodeChar)[i]? =
        p.byteAt source (p.span.start + i) := by
  cases p with
  | hole h =>
    rw [Document.shown, flatMap_utf8EncodeChar_placeholder, List.length_replicate]
    refine ⟨rfl, fun i hi => ?_⟩
    rw [List.getElem?_replicate, if_pos hi, Part.byteAt]
  | text t =>
    have hslice : t.span.slice? source = some t.text := hp
    obtain ⟨-, front, rest, -, -, hlength⟩ := Span.slice?_eq_some_iff.mp hslice
    rw [byteLength_toList] at hlength
    have hunshift : t.span.unshift t.span.start = { start := 0, stop := t.text.utf8ByteSize } := by
      rw [hlength, Span.unshift, Nat.sub_self]
    have hshown : Document.shown (.text t) t.span = t.text.toList := by
      rw [Document.shown, hunshift, slice?_whole]
    have hbytes : t.text.toList.flatMap String.utf8EncodeChar = bytesOf t.text := by
      rw [← bytesOf_ofList, String.ofList_toList]
    show ((Document.shown (.text t) t.span).flatMap _).length = t.span.length ∧
      ∀ i < t.span.length, ((Document.shown (.text t) t.span).flatMap _)[i]? = _
    rw [hshown]
    refine ⟨?_, fun i hi => ?_⟩
    · rw [length_flatMap_utf8EncodeChar, byteLength_toList, hlength]
      rfl
    · rw [hbytes]
      exact getElem?_bytesOf_slice? hslice hi

theorem overlap?_of_inside (hspan : p.span.start < p.span.stop)
    (hstart : location.start ≤ p.span.start) (hstop : p.span.stop ≤ location.stop) :
    p.span.overlap? location = some p.span := by
  have hoverlaps : p.span.overlaps location = true := by
    simp only [Span.overlaps, Bool.and_eq_true, decide_eq_true_eq]
    omega
  have hmax : max p.span.start location.start = p.span.start := by omega
  have hmin : min p.span.stop location.stop = p.span.stop := by omega
  rw [Span.overlap?, if_pos hoverlaps, hmax, hmin, Span.of, Nat.max_eq_right (Nat.le_of_lt hspan)]

/-- The text of parts that fill a place shows the bytes of the parts, in their order. -/
theorem bytes_textFrom {parts : List Part} {cursor : Nat}
    (h : Tiles cursor location.stop (parts.map Part.span)) (hstart : location.start ≤ cursor)
    (hparts : ∀ p ∈ parts, p.IsOf source) :
    ((Document.textFrom location cursor parts).flatMap String.utf8EncodeChar).length =
        location.stop - cursor ∧
      ∀ p ∈ parts, ∀ i, p.span.contains (cursor + i) = true →
        ((Document.textFrom location cursor parts).flatMap String.utf8EncodeChar)[i]? =
          p.byteAt source (cursor + i) := by
  induction parts generalizing cursor with
  | nil =>
    obtain rfl : cursor = location.stop := h
    exact ⟨(Nat.sub_self _).symm, List.forall_mem_nil _⟩
  | cons q rest ih =>
    obtain ⟨hq, hspan, hrest⟩ := h
    obtain ⟨hof, hofrest⟩ := List.forall_mem_cons.mp hparts
    have hinside := hrest.inOrder.le
    obtain ⟨hlength, hbytes⟩ := ih hrest (by omega) hofrest
    obtain ⟨hlengthq, hbytesq⟩ := bytes_shown hof
    have htext : Document.textFrom location cursor (q :: rest) =
        Document.shown q q.span ++ Document.textFrom location q.span.stop rest := by
      rw [Document.textFrom, overlap?_of_inside hspan (by omega) hinside]
      simp only [hq, Nat.sub_self, placeholder, List.replicate_zero, List.nil_append]
    have hsize : q.span.length = q.span.stop - q.span.start := rfl
    rw [htext, List.flatMap_append]
    refine ⟨?_, ?_⟩
    · rw [List.length_append, hlengthq, hlength]
      omega
    · intro p hp i hi
      have hcontains := Span.contains_iff.mp hi
      rcases List.mem_cons.mp hp with rfl | hp
      · have hlt : i < p.span.length := by omega
        rw [List.getElem?_append_left (by omega), hbytesq i hlt, hq]
      · -- Everything in a later part lies behind the bytes of the first one.
        have hbehind := hrest.inOrder.mem (List.mem_map_of_mem hp)
        have hshift : q.span.stop + (i - q.span.length) = cursor + i := by omega
        rw [List.getElem?_append_right (by omega), hlengthq, ← hshift]
        apply hbytes p hp
        rw [hshift]
        exact hi

/-- A document whose parts are those of its place mirrors it. -/
theorem Document.mirrors_of_tiles {d : Document}
    (h : Tiles d.location.start d.location.stop (d.parts.map Part.span))
    (hparts : ∀ p ∈ d.parts, p.IsOf source) (hstop : d.location.stop ≤ source.utf8ByteSize) :
    d.Mirrors source := by
  have hle := h.inOrder.le
  obtain ⟨hlength, hbytes⟩ := bytes_textFrom h (Nat.le_refl _) hparts
  have hsize : d.text.utf8ByteSize = d.location.stop - d.location.start := by
    rw [← byteLength_toList, Document.text, String.toList_ofList, ← length_flatMap_utf8EncodeChar]
    exact hlength
  refine ⟨h, ⟨hle, hstop⟩, hsize, ?_, ?_, ?_⟩
  · intro p hp i hi
    have hhost : d.toHost i = d.location.start + i := Nat.add_comm _ _
    rw [hhost] at hi ⊢
    rw [Document.text, bytesOf_ofList]
    exact hbytes p hp i hi
  · intro i hi
    have hhost : d.toHost i = i + d.location.start := rfl
    exact ⟨Span.touches_iff.mpr (by omega), d.ofHost_toHost i⟩
  · intro position hposition
    obtain ⟨hstart, hend⟩ := Span.touches_iff.mp hposition
    have hoffset : d.ofHost position = position - d.location.start := rfl
    exact ⟨by omega, Nat.sub_add_cancel hstart⟩

end Parts

/-! ## Documents of literals -/

namespace Literal

/-- The texts of a literal. -/
def texts (l : Literal) : List Span :=
  textsFrom l.location.stop l.location.start (l.gaps.map Prod.fst)

/-- The texts of a literal lie in order between its backticks and on character boundaries. -/
structure Placed (source : String) (l : Literal) : Prop where
  inOrder : InOrder l.location.start l.location.stop l.texts
  boundaries : ∀ t ∈ l.texts, IsBoundary source t.start ∧ IsBoundary source t.stop

theorem placed_iff {source : String} {l : Literal} :
    l.Placed source ↔ InOrder l.location.start l.location.stop l.texts ∧
      ∀ t ∈ l.texts, IsBoundary source t.start ∧ IsBoundary source t.stop :=
  ⟨fun h => ⟨h.inOrder, h.boundaries⟩, fun h => ⟨h.1, h.2⟩⟩

instance (source : String) (l : Literal) : Decidable (l.Placed source) :=
  decidable_of_iff _ placed_iff.symm

variable {source : String}

/-- A gap lies between two texts. -/
theorem gaps_of_textsFrom {stop cursor : Nat} {gaps : List Span}
    (h : InOrder cursor stop (textsFrom stop cursor gaps))
    (hb : ∀ t ∈ textsFrom stop cursor gaps, IsBoundary source t.start ∧ IsBoundary source t.stop) :
    InOrder cursor stop gaps ∧ IsBoundary source cursor ∧ IsBoundary source stop ∧
      ∀ g ∈ gaps, IsBoundary source g.start ∧ IsBoundary source g.stop := by
  induction gaps generalizing cursor with
  | nil =>
    obtain ⟨hcursor, hstop⟩ := hb _ List.mem_cons_self
    exact ⟨h.2.1, hcursor, hstop, List.forall_mem_nil _⟩
  | cons gap rest ih =>
    obtain ⟨-, hle, hrest⟩ := h
    obtain ⟨⟨hcursor, hgap⟩, hbrest⟩ := List.forall_mem_cons.mp hb
    have hordered : InOrder gap.stop stop (textsFrom stop gap.stop rest) := by
      cases rest with
      | nil => exact ⟨Nat.le_refl _, hrest.2⟩
      | cons next more => exact ⟨Nat.le_refl _, hrest.2⟩
    have hspan : gap.start ≤ gap.stop := by
      cases rest with
      | nil => exact hrest.1
      | cons next more => exact hrest.1
    obtain ⟨hin, hgapstop, hstop, hgaps⟩ := ih hordered hbrest
    exact ⟨⟨hle, hspan, hin⟩, hcursor, hstop, List.forall_mem_cons.mpr ⟨⟨hgap, hgapstop⟩, hgaps⟩⟩

/-- Between gaps that lie in order and on character boundaries, the texts do. -/
theorem texts_of_gaps {source : String} {stop cursor : Nat} {gaps : List Span}
    (h : InOrder cursor stop gaps) (hcursor : IsBoundary source cursor)
    (hstop : IsBoundary source stop)
    (hgaps : ∀ g ∈ gaps, IsBoundary source g.start ∧ IsBoundary source g.stop) :
    InOrder cursor stop (textsFrom stop cursor gaps) ∧
      ∀ t ∈ textsFrom stop cursor gaps, IsBoundary source t.start ∧ IsBoundary source t.stop := by
  induction gaps generalizing cursor with
  | nil =>
    exact ⟨⟨Nat.le_refl _, h, Nat.le_refl stop⟩, List.forall_mem_singleton.mpr ⟨hcursor, hstop⟩⟩
  | cons gap rest ih =>
    obtain ⟨hle, hspan, hrest⟩ := h
    obtain ⟨⟨hgapstart, hgapstop⟩, hgaps⟩ := List.forall_mem_cons.mp hgaps
    obtain ⟨hin, hb⟩ := ih hrest hgapstop hgaps
    exact ⟨⟨Nat.le_refl _, hle, hin.mono_left hspan⟩,
      List.forall_mem_cons.mpr ⟨⟨hcursor, hgapstart⟩, hb⟩⟩

/-- A hole holds a byte. -/
theorem lt_of_isHole {gap : Span} (h : isHole source gap = true) : gap.start < gap.stop := by
  rw [isHole] at h
  split at h
  · next inner hslice =>
    obtain ⟨piece, hpiece, hinner⟩ := Option.map_eq_some_iff.mp hslice
    obtain ⟨-, -, -, -, -, hlength⟩ := Span.slice?_eq_some_iff.mp hpiece
    have hpos := Char.utf8Size_pos '$'
    rw [hinner, byteLength_cons] at hlength
    omega
  · cases h

theorem textParts_spec {start stop : Nat} (hle : start ≤ stop) (hstart : IsBoundary source start)
    (hstop : IsBoundary source stop) :
    Tiles start stop ((textParts source start stop).map Part.span) ∧
      ∀ p ∈ textParts source start stop, p.IsOf source := by
  rw [textParts]
  split
  · next hlt =>
    have hof : Span.of start stop = { start := start, stop := stop } := by
      rw [Span.of, Nat.max_eq_right hle]
    obtain ⟨piece, hpiece⟩ := exists_slice? (r := { start := start, stop := stop }) hstart hstop hle
    refine ⟨?_, List.forall_mem_singleton.mpr ?_⟩
    · rw [hof]
      exact ⟨rfl, hlt, rfl⟩
    · rw [hof, Part.IsOf, Span.sliceD, hpiece]
      rfl
  · next hge => exact ⟨by rw [List.map_nil, Tiles]; omega, List.forall_mem_nil _⟩

/-- The parts of a literal fill it and are those of the source, when its gaps lie in order and on
character boundaries. -/
theorem partsFrom_spec {stop cursor : Nat} {gaps : List (Span × Code)}
    (h : InOrder cursor stop (gaps.map Prod.fst)) (hcursor : IsBoundary source cursor)
    (hstop : IsBoundary source stop) (hholes : ∀ g ∈ gaps, isHole source g.1 = true)
    (hgaps : ∀ g ∈ gaps, IsBoundary source g.1.start ∧ IsBoundary source g.1.stop) (next : Nat) :
    Tiles cursor stop ((partsFrom source stop cursor next gaps).map Part.span) ∧
      ∀ p ∈ partsFrom source stop cursor next gaps, p.IsOf source := by
  induction gaps generalizing cursor next with
  | nil => exact textParts_spec h hcursor hstop
  | cons gap rest ih =>
    obtain ⟨hle, -, hrest⟩ := h
    obtain ⟨hhole, hholes⟩ := List.forall_mem_cons.mp hholes
    obtain ⟨⟨hgapstart, hgapstop⟩, hgaps⟩ := List.forall_mem_cons.mp hgaps
    obtain ⟨htext, htextof⟩ := textParts_spec hle hcursor hgapstart
    obtain ⟨htiles, hof⟩ := ih hrest hgapstop hholes hgaps (next + 1)
    rw [partsFrom]
    refine ⟨?_, ?_⟩
    · rw [List.map_append]
      exact htext.append ⟨rfl, lt_of_isHole hhole, htiles⟩
    · exact List.forall_mem_append.mpr ⟨htextof, List.forall_mem_cons.mpr ⟨trivial, hof⟩⟩

theorem Placed.mirrors {l : Literal} (h : l.Placed source) (fileName : String) (next : Nat) :
    (l.toDocument fileName source next).Mirrors source := by
  obtain ⟨hin, hstart, hstop, hgaps⟩ := gaps_of_textsFrom h.inOrder h.boundaries
  have hsub : (l.holes source).Sublist l.gaps := List.filter_sublist
  obtain ⟨htiles, hof⟩ := partsFrom_spec (hin.sublist (hsub.map _)) hstart hstop
    (fun g hg => (List.mem_filter.mp hg).2)
    (fun g hg => hgaps g.1 (List.mem_map_of_mem (hsub.mem hg))) next
  exact Document.mirrors_of_tiles htiles hof hstop.le

/-! ## Numbers of holes -/

theorem ids_partsFrom (source : String) (stop cursor next : Nat)
    (gaps : List (Span × Code)) :
    (Document.holesOf (partsFrom source stop cursor next gaps)).map (·.id) =
      List.range' next gaps.length := by
  have htexts : ∀ start stop ps,
      Document.holesOf (textParts source start stop ++ ps) = Document.holesOf ps := by
    intro start stop ps
    rw [textParts]
    split <;> rfl
  induction gaps generalizing cursor next with
  | nil =>
    have hnone := htexts cursor stop []
    rw [List.append_nil] at hnone
    rw [partsFrom, hnone]
    rfl
  | cons gap rest ih =>
    rw [partsFrom, htexts, Document.holesOf, List.map_cons, ih, List.length_cons, List.range'_succ]

/-- The holes of a file are numbered on through its literals. -/
theorem ids_documentsFrom (fileName source : String) (next : Nat) (literals : List Literal) :
    ∃ count, ((documentsFrom fileName source next literals).flatMap Document.holes).map (·.id) =
      List.range' next count := by
  induction literals generalizing next with
  | nil => exact ⟨0, rfl⟩
  | cons l rest ih =>
    obtain ⟨count, hcount⟩ := ih (next + (l.holes source).length)
    refine ⟨(l.holes source).length + count, ?_⟩
    have hids : (l.toDocument fileName source next).holes.map (·.id) =
        List.range' next (l.holes source).length := ids_partsFrom _ _ _ _ _
    rw [documentsFrom, List.flatMap_cons, List.map_append, hids, hcount, List.range'_append_1]

theorem mirrors_documentsFrom {literals : List Literal} (h : ∀ l ∈ literals, l.Placed source)
    (fileName : String) (next : Nat) :
    ∀ d ∈ documentsFrom fileName source next literals, d.Mirrors source := by
  induction literals generalizing next with
  | nil => exact List.forall_mem_nil _
  | cons l rest ih =>
    obtain ⟨hl, hrest⟩ := List.forall_mem_cons.mp h
    exact List.forall_mem_cons.mpr ⟨hl.mirrors fileName next, ih hrest _⟩

/-- All documents of a file bear its name. -/
theorem fileName_documents (fileName source : String) (literals : List Literal) :
    ∀ d ∈ documents fileName source literals, d.fileName = fileName := by
  have hfrom : ∀ next, ∀ d ∈ documentsFrom fileName source next literals,
      d.fileName = fileName := by
    induction literals with
    | nil => exact fun _ => List.forall_mem_nil _
    | cons l rest ih => exact fun next => List.forall_mem_cons.mpr ⟨rfl, ih _⟩
  exact fun d hd => hfrom 0 d ((List.mergeSort_perm _ _).mem_iff.mp hd)

theorem extracted_documents {literals : List Literal} (h : ∀ l ∈ literals, l.Placed source)
    (fileName : String) : Extracted source (documents fileName source literals) := by
  have hperm : (documents fileName source literals).Perm (documentsFrom fileName source 0 literals) :=
    List.mergeSort_perm _ _
  refine ⟨?_, ?_, ?_⟩
  · intro d hd
    exact mirrors_documentsFrom h fileName 0 d (hperm.mem_iff.mp hd)
  · have hsorted : (documents fileName source literals).Pairwise fun a b =>
        decide (a.location.start ≤ b.location.start) = true := by
      refine List.pairwise_mergeSort (fun a b c hab hbc => ?_) (fun a b => ?_) _
      · simp only [decide_eq_true_eq] at hab hbc ⊢
        omega
      · simp only [Bool.or_eq_true, decide_eq_true_eq]
        omega
    exact hsorted.imp of_decide_eq_true
  · obtain ⟨count, hcount⟩ := ids_documentsFrom fileName source 0 literals
    have hids : (((documents fileName source literals).flatMap Document.holes).map (·.id)).Perm
        (List.range' 0 count) := by
      rw [← hcount]
      exact (hperm.flatMap_right _).map _
    exact hids.nodup_iff.mpr List.nodup_range'

end Literal

/-! ## Templates of a parser -/

namespace TaggedTemplate

variable {source : String} {t : TaggedTemplate}

/-- The texts of a template lie in order between its backticks and on character boundaries. -/
structure Placed (source : String) (t : TaggedTemplate) : Prop where
  inOrder : InOrder (t.span.start + 1) (t.span.stop - 1) t.texts
  boundaries : ∀ p ∈ t.texts, IsBoundary source p.start ∧ IsBoundary source p.stop
  ends : IsBoundary source (t.span.start + 1) ∧ IsBoundary source (t.span.stop - 1)

theorem placed_iff : t.Placed source ↔ InOrder (t.span.start + 1) (t.span.stop - 1) t.texts ∧
    (∀ p ∈ t.texts, IsBoundary source p.start ∧ IsBoundary source p.stop) ∧
      IsBoundary source (t.span.start + 1) ∧ IsBoundary source (t.span.stop - 1) :=
  ⟨fun h => ⟨h.inOrder, h.boundaries, h.ends⟩, fun h => ⟨h.1, h.2.1, h.2.2⟩⟩

instance (source : String) (t : TaggedTemplate) : Decidable (t.Placed source) :=
  decidable_of_iff _ placed_iff.symm

/-- From the end of a text to the start of the next one. -/
def between (texts : List Span) : List Span :=
  (texts.zip texts.tail).map fun (before, after) => Span.of before.stop after.start

/-- Between texts that lie in order and on character boundaries, the gaps do. -/
theorem between_spec {texts : List Span} {lo hi : Nat} (h : InOrder lo hi texts)
    (hb : ∀ p ∈ texts, IsBoundary source p.start ∧ IsBoundary source p.stop) :
    InOrder lo hi (between texts) ∧
      ∀ g ∈ between texts, IsBoundary source g.start ∧ IsBoundary source g.stop := by
  induction texts generalizing lo with
  | nil => exact ⟨h, List.forall_mem_nil _⟩
  | cons first rest ih =>
    cases rest with
    | nil =>
      obtain ⟨hlo, hfirst, hhi⟩ := h
      exact ⟨Nat.le_trans hlo (Nat.le_trans hfirst hhi), List.forall_mem_nil _⟩
    | cons second more =>
      obtain ⟨hlo, hfirst, hsecond, hspan, hmore⟩ := h
      obtain ⟨⟨-, hstop⟩, hrest⟩ := List.forall_mem_cons.mp hb
      obtain ⟨⟨hstart, -⟩, -⟩ := List.forall_mem_cons.mp hrest
      have hgap : Span.of first.stop second.start = ⟨first.stop, second.start⟩ := by
        rw [Span.of, Nat.max_eq_right hsecond]
      have hbetween : between (first :: second :: more) =
          ⟨first.stop, second.start⟩ :: between (second :: more) := by
        rw [← hgap]
        rfl
      have hrestIn : InOrder second.start hi (second :: more) := ⟨Nat.le_refl _, hspan, hmore⟩
      obtain ⟨hin, hgaps⟩ := ih hrestIn hrest
      rw [hbetween]
      exact ⟨⟨Nat.le_trans hlo hfirst, hsecond, hin⟩,
        List.forall_mem_cons.mpr ⟨⟨hstop, hstart⟩, hgaps⟩⟩

/-- There may be fewer expressions than gaps, so some gaps may be left to the text. -/
theorem gaps_sublist (t : TaggedTemplate) :
    (t.gaps.map Prod.fst).Sublist (between t.texts) := by
  have hzip : ∀ (codes : List Code) (pairs : List (Span × Span)),
      ((codes.zip pairs).map Prod.snd).Sublist pairs := by
    intro codes pairs
    induction codes generalizing pairs with
    | nil => exact List.nil_sublist pairs
    | cons code rest ih =>
      cases pairs with
      | nil => exact List.Sublist.refl []
      | cons pair more => exact (ih more).cons_cons pair
  have hgaps : t.gaps.map Prod.fst =
      ((t.expressions.zip (t.texts.zip t.texts.tail)).map Prod.snd).map
        fun (before, after) => Span.of before.stop after.start := by
    rw [gaps, List.map_map, List.map_map]
    rfl
  rw [hgaps]
  exact (hzip _ _).map _

/-- The literal that a template is with a tag of some dialect is placed when the template is. -/
theorem Placed.ofTemplate? (h : t.Placed source) {tags : LiteralTags} {l : Literal}
    (hl : Literal.ofTemplate? tags t = some l) : l.Placed source := by
  obtain ⟨dialect, -, rfl⟩ := Option.map_eq_some_iff.mp hl
  obtain ⟨hin, hb⟩ := between_spec h.inOrder h.boundaries
  have hlocation : Literal.location ⟨t.span, dialect, t.gaps⟩ =
      ⟨t.span.start + 1, t.span.stop - 1⟩ := by
    rw [Literal.location, Span.of, Nat.max_eq_right h.inOrder.le]
  obtain ⟨hordered, hboundaries⟩ := Literal.texts_of_gaps (hin.sublist t.gaps_sublist) h.ends.1
    h.ends.2 fun g hg => hb g (t.gaps_sublist.mem hg)
  constructor
  · rw [Literal.texts, hlocation]
    exact hordered
  · rw [Literal.texts, hlocation]
    exact hboundaries

end TaggedTemplate

/-- The templates of a parser are placed in every file. -/
def HostParser.Places (parse : HostParser) : Prop :=
  ∀ fileName source templates, parse fileName source = some templates →
    ∀ t ∈ templates, t.Placed source

theorem HostParser.Places.literals {parse : HostParser} (h : parse.Places)
    {fileName source : String} {templates : List TaggedTemplate}
    (hparse : parse fileName source = some templates) (tags : LiteralTags) :
    ∀ l ∈ templates.filterMap (Literal.ofTemplate? tags), l.Placed source := by
  intro l hl
  obtain ⟨t, ht, hof⟩ := List.mem_filterMap.mp hl
  exact (h fileName source templates hparse t ht).ofTemplate? hof

theorem HostParser.Places.extracted {parse : HostParser} (h : parse.Places)
    {fileName source : String} {tags : LiteralTags} {docs : List Document}
    (hdocs : documents? parse fileName source tags = some docs) : Extracted source docs := by
  obtain ⟨templates, htemplates, rfl⟩ := Option.map_eq_some_iff.mp hdocs
  exact Literal.extracted_documents (h.literals htemplates tags) fileName

/-- The documents of placed literals mirror their source, and so do those of every file in which a
parser finds placed templates. -/
theorem documents_extracted (fileName source : String) :
    (∀ literals : List Literal, (∀ l ∈ literals, l.Placed source) →
        Extracted source (Literal.documents fileName source literals)) ∧
      ∀ parse : HostParser, parse.Places → ∀ tags docs,
        documents? parse fileName source tags = some docs → Extracted source docs :=
  ⟨fun _ h => Literal.extracted_documents h fileName, fun _ h _ _ hdocs => h.extracted hdocs⟩

/-- A parser that knows one source. -/
def HostParser.ofSource (known : String) (templates : List TaggedTemplate) : HostParser :=
  fun _ source => if source = known then some templates else none

theorem HostParser.ofSource_known (known : String) (templates : List TaggedTemplate)
    (fileName : String) : ofSource known templates fileName known = some templates :=
  if_pos rfl

theorem HostParser.places_ofSource {known : String} {templates : List TaggedTemplate}
    (h : ∀ t ∈ templates, t.Placed known) : (ofSource known templates).Places := by
  intro fileName source found hfound
  rw [ofSource] at hfound
  split at hfound
  · next hsource =>
    rw [← Option.some.inj hfound, hsource]
    exact h
  · cases hfound

/-- Two adjacent holes behind a character of two bytes, and a literal inside the second. -/
def nestedSource : String := "html\x60é$\x7bx\x7d$\x7bhtml\x60<b>\x60\x7d\x60"

/-- The templates in it, the outer one first. -/
def nestedSourceTemplates : List TaggedTemplate :=
  [{ tag := .identifier ⟨0, 4⟩ "html", span := ⟨4, 24⟩
     texts := [⟨5, 7⟩, ⟨11, 11⟩, ⟨23, 23⟩]
     expressions := [.identifier ⟨9, 10⟩ "x", .other ⟨13, 22⟩] },
   { tag := .identifier ⟨13, 17⟩ "html", span := ⟨17, 22⟩, texts := [⟨18, 21⟩]
     expressions := [] }]

theorem documents_extracted_nestedSource :
    (∀ l ∈ nestedSourceTemplates.filterMap (Literal.ofTemplate? {}), l.Placed nestedSource) ∧
      Extracted nestedSource (Literal.documents "a.ts" nestedSource
        (nestedSourceTemplates.filterMap (Literal.ofTemplate? {}))) ∧
      (HostParser.ofSource nestedSource nestedSourceTemplates).Places ∧
      ∃ docs, documents? (.ofSource nestedSource nestedSourceTemplates) "a.ts" nestedSource {} =
        some docs ∧ docs.length = 2 ∧ Extracted nestedSource docs := by
  have hplaces : (HostParser.ofSource nestedSource nestedSourceTemplates).Places :=
    HostParser.places_ofSource (by decide +kernel)
  have hparse := HostParser.ofSource_known nestedSource nestedSourceTemplates "a.ts"
  have hplaced := hplaces.literals hparse {}
  have hdocs : documents? (.ofSource nestedSource nestedSourceTemplates) "a.ts" nestedSource {} =
      some (Literal.documents "a.ts" nestedSource
        (nestedSourceTemplates.filterMap (Literal.ofTemplate? {}))) := by
    rw [documents?, hparse, Option.map_some]
  exact ⟨hplaced, (documents_extracted "a.ts" nestedSource).1 _ hplaced, hplaces, _, hdocs,
    by rw [Literal.documents, List.length_mergeSort]; rfl,
    (documents_extracted "a.ts" nestedSource).2 _ hplaces {} _ hdocs⟩

end Inlay
