import Inlay.Proofs.Markup.TokenOrder

/-!
# The end of raw text

Raw text ends where the scanner, looking ahead, finds the end tag of its element.  The states
that read the tag then find the end of its name for themselves, and the two do not agree on a
slash: the look-ahead takes it for the end of a name, and the states read on, up to a
blank or a bracket.  `ownEndTag_iff` says exactly when the tag that is read is the one
that was found.

`emitted` and `stateAfter` cut a scan in two.  The lemmas on end tags below say what is emitted
on the way through one, and `ends_of_endsRawText` what the look-ahead has seen.
-/

namespace Inlay
namespace Markup

/-! ## Scans in parts -/

/-- The tokens that are complete behind the characters, with `after` behind them. -/
def emitted (s : State) (pos : Nat) (after : List Char) : List Char → List Token
  | [] => []
  | c :: cs =>
    let next := step s pos c (cs ++ after)
    next.2 ++ emitted next.1 (pos + c.utf8Size) after cs

theorem stateAfter_append (s : State) (pos : Nat) (after xs ys : List Char) :
    stateAfter s pos after (xs ++ ys) =
      stateAfter (stateAfter s pos (ys ++ after) xs) (pos + byteLength xs) after ys := by
  induction xs generalizing s pos with
  | nil => rfl
  | cons c xs ih =>
    rw [List.cons_append, stateAfter, ih, stateAfter, byteLength_cons, Nat.add_assoc,
      List.append_assoc]

theorem scan_append (s : State) (pos : Nat) (cs after : List Char) :
    scan s pos (cs ++ after) =
      emitted s pos after cs ++ scan (stateAfter s pos after cs) (pos + byteLength cs) after := by
  induction cs generalizing s pos with
  | nil => rfl
  | cons c cs ih =>
    rw [List.cons_append, scan, ih, emitted, stateAfter, byteLength_cons, Nat.add_assoc,
      List.append_assoc]

/-! ## Inside end tags -/

/-- A character that ends the name of an end tag where the states read it. -/
def endsEndTagName (c : Char) : Bool := c == '>' || isMarkupBlank c

section EndTag

variable {tag start stop pos : Nat} {c : Char} {cs after rest : List Char}

theorem step_endTagName_of_not_ends (h : endsEndTagName c = false) (rest : List Char) :
    step (.endTagName tag start) pos c rest = (.endTagName tag start, []) := by
  obtain ⟨hbracket, hblank⟩ := Bool.or_eq_false_iff.mp h
  rw [step, inEndTagName, hbracket, hblank]
  rfl

theorem step_afterEndTagName_of_ne (h : c ≠ '>') (rest : List Char) :
    step (.afterEndTagName tag start stop) pos c rest = (.afterEndTagName tag start stop, []) := by
  rw [step, inAfterEndTagName, beq_eq_false_iff_ne.mpr h]
  rfl

/-- A text that ends inside an end tag ends with that mistake. -/
theorem scan_afterEndTagName_of_not_mem (h : '>' ∉ cs) :
    scan (.afterEndTagName tag start stop) pos cs =
      [.mistake .endInTag (pos + byteLength cs), .finish] := by
  induction cs generalizing pos with
  | nil => rfl
  | cons c cs ih =>
    rw [List.mem_cons, not_or] at h
    rw [scan, step_afterEndTagName_of_ne (Ne.symm h.1), byteLength_cons, ← Nat.add_assoc]
    exact ih h.2

theorem scan_endTagName_of_not_mem (h : '>' ∉ cs) :
    scan (.endTagName tag start) pos cs =
      [.mistake .endInTag (pos + byteLength cs), .finish] := by
  induction cs generalizing pos with
  | nil => rfl
  | cons c cs ih =>
    rw [List.mem_cons, not_or] at h
    rw [scan, step, inEndTagName, beq_eq_false_iff_ne.mpr (Ne.symm h.1), byteLength_cons,
      ← Nat.add_assoc]
    cases isMarkupBlank c with
    | true => exact scan_afterEndTagName_of_not_mem h.2
    | false => exact ih h.2

/-- The end tag that the states read when a bracket is ahead: the name goes as far as a
character that ends it. -/
theorem exists_endTag (h : '>' ∈ cs) : ∃ more skipped rest,
    cs = more ++ skipped ++ '>' :: rest ∧ (∀ c ∈ more, endsEndTagName c = false) ∧
      (skipped = [] ∨ ∃ c skip, skipped = c :: skip ∧ isMarkupBlank c = true) ∧ '>' ∉ skipped := by
  induction cs with
  | nil => exact absurd h List.not_mem_nil
  | cons c cs ih =>
    by_cases hbracket : c = '>'
    · exact ⟨[], [], cs, by rw [hbracket]; rfl, List.forall_mem_nil _, .inl rfl, List.not_mem_nil⟩
    · have hmem : '>' ∈ cs := (List.mem_cons.mp h).resolve_left (Ne.symm hbracket)
      cases hblank : isMarkupBlank c with
      | true =>
        obtain ⟨front, rest, rfl, hfront⟩ := List.eq_append_cons_of_mem hmem
        refine ⟨[], c :: front, rest, rfl, List.forall_mem_nil _, .inr ⟨c, front, rfl, hblank⟩, ?_⟩
        rw [List.mem_cons, not_or]
        exact ⟨Ne.symm hbracket, hfront⟩
      | false =>
        obtain ⟨more, skipped, rest, rfl, hmore, hskipped⟩ := ih hmem
        have hc : endsEndTagName c = false := by
          rw [endsEndTagName, hblank, beq_eq_false_iff_ne.mpr hbracket]
          rfl
        exact ⟨c :: more, skipped, rest, rfl, List.forall_mem_cons.mpr ⟨hc, hmore⟩, hskipped⟩

theorem stateAfter_afterEndTagName (tag start stop pos : Nat) (after : List Char)
    {skipped : List Char} (h : '>' ∉ skipped) :
    stateAfter (.afterEndTagName tag start stop) pos after (skipped ++ ['>']) =
        .text (pos + byteLength skipped + 1) ∧
      emitted (.afterEndTagName tag start stop) pos after (skipped ++ ['>']) =
        [.close tag start stop (pos + byteLength skipped + 1)] := by
  induction skipped generalizing pos with
  | nil => exact ⟨rfl, rfl⟩
  | cons c skipped ih =>
    rw [List.mem_cons, not_or] at h
    obtain ⟨hstate, hemitted⟩ := ih (pos + c.utf8Size) h.2
    rw [List.cons_append, stateAfter, emitted, step_afterEndTagName_of_ne (Ne.symm h.1), hstate,
      hemitted, byteLength_cons, ← Nat.add_assoc]
    exact ⟨rfl, rfl⟩

/-- The states read an end tag up to its bracket. -/
theorem stateAfter_endTagName (tag start pos : Nat) (after : List Char) {name skipped : List Char}
    (hname : ∀ c ∈ name, endsEndTagName c = false)
    (hskipped : skipped = [] ∨ ∃ c skip, skipped = c :: skip ∧ isMarkupBlank c = true)
    (hbracket : '>' ∉ skipped) :
    stateAfter (.endTagName tag start) pos after (name ++ (skipped ++ ['>'])) =
        .text (pos + byteLength (name ++ skipped) + 1) ∧
      emitted (.endTagName tag start) pos after (name ++ (skipped ++ ['>'])) =
        [.close tag start (pos + byteLength name) (pos + byteLength (name ++ skipped) + 1)] := by
  induction name generalizing pos with
  | nil =>
    rcases hskipped with rfl | ⟨c, skip, rfl, hblank⟩
    · exact ⟨rfl, rfl⟩
    · rw [List.mem_cons, not_or] at hbracket
      have hc : (c == '>') = false := beq_eq_false_iff_ne.mpr (Ne.symm hbracket.1)
      obtain ⟨hstate, hemitted⟩ :=
        stateAfter_afterEndTagName tag start pos (pos + c.utf8Size) after hbracket.2
      rw [List.nil_append, List.cons_append, stateAfter, emitted, step, inEndTagName, hc, hblank,
        List.nil_append, byteLength_cons, ← Nat.add_assoc]
      exact ⟨hstate, hemitted⟩
  | cons c name ih =>
    obtain ⟨hc, hname⟩ := List.forall_mem_cons.mp hname
    obtain ⟨hstate, hemitted⟩ := ih (pos + c.utf8Size) hname
    rw [List.cons_append, List.cons_append, stateAfter, emitted, step_endTagName_of_not_ends hc,
      hstate, hemitted, byteLength_cons, byteLength_cons, ← Nat.add_assoc, ← Nat.add_assoc]
    exact ⟨rfl, rfl⟩

end EndTag

/-! ## The look-ahead -/

/-- A slash stands directly behind the name of an end tag, and a bracket somewhere behind it.  The
end tag that is read then has a longer name. -/
def GoesOn (name rest : List Char) : Prop :=
  ∃ cs more, rest = '/' :: (cs ++ '/' :: more) ∧ cs.length = name.length ∧ '>' ∈ more

section Ahead

variable {name cs more rest front : List Char} {pos : Nat}

theorem lowerChar_of_endsName {c : Char} (h : endsName c = true) : lowerChar c = c := by
  simp only [endsName, isMarkupBlank, Bool.or_eq_true, beq_iff_eq] at h
  rcases h with (rfl | rfl) | ((((rfl | rfl) | rfl) | rfl) | rfl) <;> decide

/-- The name of an element of raw text, in any case, is not empty and has no character that
ends a name. -/
theorem name_of_isRawTextTag (hraw : isRawTextTag (String.ofList name) = true)
    (hlower : cs.map lowerChar = name.map lowerChar) : cs ≠ [] ∧ ∀ c ∈ cs, endsName c = false := by
  have hplain : ∀ tag ∈ rawTextTags,
      tag.toList ≠ [] ∧ tag.toList.all (fun c => !endsName c) = true := by decide
  have htag := hplain _ (List.contains_iff_mem.mp hraw)
  rw [lowerName, String.toList_ofList, String.toList_ofList, ← hlower] at htag
  obtain ⟨hne, hchars⟩ := htag
  refine ⟨fun h => hne (by rw [h, List.map_nil]), fun c hc => Bool.eq_false_iff.mpr fun hends => ?_⟩
  have hlow := List.all_eq_true.mp hchars (lowerChar c) (List.mem_map_of_mem hc)
  rw [lowerChar_of_endsName hends, hends] at hlow
  exact Bool.noConfusion hlow

/-- What the look-ahead has found: an end tag with the name, and behind the name its end or the
end of the text. -/
theorem exists_of_endsRawText (h : endsRawText name rest = true) : ∃ cs more,
    rest = '/' :: (cs ++ more) ∧ cs.map lowerChar = name.map lowerChar ∧
      (more = [] ∨ ∃ c m, more = c :: m ∧ endsName c = true) := by
  rw [endsRawText.eq_def] at h
  split at h
  · next _ cs =>
    rw [Bool.and_eq_true, beq_iff_eq] at h
    refine ⟨cs.take name.length, cs.drop name.length, ?_, h.1, ?_⟩
    · rw [List.take_append_drop]
    · have hmore := h.2
      split at hmore
      · next hnil => exact .inl hnil
      · next c m hcons => exact .inr ⟨c, m, hcons, hmore⟩
  · exact absurd h Bool.false_ne_true

theorem endsEndTagName_of_not_endsName {c : Char} (h : endsName c = false) :
    endsEndTagName c = false := by
  rw [endsName, Bool.or_eq_false_iff, Bool.or_eq_false_iff] at h
  rw [endsEndTagName, h.1.2, h.2]
  rfl

theorem goesOn_iff (hlength : cs.length = name.length) (more : List Char) :
    GoesOn name ('/' :: (cs ++ more)) ↔ ∃ m, more = '/' :: m ∧ '>' ∈ m := by
  constructor
  · rintro ⟨cs', m, hsplit, hlength', hmem⟩
    obtain ⟨rfl, rfl⟩ := List.append_inj (List.cons.inj hsplit).2 (hlength.trans hlength'.symm)
    exact ⟨m, rfl, hmem⟩
  · rintro ⟨m, rfl, hmem⟩
    exact ⟨cs, m, rfl, hlength, hmem⟩

theorem sliceD_of_toList {text : String} {piece behind : List Char}
    (htext : text.toList = front ++ (piece ++ behind)) :
    (Span.of (byteLength front) (byteLength front + byteLength piece)).sliceD text =
      String.ofList piece := by
  have hslice : (Span.of (byteLength front) (byteLength front + byteLength piece)).slice? text =
      some (String.ofList piece) := by
    refine Span.slice?_eq_some_iff.mpr ⟨Nat.le_max_left _ _, front, behind, ?_, rfl, ?_⟩
    · rw [htext, String.toList_ofList, List.append_assoc]
    · rw [String.toList_ofList]
      show byteLength piece = max _ _ - byteLength front
      omega
  rw [Span.sliceD, hslice, Option.getD_some]

/-- The name that the states read is the one found unless more of it comes. -/
theorem sameName_ofList_append_iff (hlower : cs.map lowerChar = name.map lowerChar)
    (more : List Char) :
    sameName (String.ofList (cs ++ more)) (String.ofList name) = true ↔ more = [] := by
  rw [sameName_iff, lowerName, lowerName, String.toList_ofList, String.toList_ofList,
    String.ofList_inj, List.map_append, hlower, List.append_right_eq_self, List.map_eq_nil_iff]

/-- More of the name comes when a slash is where the look-ahead has found its end. -/
theorem eq_nil_iff_not_slash {skipped behind : List Char}
    (hmore : ∃ c m, cs ++ skipped ++ '>' :: behind = c :: m ∧ endsName c = true)
    (hcs : ∀ c ∈ cs, endsEndTagName c = false)
    (hskipped : skipped = [] ∨ ∃ c skip, skipped = c :: skip ∧ isMarkupBlank c = true) :
    cs = [] ↔ ¬ ∃ m, cs ++ skipped ++ '>' :: behind = '/' :: m ∧ '>' ∈ m := by
  constructor
  · rintro rfl ⟨m, hslash, -⟩
    rcases hskipped with rfl | ⟨c, skip, rfl, hblank⟩
    · exact absurd (List.cons.inj hslash).1 (by decide)
    · rw [(List.cons.inj hslash).1] at hblank
      exact absurd hblank (by decide)
  · intro hslash
    cases cs with
    | nil => rfl
    | cons x cs =>
      obtain ⟨c, m, heq, hends⟩ := hmore
      obtain ⟨rfl, -⟩ := List.cons.inj heq
      obtain ⟨hbracket, hblank⟩ := Bool.or_eq_false_iff.mp (hcs x List.mem_cons_self)
      rw [endsName, hbracket, hblank, Bool.or_false, Bool.or_false, beq_iff_eq] at hends
      subst hends
      refine absurd ⟨cs ++ skipped ++ '>' :: behind, rfl, ?_⟩ hslash
      exact List.mem_append_right _ List.mem_cons_self

theorem step_endTagOpen {c : Char} (h : endsEndTagName c = false) (tag pos : Nat)
    (rest : List Char) : step (.endTagOpen tag) pos c rest = (.endTagName tag pos, []) := by
  obtain ⟨hbracket, hblank⟩ := Bool.or_eq_false_iff.mp h
  rw [step, inEndTagOpen, hbracket, hblank]
  rfl

/-- The states read an end tag from its slash on. -/
theorem stateAfter_slash {x : Char} (hx : endsEndTagName x = false) (pos : Nat)
    (behind : List Char) {skipped : List Char} (hcs : ∀ c ∈ cs, endsEndTagName c = false)
    (hskipped : skipped = [] ∨ ∃ c skip, skipped = c :: skip ∧ isMarkupBlank c = true)
    (hbracket : '>' ∉ skipped) :
    stateAfter (.tagOpen pos) (pos + 1) behind ('/' :: x :: (cs ++ (skipped ++ ['>']))) =
        .text (pos + 2 + byteLength (x :: cs ++ skipped) + 1) ∧
      emitted (.tagOpen pos) (pos + 1) behind ('/' :: x :: (cs ++ (skipped ++ ['>']))) =
        [.close pos (pos + 2) (pos + 2 + byteLength (x :: cs))
          (pos + 2 + byteLength (x :: cs ++ skipped) + 1)] := by
  obtain ⟨hstate, hemitted⟩ := stateAfter_endTagName pos (pos + 2) (pos + 2 + x.utf8Size) behind
    hcs hskipped hbracket
  rw [List.cons_append, byteLength_cons, byteLength_cons, ← Nat.add_assoc, ← Nat.add_assoc]
  constructor
  · show stateAfter (.endTagOpen pos) (pos + 2) behind (x :: _) = _
    rw [stateAfter, step_endTagOpen hx]
    exact hstate
  · show emitted (.endTagOpen pos) (pos + 2) behind (x :: _) = _
    rw [emitted, step_endTagOpen hx]
    exact hemitted

theorem scan_slash_of_not_mem {x : Char} (hx : endsEndTagName x = false) (pos : Nat)
    (h : '>' ∉ cs) : ∃ index,
    scan (.tagOpen pos) (pos + 1) ('/' :: x :: cs) = [.mistake .endInTag index, .finish] := by
  refine ⟨pos + 2 + x.utf8Size + byteLength cs, ?_⟩
  show scan (.endTagOpen pos) (pos + 2) (x :: cs) = _
  rw [scan, step_endTagOpen hx]
  exact scan_endTagName_of_not_mem h

/-- The name of an end tag stands behind its bracket and its slash. -/
theorem sliceD_endTag {text : String} {piece behind : List Char}
    (htext : text.toList = front ++ '<' :: '/' :: (piece ++ behind))
    (hpos : byteLength front = pos) :
    (Span.of (pos + 2) (pos + 2 + byteLength piece)).sliceD text = String.ofList piece := by
  have hsplit : text.toList = (front ++ ['<', '/']) ++ (piece ++ behind) := by
    rw [htext, List.append_assoc]
    rfl
  have hfront : byteLength (front ++ ['<', '/']) = pos + 2 := by
    rw [byteLength_append, hpos]
    rfl
  rw [← hfront]
  exact sliceD_of_toList hsplit

/-- How the scanner goes on behind the bracket where it leaves raw text: the text ends inside the
end tag, or an end tag is read, and it has the name that the look-ahead has found unless
that goes on. -/
theorem scan_of_endsRawText {text : String} (hraw : isRawTextTag (String.ofList name) = true)
    (htext : text.toList = front ++ '<' :: rest) (hpos : byteLength front = pos)
    (h : endsRawText name rest = true) :
    (¬ GoesOn name rest ∧
      ∃ index, scan (.tagOpen pos) (pos + 1) rest = [.mistake .endInTag index, .finish]) ∨
    ∃ mid behind nameStop stop, rest = mid ++ behind ∧ stop = pos + 1 + byteLength mid ∧
      stateAfter (.tagOpen pos) (pos + 1) behind mid = .text stop ∧
      emitted (.tagOpen pos) (pos + 1) behind mid = [.close pos (pos + 2) nameStop stop] ∧
      (sameName ((Span.of (pos + 2) nameStop).sliceD text) (String.ofList name) = true ↔
        ¬ GoesOn name rest) := by
  obtain ⟨cs, more, rfl, hlower, hmore⟩ := exists_of_endsRawText h
  obtain ⟨hne, hchars⟩ := name_of_isRawTextTag hraw hlower
  have hlength : cs.length = name.length := by
    have hmap := congrArg List.length hlower
    rwa [List.length_map, List.length_map] at hmap
  rw [goesOn_iff hlength]
  have hcs : ∀ c ∈ cs, endsEndTagName c = false := fun c hc =>
    endsEndTagName_of_not_endsName (hchars c hc)
  cases cs with
  | nil => exact absurd rfl hne
  | cons x cs =>
    obtain ⟨hx, hcs⟩ := List.forall_mem_cons.mp hcs
    by_cases hbracket : '>' ∈ more
    · right
      obtain ⟨m, skipped, behind, rfl, hm, hskipped, hnot⟩ := exists_endTag hbracket
      have hends := hmore.resolve_left (List.append_ne_nil_of_right_ne_nil _ (List.cons_ne_nil _ _))
      obtain ⟨hstate, hemitted⟩ := stateAfter_slash hx pos behind
        (List.forall_mem_append.mpr ⟨hcs, hm⟩) hskipped hnot
      refine ⟨_, behind, _, _, ?_, ?_, hstate, hemitted, ?_⟩
      · simp only [List.append_assoc, List.cons_append, List.nil_append]
      · have hslash : '/'.utf8Size = 1 := rfl
        have hclosing : '>'.utf8Size = 1 := rfl
        simp only [byteLength_cons, byteLength_append, byteLength_nil, hslash, hclosing]
        omega
      · have hsplit : text.toList =
            front ++ '<' :: '/' :: ((x :: cs ++ m) ++ (skipped ++ '>' :: behind)) := by
          rw [htext]
          simp only [List.append_assoc, List.cons_append]
        rw [← List.cons_append, sliceD_endTag hsplit hpos, sameName_ofList_append_iff hlower]
        exact eq_nil_iff_not_slash hends hm hskipped
    · left
      have hmem : '>' ∉ cs ++ more := by
        rw [List.mem_append, not_or]
        exact ⟨fun hc => Bool.noConfusion (hcs '>' hc), hbracket⟩
      refine ⟨?_, scan_slash_of_not_mem hx pos hmem⟩
      rintro ⟨m, rfl, hm⟩
      exact hbracket (List.mem_cons_of_mem _ hm)

end Ahead

/-! ## Where raw text ends -/

/-- Raw text is read only in an element of raw text. -/
def State.RawNamed (s : State) : Prop :=
  ∀ name start, s = .rawText name start → isRawTextTag (String.ofList name) = true

theorem rawNamed_content (name : List Char) (start : Nat) : (content name start).RawNamed := by
  intro name' start' h
  rw [content] at h
  split at h
  · next hraw =>
    obtain ⟨rfl, -⟩ := State.rawText.inj h
    exact hraw
  · exact absurd h (by simp)

theorem State.RawNamed.step {s : State} (h : s.RawNamed) (pos : Nat) (c : Char)
    (rest : List Char) : (step s pos c rest).1.RawNamed := by
  have hcontent := fun name => rawNamed_content name (pos + 1)
  unfold State.RawNamed at *
  cases s with
  | comment start =>
    intro name start' heq
    rw [Markup.step, inComment.eq_def] at heq
    split at heq <;> exact absurd heq (by simp)
  | _ =>
    simp only [Markup.step]
    grind [inText, inTagOpen, inBeforeAttribute, thenBeforeAttribute, inTagName, inSelfClosing,
      inEndTagOpen, inEndTagName, inAfterEndTagName, inAfterAttribute, inAttributeName, inUnquoted,
      inBeforeValue, inDeclaration, inRawText]

theorem State.RawNamed.stateAfter {s : State} (h : s.RawNamed) (pos : Nat) (after cs : List Char) :
    (stateAfter s pos after cs).RawNamed := by
  induction cs generalizing s pos with
  | nil => exact h
  | cons c cs ih => exact ih (h.step pos c _) _

/-- In front of `c` the scanner is in the raw text of an element of a name, and behind it
no more. -/
structure LeavesRawText (text : String) (name front : List Char) (c : Char) (rest : List Char) :
    Prop where
  split : text.toList = front ++ c :: rest
  inside : ∃ start, stateAfter (.text 0) 0 (c :: rest) front = .rawText name start
  outside : ∀ name' start, stateAfter (.text 0) 0 rest (front ++ [c]) ≠ .rawText name' start

/-- The tokens of a text that are not complete behind its first characters. -/
def tokensBehind (front rest : List Char) : List Token :=
  scan (stateAfter (.text 0) 0 rest front) (byteLength front) rest

/-- The next token is the end tag of an element of a name, or the text ends inside the tag. -/
inductive OwnEndTag (text : String) (name : List Char) : List Token → Prop
  | close {start nameStart nameStop stop : Nat} {behind : List Token} :
      sameName ((Span.of nameStart nameStop).sliceD text) (String.ofList name) = true →
      OwnEndTag text name (.close start nameStart nameStop stop :: behind)
  | endInTag {index : Nat} : OwnEndTag text name [.mistake .endInTag index, .finish]

section Leaving

variable {text : String} {name front rest : List Char} {c : Char}

theorem tokens_eq_append (h : text.toList = front ++ rest) :
    tokens text = emitted (.text 0) 0 rest front ++ tokensBehind front rest := by
  rw [tokens, h, scan_append, Nat.zero_add, tokensBehind]

theorem LeavesRawText.isRawTextTag (h : LeavesRawText text name front c rest) :
    isRawTextTag (String.ofList name) = true := by
  have hstart : (State.text 0).RawNamed := fun _ _ heq => State.noConfusion heq
  obtain ⟨start, hinside⟩ := h.inside
  exact hstart.stateAfter 0 (c :: rest) front name start hinside

/-- Behind one more character the state is that behind one more step. -/
theorem stateAfter_concat (front : List Char) (c : Char) (rest : List Char) :
    stateAfter (.text 0) 0 rest (front ++ [c]) =
      (step (stateAfter (.text 0) 0 (c :: rest) front) (byteLength front) c rest).1 := by
  rw [stateAfter_append, Nat.zero_add]
  rfl

/-- Raw text is left only where the look-ahead has found the end tag. -/
theorem LeavesRawText.ahead (h : LeavesRawText text name front c rest) :
    c = '<' ∧ endsRawText name rest = true ∧
      stateAfter (.text 0) 0 rest (front ++ [c]) = .tagOpen (byteLength front) := by
  obtain ⟨start, hinside⟩ := h.inside
  have houtside := h.outside
  rw [stateAfter_concat, hinside, step, inRawText] at houtside ⊢
  split at houtside
  · next hahead =>
    obtain ⟨hc, hends⟩ := (Bool.and_eq_true _ _).mp hahead
    rw [if_pos hahead]
    exact ⟨beq_iff_eq.mp hc, hends, rfl⟩
  · exact absurd rfl (houtside name start)

/-- The end tag that is read behind raw text is that of its element, unless the name in the
tag goes on behind a slash. -/
theorem LeavesRawText.ownEndTag_iff (h : LeavesRawText text name front c rest) :
    OwnEndTag text name (tokensBehind (front ++ [c]) rest) ↔ ¬ GoesOn name rest := by
  have hsplit := h.split
  obtain ⟨rfl, hends, hstate⟩ := h.ahead
  have hpos : byteLength (front ++ ['<']) = byteLength front + 1 := byteLength_append front ['<']
  rw [tokensBehind, hstate, hpos]
  rcases scan_of_endsRawText h.isRawTextTag hsplit rfl hends with
    ⟨hnot, index, hscan⟩ | ⟨mid, behind, nameStop, stop, rfl, -, -, hemitted, hname⟩
  · rw [hscan]
    exact iff_of_true .endInTag hnot
  · rw [scan_append, hemitted, List.singleton_append, ← hname]
    constructor
    · rintro ⟨hsame⟩
      exact hsame
    · exact .close

end Leaving

end Markup
end Inlay
