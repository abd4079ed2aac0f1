import Inlay.Markup.Tree
import Inlay.Proofs.Document.Stretch
import Inlay.Proofs.Markup.TokenOrder

/-!
# Tokens of documents with holes of other lengths

The scanner reads two documents that stretch each other in the same way: token by token the same
kinds come, at places that stand for each other (`alike_tokens`).

The two runs are compared cell by cell.  `State.Alike` says what their states have in
common between two cells.  At a character both runs take the same branch, which is `alike_step`.
At a hole both read underscores, perhaps not the same number: the first is again a
step, and from then on they are in a state that stays what it is while underscores come, but
for the name of a tag (`State.Settled`).  The looks ahead are for texts that have
no underscore in them, so no hole is half of what is looked for.
-/

namespace Inlay
namespace Markup

/-- Tokens of the same kind at places that `R` relates.  The bracket before a name, and what
lies behind a bracket or a quote, are such places too. -/
inductive Token.Alike (R : Nat → Nat → Prop) : Token → Token → Prop
  | text {start stop start' stop'} : R start start' → R stop stop' →
      Alike R (.text start stop) (.text start' stop')
  | openName {start stop start' stop'} : R (start - 1) (start' - 1) → R start start' →
      R stop stop' → Alike R (.openName start stop) (.openName start' stop')
  | openEnd {bracket bracket'} : R (bracket + 1) (bracket' + 1) →
      Alike R (.openEnd bracket) (.openEnd bracket')
  | selfClose {bracket bracket'} : R (bracket + 1) (bracket' + 1) →
      Alike R (.selfClose bracket) (.selfClose bracket')
  | close {start nameStart nameStop stop start' nameStart' nameStop' stop'} : R start start' →
      R nameStart nameStart' → R nameStop nameStop' → R stop stop' →
      Alike R (.close start nameStart nameStop stop) (.close start' nameStart' nameStop' stop')
  | attributeName {start stop start' stop'} : R start start' → R stop stop' →
      Alike R (.attributeName start stop) (.attributeName start' stop')
  | attributeValue {start stop start' stop'} : R start start' → R stop stop' →
      Alike R (.attributeValue start stop) (.attributeValue start' stop')
  | attributeEnd {quote stop stop'} : R stop stop' →
      R (attributeStop quote stop) (attributeStop quote stop') →
      Alike R (.attributeEnd quote stop) (.attributeEnd quote stop')
  | comment {start stop start' stop'} : R start start' → R stop stop' →
      Alike R (.comment start stop) (.comment start' stop')
  | mistake {kind index index'} : R index index' →
      Alike R (.mistake kind index) (.mistake kind index')
  | finish : Alike R .finish .finish

/-- Tag names are the same, or neither is the name of a tag that is known. -/
def NameAlike (name name' : List Char) : Prop := name = name' ∨ ('_' ∈ name ∧ '_' ∈ name')

/-- States of the same kind.  A run is at `pos` and has `rest` before it where this says what
comes next: the name behind a bracket, or the end of a comment. -/
inductive State.Alike (R : Nat → Nat → Prop) (pos pos' : Nat) (rest : List Char) :
    State → State → Prop
  | text {start start'} : R start start' → Alike R pos pos' rest (.text start) (.text start')
  | tagOpen {start start'} : R start start' → pos = start + 1 → pos' = start' + 1 →
      Alike R pos pos' rest (.tagOpen start) (.tagOpen start')
  | tagName {start start' name name'} : R (start - 1) (start' - 1) → R start start' →
      NameAlike name name' → Alike R pos pos' rest (.tagName start name) (.tagName start' name')
  | selfClosing {name name'} : NameAlike name name' →
      Alike R pos pos' rest (.selfClosing name) (.selfClosing name')
  | endTagOpen {tag tag'} : R tag tag' → Alike R pos pos' rest (.endTagOpen tag) (.endTagOpen tag')
  | endTagName {tag start tag' start'} : R tag tag' → R start start' →
      Alike R pos pos' rest (.endTagName tag start) (.endTagName tag' start')
  | afterEndTagName {tag start stop tag' start' stop'} : R tag tag' → R start start' →
      R stop stop' →
      Alike R pos pos' rest (.afterEndTagName tag start stop) (.afterEndTagName tag' start' stop')
  | beforeAttribute {name name'} : NameAlike name name' →
      Alike R pos pos' rest (.beforeAttribute name) (.beforeAttribute name')
  | attributeName {name start name' start'} : NameAlike name name' → R start start' →
      Alike R pos pos' rest (.attributeName name start) (.attributeName name' start')
  | afterAttribute {name name'} : NameAlike name name' →
      Alike R pos pos' rest (.afterAttribute name) (.afterAttribute name')
  | beforeValue {name name'} : NameAlike name name' →
      Alike R pos pos' rest (.beforeValue name) (.beforeValue name')
  | doubleQuoted {name start name' start'} : NameAlike name name' → R start start' →
      Alike R pos pos' rest (.doubleQuoted name start) (.doubleQuoted name' start')
  | singleQuoted {name start name' start'} : NameAlike name name' → R start start' →
      Alike R pos pos' rest (.singleQuoted name start) (.singleQuoted name' start')
  | unquoted {name start name' start'} : NameAlike name name' → R start start' →
      Alike R pos pos' rest (.unquoted name start) (.unquoted name' start')
  | declarationOpen : Alike R pos pos' rest .declarationOpen .declarationOpen
  | declaration : Alike R pos pos' rest .declaration .declaration
  | commentOpen : Alike R pos pos' rest .commentOpen .commentOpen
  | comment {start start'} : R start start' →
      Alike R pos pos' rest (.comment start) (.comment start')
  | commentDash : ['-', '>'] <+: rest → Alike R pos pos' rest .commentDash .commentDash
  | commentBracket : ['>'] <+: rest → Alike R pos pos' rest .commentBracket .commentBracket
  | rawText {name start start'} : '_' ∉ name → R start start' →
      Alike R pos pos' rest (.rawText name start) (.rawText name start')

/-- What a step gives in the two runs: like tokens, and like states at the places where it ends. -/
def StepAlike (R : Nat → Nat → Prop) (pos pos' : Nat) (rest : List Char)
    (next next' : State × List Token) : Prop :=
  next.1.Alike R pos pos' rest next'.1 ∧ List.Forall₂ (Token.Alike R) next.2 next'.2

/-- The same character at `pos` and at `pos'`.  What is behind it looks the same too, but an
underscore may have more of its hole behind it. -/
structure Seen (R : Nat → Nat → Prop) (c : Char) (pos pos' : Nat) (rest rest' : List Char) :
    Prop where
  here : R pos pos'
  next : c ≠ '_' → R (pos + c.utf8Size) (pos' + c.utf8Size)
  comment : c ≠ '_' → (['-', '>'] <+: rest ↔ ['-', '>'] <+: rest')
  raw : c ≠ '_' → ∀ name, '_' ∉ name → endsRawText name rest = endsRawText name rest'

/-- The relation keeps the order of offsets. -/
def KeepsOrder (R : Nat → Nat → Prop) : Prop :=
  ∀ ⦃i i' j j' : Nat⦄, R i i' → R j j' → (i < j ↔ i' < j')

/-! ## Names -/

section Names

variable {name name' : List Char}

theorem NameAlike.append (h : NameAlike name name') (cs : List Char) :
    NameAlike (name ++ cs) (name' ++ cs) := by
  rcases h with rfl | ⟨hname, hname'⟩
  · exact .inl rfl
  · exact .inr ⟨List.mem_append_left _ hname, List.mem_append_left _ hname'⟩

theorem isRawTextTag_eq_false (h : '_' ∈ name) : isRawTextTag (String.ofList name) = false := by
  have hplain : ∀ tag ∈ rawTextTags, '_' ∉ tag.toList := by decide
  have hlower : '_' ∈ (lowerName (String.ofList name)).toList := by
    rw [lowerName, String.toList_ofList, String.toList_ofList]
    exact List.mem_map.mpr ⟨'_', h, rfl⟩
  refine Bool.eq_false_iff.mpr fun hraw => ?_
  exact hplain _ (List.contains_iff_mem.mp hraw) hlower

theorem lowerChar_ne_underscore {c : Char} (h : c ≠ '_') : lowerChar c ≠ '_' := by
  by_cases hupper : 'A' ≤ c ∧ c ≤ 'Z'
  · have hlow : 65 ≤ c.toNat := hupper.1
    have hhigh : c.toNat ≤ 90 := hupper.2
    have hlowered := toNat_lowerChar hupper
    intro heq
    have hcode : (lowerChar c).toNat = 95 := congrArg Char.toNat heq
    -- There is no upper-case letter 32 before the underscore.
    omega
  · rw [lowerChar, if_neg hupper]
    exact h

end Names

/-! ## Steps -/

namespace StepAlike

variable {R : Nat → Nat → Prop} {pos pos' : Nat} {rest : List Char} {s s' : State}
  {next next' : State × List Token}

theorem silent (h : s.Alike R pos pos' rest s') : StepAlike R pos pos' rest (s, []) (s', []) :=
  ⟨h, .nil⟩

theorem emit {t t' : Token} (ht : t.Alike R t') (h : s.Alike R pos pos' rest s') :
    StepAlike R pos pos' rest (s, [t]) (s', [t']) :=
  ⟨h, .cons ht .nil⟩

theorem append {ts ts' : List Token} (hts : List.Forall₂ (Token.Alike R) ts ts')
    (h : StepAlike R pos pos' rest next next') :
    StepAlike R pos pos' rest (next.1, ts ++ next.2) (next'.1, ts' ++ next'.2) :=
  ⟨h.1, List.rel_append hts h.2⟩

/-- Both runs take the same branch. -/
theorem ite {p : Prop} [Decidable p] {other other' : State × List Token}
    (h : p → StepAlike R pos pos' rest next next')
    (hother : ¬p → StepAlike R pos pos' rest other other') :
    StepAlike R pos pos' rest (if p then next else other) (if p then next' else other') := by
  by_cases hp : p
  · rw [if_pos hp, if_pos hp]; exact h hp
  · rw [if_neg hp, if_neg hp]; exact hother hp

end StepAlike

section Steps

variable {R : Nat → Nat → Prop} {c : Char} {pos pos' start start' tag tag' stop stop' : Nat}
  {name name' rest rest' : List Char} {ts ts' : List Token}

/-- Behind a character of one byte that is no underscore. -/
theorem Seen.succ (h : Seen R c pos pos' rest rest') (hc : c ≠ '_') (hone : c.utf8Size = 1) :
    R (pos + 1) (pos' + 1) :=
  hone ▸ h.next hc

theorem alike_textSince (hR : KeepsOrder R) (hstart : R start start') (h : R pos pos') :
    List.Forall₂ (Token.Alike R) (textSince start pos) (textSince start' pos') := by
  rw [textSince, textSince]
  by_cases hlt : start < pos
  · rw [if_pos hlt, if_pos ((hR hstart h).mp hlt)]
    exact .cons (.text hstart h) .nil
  · rw [if_neg hlt, if_neg fun hlt' => hlt ((hR hstart h).mpr hlt')]
    exact .nil

theorem alike_valueSince (hR : KeepsOrder R) {quote : Quote} (hstart : R start start')
    (h : R pos pos') (hstop : R (attributeStop quote pos) (attributeStop quote pos')) :
    List.Forall₂ (Token.Alike R) (valueSince start quote pos) (valueSince start' quote pos') := by
  rw [valueSince, valueSince]
  refine List.rel_append ?_ (.cons (.attributeEnd h hstop) .nil)
  by_cases hlt : start < pos
  · rw [if_pos hlt, if_pos ((hR hstart h).mp hlt)]
    exact .cons (.attributeValue hstart h) .nil
  · rw [if_neg hlt, if_neg fun hlt' => hlt ((hR hstart h).mpr hlt')]
    exact .nil

theorem alike_content (hname : NameAlike name name') (h : R start start') :
    (content name start).Alike R pos pos' rest (content name' start') := by
  rw [content, content]
  rcases hname with rfl | ⟨hname, hname'⟩
  · split
    · next hraw =>
      refine .rawText (fun hmem => ?_) h
      rw [isRawTextTag_eq_false hmem] at hraw
      exact Bool.false_ne_true hraw
    · exact .text h
  · rw [isRawTextTag_eq_false hname, isRawTextTag_eq_false hname']
    exact .text h

theorem alike_inText (hR : KeepsOrder R) (hstart : R start start')
    (h : Seen R c pos pos' rest rest') :
    StepAlike R (pos + c.utf8Size) (pos' + c.utf8Size) rest (inText start pos c)
      (inText start' pos' c) := by
  rw [inText, inText]
  refine .ite (fun hc => ?_) fun _ => .silent (.text hstart)
  obtain rfl := eq_of_beq hc
  exact ⟨.tagOpen h.here rfl rfl, alike_textSince hR hstart h.here⟩

theorem alike_inBeforeAttribute (hname : NameAlike name name') (h : Seen R c pos pos' rest rest') :
    StepAlike R (pos + c.utf8Size) (pos' + c.utf8Size) rest (inBeforeAttribute name pos c)
      (inBeforeAttribute name' pos' c) := by
  rw [inBeforeAttribute, inBeforeAttribute]
  refine .ite (fun hc => ?_) fun _ => ?_
  · obtain rfl := eq_of_beq hc
    have hstop := h.succ (by decide) rfl
    exact .emit (.openEnd hstop) (alike_content hname hstop)
  refine .ite (fun _ => .silent (.selfClosing hname)) fun _ => ?_
  exact .ite (fun _ => .silent (.beforeAttribute hname)) fun _ =>
    .silent (.attributeName hname h.here)

theorem alike_thenBeforeAttribute (hts : List.Forall₂ (Token.Alike R) ts ts')
    (hname : NameAlike name name') (h : Seen R c pos pos' rest rest') :
    StepAlike R (pos + c.utf8Size) (pos' + c.utf8Size) rest (thenBeforeAttribute ts name pos c)
      (thenBeforeAttribute ts' name' pos' c) :=
  .append hts (alike_inBeforeAttribute hname h)

theorem alike_inTagOpen (hR : KeepsOrder R) (hstart : R start start')
    (h : Seen R c (start + 1) (start' + 1) rest rest') :
    StepAlike R (start + 1 + c.utf8Size) (start' + 1 + c.utf8Size) rest
      (inTagOpen start (start + 1) c) (inTagOpen start' (start' + 1) c) := by
  rw [inTagOpen, inTagOpen]
  refine .ite (fun _ => .silent .declarationOpen) fun _ => ?_
  refine .ite (fun _ => .silent .declaration) fun _ => ?_
  refine .ite (fun _ => .silent (.tagName hstart h.here (.inl rfl))) fun _ => ?_
  exact .ite (fun _ => .silent (.endTagOpen hstart)) fun _ => alike_inText hR hstart h

theorem alike_inTagName (hbracket : R (start - 1) (start' - 1)) (hstart : R start start')
    (hname : NameAlike name name') (h : Seen R c pos pos' rest rest') :
    StepAlike R (pos + c.utf8Size) (pos' + c.utf8Size) rest (inTagName start name pos c)
      (inTagName start' name' pos' c) := by
  rw [inTagName, inTagName]
  refine .ite (fun _ => ?_) fun _ => .silent (.tagName hbracket hstart (hname.append [c]))
  exact alike_thenBeforeAttribute (.cons (.openName hbracket hstart h.here) .nil) hname h

theorem alike_inSelfClosing (hname : NameAlike name name') (h : Seen R c pos pos' rest rest') :
    StepAlike R (pos + c.utf8Size) (pos' + c.utf8Size) rest (inSelfClosing name pos c)
      (inSelfClosing name' pos' c) := by
  rw [inSelfClosing, inSelfClosing]
  refine .ite (fun hc => ?_) fun _ => ?_
  · obtain rfl := eq_of_beq hc
    have hstop := h.succ (by decide) rfl
    exact .emit (.selfClose hstop) (.text hstop)
  exact .ite (fun _ => .silent (.selfClosing hname)) fun _ => alike_inBeforeAttribute hname h

theorem alike_inEndTagOpen (htag : R tag tag') (h : Seen R c pos pos' rest rest') :
    StepAlike R (pos + c.utf8Size) (pos' + c.utf8Size) rest (inEndTagOpen tag pos c)
      (inEndTagOpen tag' pos' c) := by
  rw [inEndTagOpen, inEndTagOpen]
  refine .ite (fun _ => .silent (.endTagOpen htag)) fun _ => ?_
  refine .ite (fun hc => ?_) fun _ => .silent (.endTagName htag h.here)
  obtain rfl := eq_of_beq hc
  exact .emit (.mistake h.here) (.text (h.succ (by decide) rfl))

theorem alike_inEndTagName (htag : R tag tag') (hstart : R start start')
    (h : Seen R c pos pos' rest rest') :
    StepAlike R (pos + c.utf8Size) (pos' + c.utf8Size) rest (inEndTagName tag start pos c)
      (inEndTagName tag' start' pos' c) := by
  rw [inEndTagName, inEndTagName]
  refine .ite (fun hc => ?_) fun _ => ?_
  · obtain rfl := eq_of_beq hc
    have hstop := h.succ (by decide) rfl
    exact .emit (.close htag hstart h.here hstop) (.text hstop)
  exact .ite (fun _ => .silent (.afterEndTagName htag hstart h.here)) fun _ =>
    .silent (.endTagName htag hstart)

theorem alike_inAfterEndTagName (htag : R tag tag') (hstart : R start start')
    (hstop : R stop stop') (h : Seen R c pos pos' rest rest') :
    StepAlike R (pos + c.utf8Size) (pos' + c.utf8Size) rest (inAfterEndTagName tag start stop pos c)
      (inAfterEndTagName tag' start' stop' pos' c) := by
  rw [inAfterEndTagName, inAfterEndTagName]
  refine .ite (fun hc => ?_) fun _ => .silent (.afterEndTagName htag hstart hstop)
  obtain rfl := eq_of_beq hc
  have hend := h.succ (by decide) rfl
  exact .emit (.close htag hstart hstop hend) (.text hend)

theorem alike_inAfterAttribute (hts : List.Forall₂ (Token.Alike R) ts ts')
    (hname : NameAlike name name') (h : Seen R c pos pos' rest rest') :
    StepAlike R (pos + c.utf8Size) (pos' + c.utf8Size) rest (inAfterAttribute ts name pos c)
      (inAfterAttribute ts' name' pos' c) := by
  have hend : List.Forall₂ (Token.Alike R) (ts ++ [.attributeEnd .absent pos])
      (ts' ++ [.attributeEnd .absent pos']) :=
    List.rel_append hts (.cons (.attributeEnd h.here h.here) .nil)
  rw [inAfterAttribute, inAfterAttribute]
  refine .ite (fun _ => ⟨.beforeValue hname, hts⟩) fun _ => ?_
  refine .ite (fun _ => alike_thenBeforeAttribute hend hname h) fun _ => ?_
  exact .ite (fun _ => ⟨.afterAttribute hname, hts⟩) fun _ => ⟨.attributeName hname h.here, hend⟩

theorem alike_inAttributeName (hname : NameAlike name name') (hstart : R start start')
    (h : Seen R c pos pos' rest rest') :
    StepAlike R (pos + c.utf8Size) (pos' + c.utf8Size) rest (inAttributeName name start pos c)
      (inAttributeName name' start' pos' c) := by
  rw [inAttributeName, inAttributeName]
  refine .ite (fun _ => ?_) fun _ => .silent (.attributeName hname hstart)
  exact alike_inAfterAttribute (.cons (.attributeName hstart h.here) .nil) hname h

theorem alike_inUnquoted (hR : KeepsOrder R) (hname : NameAlike name name')
    (hstart : R start start') (h : Seen R c pos pos' rest rest') :
    StepAlike R (pos + c.utf8Size) (pos' + c.utf8Size) rest (inUnquoted name start pos c)
      (inUnquoted name' start' pos' c) := by
  rw [inUnquoted, inUnquoted]
  refine .ite (fun _ => ?_) fun _ => .silent (.unquoted hname hstart)
  exact alike_thenBeforeAttribute (alike_valueSince hR hstart h.here h.here) hname h

theorem alike_inBeforeValue (hR : KeepsOrder R) (hname : NameAlike name name')
    (h : Seen R c pos pos' rest rest') :
    StepAlike R (pos + c.utf8Size) (pos' + c.utf8Size) rest (inBeforeValue name pos c)
      (inBeforeValue name' pos' c) := by
  rw [inBeforeValue, inBeforeValue]
  refine .ite (fun hc => ?_) fun _ => ?_
  · obtain rfl := eq_of_beq hc
    exact .silent (.doubleQuoted hname (h.succ (by decide) rfl))
  refine .ite (fun hc => ?_) fun _ => ?_
  · obtain rfl := eq_of_beq hc
    exact .silent (.singleQuoted hname (h.succ (by decide) rfl))
  exact .ite (fun _ => .silent (.beforeValue hname)) fun _ =>
    alike_inUnquoted hR hname h.here h

theorem alike_inDeclaration (h : Seen R c pos pos' rest rest') :
    StepAlike R (pos + c.utf8Size) (pos' + c.utf8Size) rest (inDeclaration pos c)
      (inDeclaration pos' c) := by
  rw [inDeclaration, inDeclaration]
  refine .ite (fun hc => ?_) fun _ => .silent .declaration
  obtain rfl := eq_of_beq hc
  exact .silent (.text (h.succ (by decide) rfl))

theorem alike_inComment (hstart : R start start') (h : Seen R c pos pos' rest rest') :
    StepAlike R (pos + c.utf8Size) (pos' + c.utf8Size) rest (inComment start pos c rest)
      (inComment start' pos' c rest') := by
  have hends : c = '-' ∧ ['-', '>'] <+: rest' ↔ c = '-' ∧ ['-', '>'] <+: rest := by
    refine and_congr_right fun hc => (h.comment ?_).symm
    rw [hc]
    decide
  rw [inComment_eq, inComment_eq, if_congr hends rfl rfl]
  refine .ite (fun hend => ?_) fun _ => .silent (.comment hstart)
  exact .emit (.comment hstart h.here) (.commentDash hend.2)

theorem alike_inRawText (hR : KeepsOrder R) (hname : '_' ∉ name) (hstart : R start start')
    (h : Seen R c pos pos' rest rest') :
    StepAlike R (pos + c.utf8Size) (pos' + c.utf8Size) rest (inRawText name start pos c rest)
      (inRawText name start' pos' c rest') := by
  have hends : (c == '<' && endsRawText name rest') = (c == '<' && endsRawText name rest) := by
    by_cases hc : c = '_'
    · subst hc; rfl
    · rw [h.raw hc name hname]
  rw [inRawText, inRawText, hends]
  refine .ite (fun hend => ?_) fun _ => .silent (.rawText hname hstart)
  obtain rfl : c = '<' := eq_of_beq (Bool.and_eq_true_iff.mp hend).1
  exact ⟨.tagOpen h.here rfl rfl, alike_textSince hR hstart h.here⟩

end Steps

section Runs

variable {R : Nat → Nat → Prop} {c : Char} {pos pos' : Nat} {rest rest' : List Char} {s s' : State}

/-- Like states read the same character in the same way. -/
theorem alike_step (hR : KeepsOrder R) (hs : s.Alike R pos pos' (c :: rest) s')
    (h : Seen R c pos pos' rest rest') :
    StepAlike R (pos + c.utf8Size) (pos' + c.utf8Size) rest (step s pos c rest)
      (step s' pos' c rest') := by
  cases hs with
  | text hstart => exact alike_inText hR hstart h
  | tagOpen hstart hpos hpos' =>
    subst hpos hpos'
    exact alike_inTagOpen hR hstart h
  | tagName hbracket hstart hname => exact alike_inTagName hbracket hstart hname h
  | selfClosing hname => exact alike_inSelfClosing hname h
  | endTagOpen htag => exact alike_inEndTagOpen htag h
  | endTagName htag hstart => exact alike_inEndTagName htag hstart h
  | afterEndTagName htag hstart hstop => exact alike_inAfterEndTagName htag hstart hstop h
  | beforeAttribute hname => exact alike_inBeforeAttribute hname h
  | attributeName hname hstart => exact alike_inAttributeName hname hstart h
  | afterAttribute hname => exact alike_inAfterAttribute .nil hname h
  | beforeValue hname => exact alike_inBeforeValue hR hname h
  | doubleQuoted hname hstart =>
    refine .ite (fun hc => ?_) fun _ => .silent (.doubleQuoted hname hstart)
    obtain rfl := eq_of_beq hc
    exact ⟨.beforeAttribute hname, alike_valueSince hR hstart h.here (h.succ (by decide) rfl)⟩
  | singleQuoted hname hstart =>
    refine .ite (fun hc => ?_) fun _ => .silent (.singleQuoted hname hstart)
    obtain rfl := eq_of_beq hc
    exact ⟨.beforeAttribute hname, alike_valueSince hR hstart h.here (h.succ (by decide) rfl)⟩
  | unquoted hname hstart => exact alike_inUnquoted hR hname hstart h
  | declarationOpen =>
    exact .ite (fun _ => .silent .commentOpen) fun _ => alike_inDeclaration h
  | declaration => exact alike_inDeclaration h
  | commentOpen =>
    refine .ite (fun hc => ?_) fun _ => alike_inDeclaration h
    obtain rfl := eq_of_beq hc
    exact .silent (.comment (h.succ (by decide) rfl))
  | comment hstart => exact alike_inComment hstart h
  | commentDash hbehind =>
    -- What is behind a dash has been looked at, so no hole is read in these two states.
    obtain ⟨-, hbehind⟩ := List.cons_prefix_cons.mp hbehind
    exact .silent (.commentBracket hbehind)
  | commentBracket hbehind =>
    obtain ⟨rfl, -⟩ := List.cons_prefix_cons.mp hbehind
    exact .silent (.text (h.succ (by decide) rfl))
  | rawText hname hstart => exact alike_inRawText hR hname hstart h

/-- Like states have like ends. -/
theorem alike_atEnd (hR : KeepsOrder R) (hs : s.Alike R pos pos' rest s') (h : R pos pos') :
    List.Forall₂ (Token.Alike R) (atEnd s pos) (atEnd s' pos') := by
  have hmistake : List.Forall₂ (Token.Alike R) [.mistake .endInTag pos] [.mistake .endInTag pos'] :=
    .cons (.mistake h) .nil
  have hvalue {start start' : Nat} (hstart : R start start') :
      List.Forall₂ (Token.Alike R) (valueSince start .unquoted pos ++ [.mistake .endInTag pos])
        (valueSince start' .unquoted pos' ++ [.mistake .endInTag pos']) := by
    have hend : R (attributeStop .unquoted pos) (attributeStop .unquoted pos') := h
    exact List.rel_append (alike_valueSince hR hstart h hend) hmistake
  cases hs with
  | text hstart => exact alike_textSince hR hstart h
  | rawText _ hstart => exact alike_textSince hR hstart h
  | tagName hbracket hstart _ => exact .cons (.openName hbracket hstart h) hmistake
  | attributeName _ hstart =>
    exact .cons (.attributeName hstart h) (.cons (.attributeEnd h h) hmistake)
  | afterAttribute _ => exact .cons (.attributeEnd h h) hmistake
  | doubleQuoted _ hstart => exact hvalue hstart
  | singleQuoted _ hstart => exact hvalue hstart
  | unquoted _ hstart => exact hvalue hstart
  | comment hstart => exact .cons (.mistake h) (.cons (.comment hstart h) .nil)
  | beforeAttribute _ => exact hmistake
  | beforeValue _ => exact hmistake
  | selfClosing _ => exact hmistake
  | endTagOpen _ => exact hmistake
  | endTagName _ _ => exact hmistake
  | afterEndTagName _ _ _ => exact hmistake
  | tagOpen _ _ _ => exact .nil
  | declarationOpen => exact .nil
  | declaration => exact .nil
  | commentOpen => exact .nil
  | commentDash _ => exact .nil
  | commentBracket _ => exact .nil

end Runs

/-! ## Underscores -/

/-- States that a run is in behind an underscore.  More underscores lead nowhere else. -/
inductive State.Settled : State → Prop
  | text {start} : Settled (.text start)
  | tagName {start name} : '_' ∈ name → Settled (.tagName start name)
  | endTagName {tag start} : Settled (.endTagName tag start)
  | afterEndTagName {tag start stop} : Settled (.afterEndTagName tag start stop)
  | attributeName {name start} : Settled (.attributeName name start)
  | doubleQuoted {name start} : Settled (.doubleQuoted name start)
  | singleQuoted {name start} : Settled (.singleQuoted name start)
  | unquoted {name start} : Settled (.unquoted name start)
  | declaration : Settled .declaration
  | comment {start} : Settled (.comment start)
  | rawText {name start} : Settled (.rawText name start)

/-- The state with `n` underscores more in the name that it reads, if it is the name of a tag. -/
def State.pad (n : Nat) : State → State
  | .tagName start name => .tagName start (name ++ placeholder n)
  | s => s

theorem settled_step {s : State} (h : s ≠ .commentDash) (pos : Nat) (rest : List Char) :
    (step s pos '_' rest).1.Settled := by
  cases s with
  | commentDash => exact absurd rfl h
  | text _ => exact .text
  | tagOpen _ => exact .text
  | commentBracket => exact .text
  | tagName _ name => exact .tagName (List.mem_append_right _ (List.mem_singleton_self _))
  | endTagOpen _ => exact .endTagName
  | endTagName _ _ => exact .endTagName
  | afterEndTagName _ _ _ => exact .afterEndTagName
  | selfClosing _ => exact .attributeName
  | beforeAttribute _ => exact .attributeName
  | attributeName _ _ => exact .attributeName
  | afterAttribute _ => exact .attributeName
  | beforeValue _ => exact .unquoted
  | unquoted _ _ => exact .unquoted
  | doubleQuoted _ _ => exact .doubleQuoted
  | singleQuoted _ _ => exact .singleQuoted
  | declarationOpen => exact .declaration
  | declaration => exact .declaration
  | commentOpen => exact .declaration
  | comment _ => rw [step, inComment_eq, if_neg (by rintro ⟨h, -⟩; cases h)]; exact .comment
  | rawText _ _ => exact .rawText

namespace State.Settled

variable {s s' : State}

theorem pad_zero (h : s.Settled) : s.pad 0 = s := by
  cases h with
  | tagName _ => exact congrArg _ (List.append_nil _)
  | _ => rfl

theorem pad_succ (h : s.Settled) (n : Nat) : (s.pad 1).pad n = s.pad (n + 1) := by
  cases h with
  | tagName _ => exact congrArg _ (List.append_assoc _ _ _)
  | _ => rfl

theorem pad (h : s.Settled) (n : Nat) : (s.pad n).Settled := by
  cases h with
  | tagName hname => exact .tagName (List.mem_append_left _ hname)
  | _ => constructor

theorem step_underscore (h : s.Settled) (pos : Nat) (rest : List Char) :
    step s pos '_' rest = (s.pad 1, []) := by
  cases h with
  | comment => rw [step, inComment_eq, if_neg (by rintro ⟨h, -⟩; cases h)]; rfl
  | _ => rfl

/-- A run of underscores is read without a token. -/
theorem scan_placeholder (h : s.Settled) (n pos : Nat) (cs : List Char) :
    scan s pos (placeholder n ++ cs) = scan (s.pad n) (pos + n) cs := by
  induction n generalizing s pos with
  | zero => rw [h.pad_zero]; rfl
  | succ n ih =>
    show (step s pos '_' (placeholder n ++ cs)).2 ++
      scan (step s pos '_' (placeholder n ++ cs)).1 (pos + 1) (placeholder n ++ cs) = _
    rw [h.step_underscore, ih (h.pad 1), h.pad_succ, List.nil_append, Nat.add_right_comm,
      Nat.add_assoc]

/-- Settled states are like each other wherever the runs are, and however many underscores each
has read. -/
theorem alike_pad {R : Nat → Nat → Prop} {pos pos' : Nat} {rest : List Char}
    (h : s.Settled) (h' : s'.Settled) (hs : s.Alike R pos pos' rest s') (n n' end' end'' : Nat)
    (after : List Char) : (s.pad n).Alike R end' end'' after (s'.pad n') := by
  cases h with
  | tagName hname =>
    cases hs with
    | tagName hbracket hstart _ =>
      cases h' with
      | tagName hname' =>
        exact .tagName hbracket hstart
          (.inr ⟨List.mem_append_left _ hname, List.mem_append_left _ hname'⟩)
  | text => cases hs with | text hstart => exact .text hstart
  | endTagName => cases hs with | endTagName htag hstart => exact .endTagName htag hstart
  | afterEndTagName =>
    cases hs with | afterEndTagName htag hstart hstop => exact .afterEndTagName htag hstart hstop
  | attributeName => cases hs with | attributeName hname hstart => exact .attributeName hname hstart
  | doubleQuoted => cases hs with | doubleQuoted hname hstart => exact .doubleQuoted hname hstart
  | singleQuoted => cases hs with | singleQuoted hname hstart => exact .singleQuoted hname hstart
  | unquoted => cases hs with | unquoted hname hstart => exact .unquoted hname hstart
  | declaration => cases hs with | declaration => exact .declaration
  | comment => cases hs with | comment hstart => exact .comment hstart
  | rawText => cases hs with | rawText hname hstart => exact .rawText hname hstart

end State.Settled

/-- Like states read runs of underscores alike, whatever their lengths are, and are like each
other behind them. -/
theorem alike_placeholder {R : Nat → Nat → Prop} (hR : KeepsOrder R) {s s' : State}
    {pos pos' n n' : Nat} (hn : 0 < n) (hn' : 0 < n') (h : R pos pos') (cs cs' : List Char)
    (hs : s.Alike R pos pos' (placeholder n ++ cs) s') :
    ∃ t t' ts ts', t.Alike R (pos + n) (pos' + n') cs t' ∧ List.Forall₂ (Token.Alike R) ts ts' ∧
      scan s pos (placeholder n ++ cs) = ts ++ scan t (pos + n) cs ∧
      scan s' pos' (placeholder n' ++ cs') = ts' ++ scan t' (pos' + n') cs' := by
  obtain ⟨m, rfl⟩ := Nat.exists_eq_add_of_le' hn
  obtain ⟨m', rfl⟩ := Nat.exists_eq_add_of_le' hn'
  -- The first underscore is a step of both runs, and leaves them in settled states.
  have hseen : Seen R '_' pos pos' (placeholder m ++ cs) (placeholder m' ++ cs') :=
    { here := h
      next := fun h => absurd rfl h
      comment := fun h => absurd rfl h
      raw := fun h => absurd rfl h }
  have hstep : StepAlike R _ _ _ _ _ := alike_step hR hs hseen
  have hdash : s ≠ .commentDash ∧ s' ≠ .commentDash := by
    cases hs with
    | commentDash hbehind => exact absurd (List.cons_prefix_cons.mp hbehind).1 (by decide)
    | _ => exact ⟨nofun, nofun⟩
  have hsettled := settled_step hdash.1 pos (placeholder m ++ cs)
  have hsettled' := settled_step hdash.2 pos' (placeholder m' ++ cs')
  refine ⟨_, _, _, _, hsettled.alike_pad hsettled' hstep.1 m m' _ _ cs, hstep.2, ?_, ?_⟩
  · have hrun := hsettled.scan_placeholder m (pos + 1) cs
    rw [Nat.add_assoc, Nat.add_comm 1 m] at hrun
    exact congrArg (_ ++ ·) hrun
  · have hrun := hsettled'.scan_placeholder m' (pos' + 1) cs'
    rw [Nat.add_assoc, Nat.add_comm 1 m'] at hrun
    exact congrArg (_ ++ ·) hrun

/-! ## Looking ahead -/

section Ahead

open Cell

/-- A text without underscores is ahead on both sides, or on neither. -/
theorem isPrefix_lefts_iff {word : List Char} (hword : '_' ∉ word) {back : List Cell}
    (hsolid : ∀ c ∈ back, c.IsSolid) :
    word <+: Piece.text (lefts back) ↔ word <+: Piece.text (rights back) := by
  induction word generalizing back with
  | nil => exact iff_of_true List.nil_prefix List.nil_prefix
  | cons a word ih =>
    have ha : a ≠ '_' := fun h => hword (h ▸ List.mem_cons_self)
    cases back with
    | nil => exact Iff.rfl
    | cons c back =>
      obtain ⟨hc, hback⟩ := List.forall_mem_cons.mp hsolid
      cases c with
      | char c =>
        have hinner := ih (fun h => hword (List.mem_cons_of_mem _ h)) hback
        show a :: word <+: c :: Piece.text (lefts back) ↔
          a :: word <+: c :: Piece.text (rights back)
        rw [List.cons_prefix_cons, List.cons_prefix_cons, hinner]
      | hole x y =>
        show a :: word <+: Piece.text (.hole x :: lefts back) ↔
          a :: word <+: Piece.text (.hole y :: rights back)
        rw [Piece.text_hole_cons hc.1, Piece.text_hole_cons hc.2, List.cons_prefix_cons,
          List.cons_prefix_cons]
        exact iff_of_false (fun h => ha h.1) (fun h => ha h.1)

/-- The characters go on with a name and its end, in any case. -/
def endsTag (name cs : List Char) : Bool :=
  (cs.take name.length).map lowerChar == name.map lowerChar &&
    match cs.drop name.length with
    | [] => true
    | c :: _ => endsName c

theorem endsTag_cons (a c : Char) (name cs : List Char) :
    endsTag (a :: name) (c :: cs) = (lowerChar c == lowerChar a && endsTag name cs) :=
  Bool.and_assoc _ _ _

theorem endsTag_lefts {name : List Char} (hname : '_' ∉ name) {back : List Cell}
    (hsolid : ∀ c ∈ back, c.IsSolid) :
    endsTag name (Piece.text (lefts back)) = endsTag name (Piece.text (rights back)) := by
  induction name generalizing back with
  | nil =>
    cases back with
    | nil => rfl
    | cons c back =>
      cases c with
      | char c => rfl
      | hole x y =>
        have hc := hsolid _ List.mem_cons_self
        show endsTag [] (Piece.text (.hole x :: lefts back)) =
          endsTag [] (Piece.text (.hole y :: rights back))
        rw [Piece.text_hole_cons hc.1, Piece.text_hole_cons hc.2]
        rfl
  | cons a name ih =>
    have ha : ('_' == lowerChar a) = false := by
      refine beq_eq_false_iff_ne.mpr (lowerChar_ne_underscore ?_).symm
      exact fun h => hname (h ▸ List.mem_cons_self)
    cases back with
    | nil => rfl
    | cons c back =>
      obtain ⟨hc, hback⟩ := List.forall_mem_cons.mp hsolid
      cases c with
      | char c =>
        have hinner := ih (fun h => hname (List.mem_cons_of_mem _ h)) hback
        show endsTag (a :: name) (c :: Piece.text (lefts back)) =
          endsTag (a :: name) (c :: Piece.text (rights back))
        rw [endsTag_cons, endsTag_cons, hinner]
      | hole x y =>
        have hlower : lowerChar '_' = '_' := rfl
        show endsTag (a :: name) (Piece.text (.hole x :: lefts back)) =
          endsTag (a :: name) (Piece.text (.hole y :: rights back))
        rw [Piece.text_hole_cons hc.1, Piece.text_hole_cons hc.2, endsTag_cons, endsTag_cons,
          hlower, ha, Bool.false_and, Bool.false_and]

theorem endsRawText_cons (name : List Char) (c : Char) (cs : List Char) :
    endsRawText name (c :: cs) = (c == '/' && endsTag name cs) := by
  by_cases hc : c = '/'
  · subst hc; rfl
  · rw [beq_eq_false_iff_ne.mpr hc, Bool.false_and, endsRawText.eq_def]
    split
    · next heq => exact absurd (List.cons.inj heq).1 hc
    · rfl

/-- The end tag of a name without underscores is ahead on both sides, or on neither. -/
theorem endsRawText_lefts {name : List Char} (hname : '_' ∉ name) {back : List Cell}
    (hsolid : ∀ c ∈ back, c.IsSolid) :
    endsRawText name (Piece.text (lefts back)) = endsRawText name (Piece.text (rights back)) := by
  cases back with
  | nil => rfl
  | cons c back =>
    obtain ⟨hc, hback⟩ := List.forall_mem_cons.mp hsolid
    cases c with
    | char c =>
      have hinner := endsTag_lefts hname hback
      show endsRawText name (c :: Piece.text (lefts back)) =
        endsRawText name (c :: Piece.text (rights back))
      rw [endsRawText_cons, endsRawText_cons, hinner]
    | hole x y =>
      show endsRawText name (Piece.text (.hole x :: lefts back)) =
        endsRawText name (Piece.text (.hole y :: rights back))
      rw [Piece.text_hole_cons hc.1, Piece.text_hole_cons hc.2, endsRawText_cons, endsRawText_cons]
      rfl

end Ahead

/-! ## Documents -/

section Cells

open Cell

variable {cs : List Cell}

theorem keepsOrder_aligned (hsolid : ∀ c ∈ cs, c.IsSolid) : KeepsOrder (Aligned cs) :=
  fun _ _ _ _ h h' => h.lt_iff hsolid h'

/-- From the same cell on, like states give like tokens. -/
theorem alike_scan (hsolid : ∀ c ∈ cs, c.IsSolid) {front back : List Cell}
    (hcs : cs = front ++ back) {s s' : State}
    (hs : s.Alike (Aligned cs) (Piece.size (lefts front)) (Piece.size (rights front))
      (Piece.text (lefts back)) s') :
    List.Forall₂ (Token.Alike (Aligned cs))
      (scan s (Piece.size (lefts front)) (Piece.text (lefts back)))
      (scan s' (Piece.size (rights front)) (Piece.text (rights back))) := by
  have hR := keepsOrder_aligned hsolid
  induction back generalizing front s s' with
  | nil =>
    have hend := alike_atEnd hR hs ⟨front, [], hcs, rfl, rfl⟩
    exact List.rel_append hend (.cons .finish .nil)
  | cons c back ih =>
    have hhere : Aligned cs (Piece.size (lefts front)) (Piece.size (rights front)) :=
      ⟨front, c :: back, hcs, rfl, rfl⟩
    have hmore : cs = (front ++ [c]) ++ back := by rw [hcs, List.append_assoc]; rfl
    have hnext : Aligned cs (Piece.size (lefts front) + Piece.size (lefts [c]))
        (Piece.size (rights front) + Piece.size (rights [c])) := by
      refine ⟨front ++ [c], back, hmore, ?_, ?_⟩
      · rw [lefts_append, Piece.size_append]
      · rw [rights_append, Piece.size_append]
    have hback : ∀ c ∈ back, c.IsSolid := fun x hx =>
      hsolid x (hcs ▸ List.mem_append_right _ (List.mem_cons_of_mem _ hx))
    have hrest (t t' : State) := @ih (front ++ [c]) hmore t t'
    rw [lefts_append, rights_append, Piece.size_append, Piece.size_append] at hrest
    cases c with
    | char c =>
      have hseen : Seen (Aligned cs) c (Piece.size (lefts front)) (Piece.size (rights front))
          (Piece.text (lefts back)) (Piece.text (rights back)) :=
        { here := hhere
          next := fun _ => hnext
          comment := fun _ => isPrefix_lefts_iff (by decide) hback
          raw := fun _ _ hname => endsRawText_lefts hname hback }
      have hstep := alike_step hR hs hseen
      exact List.rel_append hstep.2 (hrest _ _ hstep.1)
    | hole x y =>
      obtain ⟨hx, hy⟩ : 0 < x.span.length ∧ 0 < y.span.length :=
        hsolid (.hole x y) (hcs ▸ List.mem_append_right _ List.mem_cons_self)
      obtain ⟨t, t', ts, ts', ht, hts, hscan, hscan'⟩ :=
        alike_placeholder hR hx hy hhere (Piece.text (lefts back)) (Piece.text (rights back)) hs
      show List.Forall₂ _ (scan s _ (placeholder x.span.length ++ Piece.text (lefts back)))
        (scan s' _ (placeholder y.span.length ++ Piece.text (rights back)))
      rw [hscan, hscan']
      have hleft : Piece.size (lefts [.hole x y]) = x.span.length := Piece.size_hole
      have hright : Piece.size (rights [.hole x y]) = y.span.length := Piece.size_hole
      rw [hleft, hright] at hrest
      exact List.rel_append hts (hrest _ _ ht)

end Cells

/-- Documents that stretch each other have like tokens. -/
theorem alike_tokens {d e : Document} (h : d.Stretches e) :
    List.Forall₂ (Token.Alike (Cell.Aligned (d.cells e))) (tokens d.text) (tokens e.text) := by
  have hscan := alike_scan h.isSolid (List.nil_append _).symm (State.Alike.text Cell.Aligned.zero)
  rw [tokens, tokens, h.filled.text_eq, h.filled'.text_eq, String.toList_ofList,
    String.toList_ofList, h.pieces_left, h.pieces_right]
  exact hscan

end Markup
end Inlay
