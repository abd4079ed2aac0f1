import Inlay.Proofs.Markup.Numbering
import Inlay.Proofs.Workspace.Informed

/-!
# Documents with their memos

A document is kept with its tree and with the types of its bindings as they were in some
generation of the knowledge base.  `Current` states what is kept: the tree is that of the
document, and if the generation is the present one, the types are those that would be
computed now.

Checking a document that is current gives what checking it without any memo gives,
which is `diagnose`, and leaves it current.  The types that are added to a memo are
those of one binding, but they are found again by the number of its assignment; so this
rests on `Tree.binding_of_id_eq`.
-/

namespace Inlay

open Markup
open Category (IsChecked)

namespace DocumentEntry

/-- What is checked: a document, with its tree if it is markup. -/
def parsed (e : DocumentEntry) : Document × Option Tree := (e.document, e.tree)

/-- A document as it is kept in a generation of a knowledge base. -/
structure Current (types : TypeProvider) (generation : Nat) (kb : Knowledge) (e : DocumentEntry) :
    Prop where
  le : e.generation ≤ generation
  tree : ∀ {t}, e.tree = some t → t = Tree.ofDocument e.document
  memo : e.generation = generation → ∀ {t}, e.tree = some t → ∀ n ∈ t.nodes,
    Engine.MemoHolds (types e.document.fileName) kb e.memo n

/-- In a later generation, nothing is asked of the memo. -/
theorem Current.later {types : TypeProvider} {generation generation' : Nat} {kb kb' : Knowledge}
    {e : DocumentEntry} (h : e.Current types generation kb) (hlt : generation < generation') :
    e.Current types generation' kb' := by
  refine ⟨Nat.le_of_lt (Nat.lt_of_le_of_lt h.le hlt), h.tree, fun heq => ?_⟩
  have hle := h.le
  omega

end DocumentEntry

theorem BindingMemo.lookup_foldl_record {bindings : List (Nat × BindingTypes)} {memo : BindingMemo}
    {id : Nat} {t : BindingTypes}
    (h : (bindings.foldl (fun m b => m.record b.1 b.2) memo).lookup id = some t) :
    memo.lookup id = some t ∨ (id, t) ∈ bindings := by
  induction bindings generalizing memo with
  | nil => exact .inl h
  | cons b rest ih =>
    rcases ih h with h | h
    · dsimp only at h
      rw [BindingMemo.record] at h
      split at h
      · exact .inl h
      · rw [List.lookup_cons] at h
        split at h
        · next hid =>
          rw [beq_iff_eq.mp hid, ← Option.some.inj h]
          exact .inr List.mem_cons_self
        · exact .inl h
    · exact .inr (List.mem_cons_of_mem b h)

/-- A memo stays right when types are added that a check of the document has
computed. -/
theorem Engine.MemoHolds.foldl_record {typeOf : HostExpression → StaticType} {kb : Knowledge}
    {memo : BindingMemo} {d : Document} {bindings : List (Nat × BindingTypes)}
    (hmemo : ∀ n ∈ (Tree.ofDocument d).nodes, MemoHolds typeOf kb memo n)
    (hbindings : ∀ b ∈ bindings, ∃ n ∈ (Tree.ofDocument d).nodes, Computed typeOf kb n b) :
    ∀ n ∈ (Tree.ofDocument d).nodes,
      MemoHolds typeOf kb (bindings.foldl (fun m b => m.record b.1 b.2) memo) n := by
  intro n hn a ha x hx t ht
  rcases BindingMemo.lookup_foldl_record ht with ht | ht
  · exact hmemo n hn a ha x hx t ht
  · obtain ⟨m, hm, a', ha', x', hx', heq⟩ := hbindings _ ht
    obtain ⟨hid, hvalue⟩ := Prod.mk.inj heq
    obtain ⟨htag, hattribute⟩ := Tree.binding_of_id_eq d hn hm ha ha' hx hx' hid
    have hassignment : x = x' := by
      rw [hattribute] at hx
      exact Option.some.inj (hx.symm.trans hx')
    rw [hvalue, htag, hattribute, hassignment]

namespace Session

/-- What a check of a document finds that uses no memo. -/
def diagnose (parsers : Parsers) (host : Host) (visible : List String) (settings : Settings)
    (kb : Knowledge) : Document × Option Tree → List Diagnostic
  | (d, tree) =>
    match d.dialect, tree with
    | .stylesheet, _ => InvalidCss.checkWith parsers.stylesheet settings d
    | .markup, none => []
    | .markup, some tree =>
      let scene : Scene :=
        { document := d, tree := tree, settings := settings, visibleFiles := some visible }
      ((Engine.checkMarkup scene host.types []).value kb).diagnostics

variable {parsers : Parsers} {host : Host} {s : Session} {e : DocumentEntry}

/-- A document that is current is checked as if there were no memo, and stays
current. -/
theorem value_checkDocument (visible : List String) (hkb : Informed s.knowledge)
    (he : e.Current host.types s.generation s.knowledge.fresh) :
    ((checkDocument parsers host visible s e).value s.knowledge).1 =
        diagnose parsers host visible s.config.settings s.knowledge.fresh e.parsed ∧
      ((checkDocument parsers host visible s e).value s.knowledge).2.parsed = e.parsed ∧
      ((checkDocument parsers host visible s e).value s.knowledge).2.Current host.types s.generation
        s.knowledge.fresh := by
  cases hdialect : e.document.dialect with
  | stylesheet =>
    simp only [checkDocument, diagnose, DocumentEntry.parsed, hdialect]
    exact ⟨rfl, rfl, he⟩
  | markup =>
    cases htree : e.tree with
    | none =>
      simp only [checkDocument, diagnose, DocumentEntry.parsed, hdialect, htree]
      refine ⟨rfl, ?_, he⟩
      show (e.document, e.tree) = _
      rw [htree]
    | some tree =>
      obtain rfl := he.tree htree
      -- A memo of an earlier generation is thrown away, and an empty one holds anything.
      have hmemo : ∀ n ∈ (Tree.ofDocument e.document).nodes,
          Engine.MemoHolds (host.types e.document.fileName) s.knowledge.fresh
            (if e.generation = s.generation then e.memo else []) n := by
        split
        · next hgeneration => exact he.memo hgeneration htree
        · exact fun _ _ _ _ _ _ _ ht => absurd ht.symm (Option.some_ne_none _)
      have hreport := (Engine.agrees_checkMarkup
          { document := e.document, tree := Tree.ofDocument e.document, settings := s.config.settings,
            visibleFiles := some visible } host.types
          (if e.generation = s.generation then e.memo else []) s.knowledge hkb.coherent).trans
        (Engine.value_checkMarkup_of_memo hmemo)
      simp only [checkDocument, diagnose, DocumentEntry.parsed, hdialect, htree,
        Consult.value_bind, Consult.value_pure, hreport]
      refine ⟨trivial, trivial, Nat.le_refl _, fun ht => (Option.some.inj ht).symm, ?_⟩
      intro _ t ht
      obtain rfl := Option.some.inj ht
      exact Engine.MemoHolds.foldl_record hmemo fun b hb => Engine.mem_bindings_checkMarkup hb

end Session
end Inlay
