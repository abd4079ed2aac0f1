import Inlay.Catalog.Consult
import Inlay.Proofs.Catalog.Coherence

/-!
# Consulting a knowledge base with a memo

Recording what a `Consult` has read changes the memo only and keeps it sound.  What
a `Consult` finds `Agrees` when a sound memo cannot be told from an empty one: this
holds of every single reading, except of members of a category for which the memo is
not sound, and it passes on to whatever readings are composed to.
-/

namespace Inlay

variable {cs : Category → Prop}

namespace Knowledge

theorem fresh_foldl_record (qs : List Question) (kb : Knowledge) :
    (qs.foldl record kb).fresh = kb.fresh := by
  induction qs generalizing kb with
  | nil => rfl
  | cons q rest ih => rw [List.foldl_cons, ih, fresh_record]

theorem Coherent.foldl_record {kb : Knowledge} (h : kb.Coherent cs) (qs : List Question) :
    (qs.foldl Knowledge.record kb).Coherent cs := by
  induction qs generalizing kb with
  | nil => exact h
  | cons q rest ih => exact ih (h.record q)

end Knowledge

namespace Consult

variable {α β : Type}

theorem fresh_recorded (c : Consult α) (kb : Knowledge) : (c.recorded kb).2.fresh = kb.fresh :=
  Knowledge.fresh_foldl_record _ kb

/-- A sound memo makes no difference to what is found. -/
def Agrees (cs : Category → Prop) (c : Consult α) : Prop :=
  ∀ kb : Knowledge, kb.Coherent cs → c.value kb = c.value kb.fresh

theorem agrees_pure (a : α) : Agrees cs (pure a : Consult α) := fun _ _ => rfl

theorem Agrees.bind {c : Consult α} {f : α → Consult β} (hc : c.Agrees cs)
    (hf : ∀ a, (f a).Agrees cs) : (c >>= f).Agrees cs := by
  intro kb h
  rw [value_bind, value_bind, ← hc kb h, hf _ kb h]

theorem agrees_tag? (name : String) : (tag? name).Agrees cs := fun _ h => h.tag?_eq_fresh name

theorem agrees_hasTag (name : String) : (hasTag name).Agrees cs := fun _ h => h.hasTag_eq_fresh name

theorem agrees_tags : tags.Agrees cs := fun _ h => h.tags_eq_fresh

theorem agrees_members {c : Category} (hc : cs c) (tag : String) : (members c tag).Agrees cs :=
  fun _ h => h.members_eq_fresh hc tag

theorem agrees_member? {c : Category} (hc : cs c) (tag name : String) :
    (member? c tag name).Agrees cs :=
  (agrees_members hc tag).bind fun _ => agrees_pure _

theorem agrees_collect {read : α → Consult (List β)} {as : List α}
    (h : ∀ a ∈ as, (read a).Agrees cs) : (collect read as).Agrees cs := by
  induction as with
  | nil => exact agrees_pure []
  | cons a rest ih =>
    rw [List.forall_mem_cons] at h
    exact h.1.bind fun _ => (ih h.2).bind fun _ => agrees_pure _

/-! What a single reading finds, and one of two. -/

theorem value_ite (p : Prop) [Decidable p] (c c' : Consult α) (kb : Knowledge) :
    (if p then c else c').value kb = if p then c.value kb else c'.value kb := by
  split <;> rfl

theorem value_hasTag (name : String) (kb : Knowledge) :
    (hasTag name).value kb = kb.hasTag name := rfl

theorem value_members (c : Category) (tag : String) (kb : Knowledge) :
    (members c tag).value kb = kb.members c tag := rfl

theorem value_member? (c : Category) (tag name : String) (kb : Knowledge) :
    (member? c tag name).value kb = kb.member? c tag name := rfl

end Consult
end Inlay
