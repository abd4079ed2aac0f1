import Inlay.Catalog.Knowledge

/-!
# Consulting the knowledge base

A `Consult` reads the knowledge base and notes which views it has read.  What it
finds depends on the knowledge base alone; the notes serve to fill the memo
afterwards, so that nothing that is found can depend on the order in which
views are asked for.
-/

namespace Inlay

/-- A reading of the knowledge base, with the questions that it asks. -/
structure Consult (α : Type) where
  run : Knowledge → α × List Question

namespace Consult

instance : Monad Consult where
  pure a := ⟨fun _ => (a, [])⟩
  bind c f := ⟨fun kb =>
    let (a, asked) := c.run kb
    let (b, more) := (f a).run kb
    (b, asked ++ more)⟩

def value {α : Type} (c : Consult α) (kb : Knowledge) : α := (c.run kb).1

/-- What is found, and the knowledge base with the views that were read in its
memo. -/
def recorded {α : Type} (c : Consult α) (kb : Knowledge) : α × Knowledge :=
  let (a, asked) := c.run kb
  (a, asked.foldl Knowledge.record kb)

def tag? (name : String) : Consult (Option Tag) :=
  ⟨fun kb => (kb.tag? name, [.tag (lowerName name)])⟩

def hasTag (name : String) : Consult Bool :=
  ⟨fun kb => (kb.hasTag name,
    if kb.extension != some (lowerName name) then [.tag (lowerName name)] else [])⟩

def tags : Consult (List Tag) := ⟨fun kb => (kb.tags, [.tags])⟩

def globals (c : Category) : Consult (NameMap Descriptor) := ⟨fun kb => (kb.globals c, [.globals c])⟩

def members (c : Category) (tag : String) : Consult (NameMap Descriptor) :=
  ⟨fun kb => (kb.members c tag, [.members c (lowerName tag)])⟩

def member? (c : Category) (tag name : String) : Consult (Option Descriptor) := do
  return (← members c tag).get? name

/-- The findings of a reading of each item, in their order. -/
def collect {α β : Type} (read : α → Consult (List β)) : List α → Consult (List β)
  | [] => pure []
  | a :: rest => do
    let found ← read a
    let more ← collect read rest
    return found ++ more

theorem value_pure {α : Type} (a : α) (kb : Knowledge) : (pure a : Consult α).value kb = a := rfl

theorem value_bind {α β : Type} (c : Consult α) (f : α → Consult β) (kb : Knowledge) :
    (c >>= f).value kb = (f (c.value kb)).value kb := rfl

end Consult
end Inlay
