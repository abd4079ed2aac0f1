import Inlay.Catalog.Collection
import Inlay.Catalog.Standard.Attributes

/-!
# The standard elements

What is known before any file has been read: the elements of the standard with
their attributes, the properties that reflect them, the events of every element,
and the base that all elements extend.
-/

namespace Inlay
namespace Standard

/-- Events of every element, with the type of the event object. -/
def events : List (String × String) :=
  [("abort", "UIEvent"), ("animationend", "AnimationEvent"), ("animationstart", "AnimationEvent"),
   ("blur", "FocusEvent"), ("change", "Event"), ("click", "MouseEvent"),
   ("contextmenu", "MouseEvent"), ("copy", "ClipboardEvent"), ("cut", "ClipboardEvent"),
   ("dblclick", "MouseEvent"), ("drag", "DragEvent"), ("dragend", "DragEvent"),
   ("dragenter", "DragEvent"), ("dragleave", "DragEvent"), ("dragover", "DragEvent"),
   ("dragstart", "DragEvent"), ("drop", "DragEvent"), ("error", "ErrorEvent"),
   ("focus", "FocusEvent"), ("focusin", "FocusEvent"), ("focusout", "FocusEvent"),
   ("input", "InputEvent"), ("invalid", "Event"), ("keydown", "KeyboardEvent"),
   ("keyup", "KeyboardEvent"), ("load", "Event"), ("mousedown", "MouseEvent"),
   ("mouseenter", "MouseEvent"), ("mouseleave", "MouseEvent"), ("mousemove", "MouseEvent"),
   ("mouseout", "MouseEvent"), ("mouseover", "MouseEvent"), ("mouseup", "MouseEvent"),
   ("paste", "ClipboardEvent"), ("pointercancel", "PointerEvent"),
   ("pointerdown", "PointerEvent"), ("pointerenter", "PointerEvent"),
   ("pointerleave", "PointerEvent"), ("pointermove", "PointerEvent"),
   ("pointerup", "PointerEvent"), ("reset", "Event"), ("resize", "UIEvent"), ("scroll", "Event"),
   ("select", "Event"), ("submit", "SubmitEvent"), ("toggle", "ToggleEvent"),
   ("touchend", "TouchEvent"), ("touchmove", "TouchEvent"), ("touchstart", "TouchEvent"),
   ("transitionend", "TransitionEvent"), ("wheel", "WheelEvent")]

def attributesOf (table : Table) : List Descriptor :=
  table.map fun e => { name := e.1, type := e.2.type }

/-- The properties that reflect the attributes of a table. -/
def propertiesOf (table : Table) : List Descriptor :=
  table.filterMap fun e => (property? e.1).map fun name => { name := name, type := e.2.type }

/-- Members that are attributes and properties only. -/
def membersOf (attributes properties : List Descriptor) : Shelf (List Descriptor) :=
  { attributes := attributes, properties := properties, events := [], slots := [],
    cssParts := [], cssProperties := [] }

def collection : Collection :=
  { tags :=
      (elements.map fun e =>
        { name := e.1, isBuiltIn := true,
          members := membersOf (attributesOf e.2) (propertiesOf e.2) }) ++
      plainElements.map fun name => { name := name, isBuiltIn := true }
    globals :=
      { membersOf (attributesOf everywhere) (propertiesOf everywhere) with
        events := events.map fun e => { name := e.1, type := .named e.2 } } }

def baseCollection : Collection :=
  { tags :=
      [{ name := "HTMLElement", isBuiltIn := true, isDeclared := true,
         members := membersOf [] (attributesOf base) }] }

end Standard
end Inlay
