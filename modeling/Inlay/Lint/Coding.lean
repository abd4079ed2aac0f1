import Inlay.Lint.Diagnostic
import Inlay.Types.Coding

/-!
# Payloads as JSON

The form in which an editor receives what it can act on: an object whose `type`
says which of the payloads it is.
-/

namespace Inlay

def optionalText : Option String → Json
  | some s => .string s
  | none => .null

/-- An object whose first field says of what type it is. -/
def tagged (type : String) (fields : List (String × Json)) : Json :=
  .object (("type", .string type) :: fields)

def Payload.toJson : Payload → Json
  | .none => tagged "none" []
  | .typeMismatch target value =>
    tagged "typeMismatch" [("targetType", target.toJson), ("valueType", value.toJson)]
  | .unknownTarget name suggested =>
    tagged "unknownTarget" [("name", .string name), ("suggestedName", optionalText suggested)]
  | .invalidSlot valid =>
    tagged "invalidSlot" [("validSlotNames", .array (valid.map .string))]
  | .missingImport tag fileName =>
    tagged "missingImport" [("tagName", .string tag), ("declarationFile", .string fileName)]
  | .css line column =>
    tagged "css" [("line", .number (.integer line)), ("column", .number (.integer column))]

end Inlay
