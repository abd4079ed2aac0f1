import Inlay.Json.Basic
import Inlay.Number.Shortest

/-!
# Writing JSON

Values are written without blanks, fields in their order, and characters outside
ASCII as they are.
-/

namespace Inlay
namespace Json

/-- Four hexadecimal digits. -/
def hexFour (n : Nat) : List Char :=
  let digits := Nat.toDigits 16 n
  List.replicate (4 - digits.length) '0' ++ digits

def escapeChar (c : Char) : List Char :=
  if c == '"' then ['\\', '"']
  else if c == '\\' then ['\\', '\\']
  else if c == '\n' then ['\\', 'n']
  else if c == '\r' then ['\\', 'r']
  else if c == '\t' then ['\\', 't']
  else if c.toNat < 0x20 then '\\' :: 'u' :: hexFour c.toNat
  else [c]

def quoted (text : String) : String :=
  "\"" ++ String.ofList (text.toList.flatMap escapeChar) ++ "\""

/-- A double keeps a point, so that it reads back as a double. -/
def realText (x : Number) : String :=
  match x with
  | .finite negative s e =>
    let digits := if s = 0 then "0" else (Decimal.shortest s e).positional
    let pointed := if digits.toList.contains '.' then digits else digits ++ ".0"
    Number.signText negative ++ pointed
  | _ => "null"

def numberText : JsonNumber → String
  | .integer n => toString n
  | .real x => realText x

mutual
def write : Json → String
  | .null => "null"
  | .bool b => if b then "true" else "false"
  | .number n => numberText n
  | .string s => quoted s
  | .array items => "[" ++ writeItems items ++ "]"
  | .object fields => "\x7b" ++ writeFields fields ++ "\x7d"
  | .unreadable => "null"

def writeItems : List Json → String
  | [] => ""
  | [j] => j.write
  | j :: rest => j.write ++ "," ++ writeItems rest

def writeFields : List (String × Json) → String
  | [] => ""
  | [(name, j)] => quoted name ++ ":" ++ j.write
  | (name, j) :: rest => quoted name ++ ":" ++ j.write ++ "," ++ writeFields rest
end

end Json
end Inlay
