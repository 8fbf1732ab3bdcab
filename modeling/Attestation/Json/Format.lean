import Attestation.Double.Style
import Attestation.Json.Basic
import Attestation.Text.Quoted

/-!
Writing JSON texts, without blanks.
-/

namespace Attestation

namespace Json

/-- What a way of writing decides: the layout of doubles, and the order of an object's members,
each by its quoted name. -/
structure Format where
  style : Double.Style
  order : List (String × List Char) → List (String × List Char)

namespace Format

variable (format : Format)

def number : Number → List Char
  | .int n => Text.integer n
  | .double x => format.style.text x

mutual

def value : Json → List Char
  | .null => ['n', 'u', 'l', 'l']
  | .bool true => ['t', 'r', 'u', 'e']
  | .bool false => ['f', 'a', 'l', 's', 'e']
  | .number n => format.number n
  | .string s => Text.quote s
  | .array vs => '[' :: ([','].intercalate (items vs) ++ [']'])
  | .object vs =>
    '\x7b' :: ([','].intercalate ((format.order (members vs)).map fun m =>
      m.1.toList ++ ':' :: m.2) ++ ['\x7d'])

def items : List Json → List (List Char)
  | [] => []
  | v :: vs => value v :: items vs

def members : List (String × Json) → List (String × List Char)
  | [] => []
  | (name, v) :: vs => (String.ofList (Text.quote name), value v) :: members vs

end

end Format

/-- Members in the order in which the object has them. -/
def plainFormat : Format := ⟨.plain, id⟩

def chars (v : Json) : List Char := plainFormat.value v

def text (v : Json) : String := String.ofList v.chars

end Json

namespace Number

def chars (n : Number) : List Char := Json.plainFormat.number n

def text (n : Number) : String := String.ofList n.chars

end Number

end Attestation
