import Attestation.Json.Literal
import Attestation.Text.Quoted

/-!
Reading JSON texts.
-/

namespace Attestation.Json.Reader

def isBlank (c : Char) : Bool := c == ' ' || c == '\t' || c == '\n' || c == '\r'

def skip (cs : List Char) : List Char := cs.dropWhile isBlank

def number? (cs : List Char) : Option (Json × List Char) := do
  let (l, rest) ← Literal.read? cs
  let n ← l.number?
  return (.number n, rest)

mutual

/-- Reads one value, at most `depth` arrays and objects deep. -/
def value? : Nat → Nat → List Char → Option (Json × List Char)
  | 0, _, _ => none
  | fuel + 1, depth, cs =>
    match skip cs with
    | 'n' :: 'u' :: 'l' :: 'l' :: rest => some (.null, rest)
    | 't' :: 'r' :: 'u' :: 'e' :: rest => some (.bool true, rest)
    | 'f' :: 'a' :: 'l' :: 's' :: 'e' :: rest => some (.bool false, rest)
    | '"' :: rest => (Text.unquote? rest).map fun r => (.string (String.ofList r.1), r.2)
    | '[' :: rest =>
      match depth with
      | 0 => none
      | depth + 1 =>
        match skip rest with
        | ']' :: rest => some (.array [], rest)
        | rest => (items? fuel depth rest).map fun r => (.array r.1, r.2)
    | '\x7b' :: rest =>
      match depth with
      | 0 => none
      | depth + 1 =>
        match skip rest with
        | '\x7d' :: rest => some (.object [], rest)
        | rest => (members? fuel depth rest).map fun r => (ofMembers r.1, r.2)
    | rest => number? rest

/-- Reads on to the end of an array that has a next item. -/
def items? : Nat → Nat → List Char → Option (List Json × List Char)
  | 0, _, _ => none
  | fuel + 1, depth, cs =>
    match value? fuel depth cs with
    | none => none
    | some (v, rest) =>
      match skip rest with
      | ']' :: rest => some ([v], rest)
      | ',' :: rest => (items? fuel depth rest).map fun r => (v :: r.1, r.2)
      | _ => none

/-- Reads on to the end of an object that has a next member. -/
def members? : Nat → Nat → List Char → Option (List (String × Json) × List Char)
  | 0, _, _ => none
  | fuel + 1, depth, cs =>
    match skip cs with
    | '"' :: rest =>
      match Text.unquote? rest with
      | none => none
      | some (name, rest) =>
        match skip rest with
        | ':' :: rest =>
          match value? fuel depth rest with
          | none => none
          | some (v, rest) =>
            match skip rest with
            | '\x7d' :: rest => some ([(String.ofList name, v)], rest)
            | ',' :: rest =>
              (members? fuel depth rest).map fun r => ((String.ofList name, v) :: r.1, r.2)
            | _ => none
        | _ => none
    | _ => none

end

end Reader

/-- How deep arrays and objects may stand in one another. -/
def depthLimit : Nat := 127

/-- The value that the whole text writes. Every call takes one of the two steps of its character
at least, so that twice the length is enough of them. -/
def ofChars? (cs : List Char) : Option Json :=
  match Reader.value? (2 * cs.length + 2) depthLimit cs with
  | some (v, rest) => if Reader.skip rest = [] then some v else none
  | none => none

def ofText? (text : String) : Option Json := ofChars? text.toList

end Attestation.Json
