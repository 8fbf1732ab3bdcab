import Attestation.Text.Classes
import Attestation.Text.Numeral

/-!
Quoted text: a text between quotation marks, in which quotation marks, backslashes and
control characters are written as escapes; and lists of names as messages show them.
-/

namespace Attestation.Text

/-- A control character has a letter of its own or four hexadecimal digits. -/
def escape (c : Char) : List Char :=
  match c with
  | '"' => ['\\', '"']
  | '\\' => ['\\', '\\']
  | '\x08' => ['\\', 'b']
  | '\t' => ['\\', 't']
  | '\n' => ['\\', 'n']
  | '\x0c' => ['\\', 'f']
  | '\r' => ['\\', 'r']
  | _ =>
    if c.toNat < 0x20 then
      ['\\', 'u', '0', '0', Nat.digitChar (c.toNat / 16), Nat.digitChar (c.toNat % 16)]
    else [c]

def quote (s : String) : List Char := '"' :: (s.toList.flatMap escape ++ ['"'])

def hexDigit? (c : Char) : Option Nat :=
  if '0' ≤ c ∧ c ≤ '9' then some (c.toNat - '0'.toNat)
  else if 'a' ≤ c ∧ c ≤ 'f' then some (c.toNat - 'a'.toNat + 10)
  else if 'A' ≤ c ∧ c ≤ 'F' then some (c.toNat - 'A'.toNat + 10)
  else none

/-- The sixteen bits that four hexadecimal digits write. -/
def unit? (a b c d : Char) : Option Nat := do
  let a ← hexDigit? a
  let b ← hexDigit? b
  let c ← hexDigit? c
  let d ← hexDigit? d
  return ((a * 16 + b) * 16 + c) * 16 + d

/-- The character that a letter after a backslash stands for. -/
def escaped? : Char → Option Char
  | '"' => some '"'
  | '\\' => some '\\'
  | '/' => some '/'
  | 'b' => some '\x08'
  | 'f' => some '\x0c'
  | 'n' => some '\n'
  | 'r' => some '\r'
  | 't' => some '\t'
  | _ => none

/-- Reads on to the closing quotation mark, and answers the text and what follows the mark.
A character above the first plane is escaped as two surrogates; a surrogate alone is refused. -/
def unquote? : List Char → Option (List Char × List Char)
  | [] => none
  | '"' :: rest => some ([], rest)
  | '\\' :: 'u' :: a :: b :: c :: d :: rest =>
    match unit? a b c d with
    | none => none
    | some u =>
      if u < 0xd800 ∨ 0xdfff < u then
        (unquote? rest).map fun r => (Char.ofNat u :: r.1, r.2)
      else if 0xdbff < u then none
      else
        match rest with
        | '\\' :: 'u' :: e :: f :: g :: h :: more =>
          match unit? e f g h with
          | none => none
          | some v =>
            if v < 0xdc00 ∨ 0xdfff < v then none
            else (unquote? more).map fun r =>
              (Char.ofNat (0x10000 + (u - 0xd800) * 0x400 + (v - 0xdc00)) :: r.1, r.2)
        | _ => none
  | '\\' :: c :: rest =>
    match escaped? c with
    | none => none
    | some e => (unquote? rest).map fun r => (e :: r.1, r.2)
  | c :: rest =>
    if c.toNat < 0x20 ∨ c = '\\' then none
    else (unquote? rest).map fun r => (c :: r.1, r.2)

/-- Characters that would not be seen are shown by their code points. -/
def display (c : Char) : List Char :=
  match c with
  | '"' => ['\\', '"']
  | '\\' => ['\\', '\\']
  | '\x00' => ['\\', '0']
  | '\t' => ['\\', 't']
  | '\n' => ['\\', 'n']
  | '\r' => ['\\', 'r']
  | _ =>
    if within unprintableRanges c then
      ['\\', 'u', '\x7b'] ++ Nat.toDigits 16 c.toNat ++ ['\x7d']
    else [c]

/-- A name as messages show it. -/
def displayed (s : String) : List Char := '"' :: (s.toList.flatMap display ++ ['"'])

/-- Names between brackets. -/
def listing (names : List String) : List Char :=
  '[' :: ([',', ' '].intercalate (names.map displayed) ++ [']'])

end Attestation.Text
