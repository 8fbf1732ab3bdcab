import Attestation.Layout.Basic

/-!
Reading layouts from their exchange form.
-/

namespace Attestation

namespace Entry

mutual

/-- What reads as a kind is an attribute; every other object holds entries. -/
def ofJson : Json → Except WireError Entry
  | .object members =>
    match Kind.ofJson true (.object members) with
    | .ok kind => .ok (.leaf kind)
    | .error _ => (ofMembers members).map .nested
  | v => (Kind.ofJson true v).map .leaf

def ofMembers : List (String × Json) → Except WireError (List (String × Entry))
  | [] => .ok []
  | (name, v) :: rest => do
    let e ← ofJson v
    let es ← ofMembers rest
    return (name, e) :: es

end

end Entry

def Layout.ofJson : Json → Except WireError Layout
  | .object members => Entry.ofMembers members
  | _ => .error .malformed

end Attestation
