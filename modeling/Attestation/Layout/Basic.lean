import Attestation.Kind.Basic
import Attestation.Path

/-!
Layouts of credentials: which attributes there are under which names, and of which kinds.
-/

namespace Attestation

/-- An attribute, or entries under names. The items of an array are entries under `0`, `1`, … -/
inductive Entry where
  | leaf (kind : Kind)
  | nested (entries : List (String × Entry))
deriving Inhabited

/-- Entries in increasing order of their names. -/
abbrev Layout := List (String × Entry)

namespace Entry

def leaf? : Entry → Option Kind
  | .leaf kind => some kind
  | .nested _ => none

def nested? : Entry → Option Layout
  | .leaf _ => none
  | .nested entries => some entries

mutual

def decEq : (a b : Entry) → Decidable (a = b)
  | .leaf k, .leaf l =>
    if h : k = l then isTrue (by rw [h]) else isFalse fun e => h (by injection e)
  | .nested es, .nested fs =>
    match decEqEntries es fs with
    | isTrue h => isTrue (by rw [h])
    | isFalse h => isFalse fun e => h (by injection e)
  | .leaf _, .nested _ => isFalse nofun
  | .nested _, .leaf _ => isFalse nofun

def decEqEntries : (es fs : List (String × Entry)) → Decidable (es = fs)
  | [], [] => isTrue rfl
  | [], _ :: _ => isFalse nofun
  | _ :: _, [] => isFalse nofun
  | (m, e) :: es, (n, f) :: fs =>
    if hn : m = n then
      match decEq e f with
      | isTrue he =>
        match decEqEntries es fs with
        | isTrue h => isTrue (by rw [hn, he, h])
        | isFalse h => isFalse fun eq => h (List.cons.inj eq).2
      | isFalse he => isFalse fun eq => he (Prod.mk.inj (List.cons.inj eq).1).2
    else isFalse fun eq => hn (Prod.mk.inj (List.cons.inj eq).1).1

end

instance : DecidableEq Entry := decEq

mutual

/-- Attributes are written as their kinds, entries as objects. -/
def toJson : Entry → Json
  | .leaf kind => kind.toJson
  | .nested entries => .object (entriesJson entries)

def entriesJson : List (String × Entry) → List (String × Json)
  | [] => []
  | (name, e) :: es => (name, e.toJson) :: entriesJson es

end

mutual

/-- The attributes of an entry at a path, each with its own path, in the order of the entries. -/
def attributes (path : String) : Entry → List (String × Kind)
  | .leaf kind => [(path, kind)]
  | .nested entries => entriesAttributes path entries

def entriesAttributes (path : String) : List (String × Entry) → List (String × Kind)
  | [] => []
  | (name, e) :: es => e.attributes (Path.child path name) ++ entriesAttributes path es

end

/-- The entry that is reached by the names. -/
def descend? : Entry → List String → Option Entry
  | e, [] => some e
  | .leaf _, _ :: _ => none
  | .nested entries, name :: names => (entries.lookup name).bind fun e => e.descend? names

end Entry

namespace Layout

def toJson (layout : Layout) : Json := (Entry.nested layout).toJson

/-- All attributes with their paths, sorted by path. Signer, prover and verifier agree on this
order without exchanging it. -/
def flatten (layout : Layout) : List (String × Kind) :=
  Fields.sort (Entry.entriesAttributes "" layout)

/-- The attribute at a path. -/
def leaf? (layout : Layout) (path : String) : Option Kind :=
  ((Entry.nested layout).descend? (Path.segments path)).bind Entry.leaf?

end Layout

end Attestation
