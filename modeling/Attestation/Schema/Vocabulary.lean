import Attestation.Schema.Basic

/-!
The linked-data context of a schema: one term for each segment of its paths. These are the names at
all levels of its layout if no name has a dot in it.
-/

namespace Attestation

namespace Entry

mutual

/-- The names at all levels. -/
def names : Entry → List String
  | .leaf _ => []
  | .nested entries => entriesNames entries

def entriesNames : List (String × Entry) → List String
  | [] => []
  | (name, e) :: es => name :: e.names ++ entriesNames es

end

theorem entriesNames_eq (entries : Layout) :
    entriesNames entries = entries.flatMap fun f => f.1 :: f.2.names := by
  induction entries with
  | nil => rfl
  | cons f entries ih => rw [entriesNames, ih, List.flatMap_cons]

theorem mem_names_nested_iff {entries : Layout} {name : String} :
    name ∈ (nested entries).names ↔ ∃ f ∈ entries, name = f.1 ∨ name ∈ f.2.names := by
  simp only [names, entriesNames_eq, List.mem_flatMap, List.mem_cons]

end Entry

namespace Vocabulary

/-- The double nearest to 1.1, the version of the format. -/
def formatVersion : Double := ⟨false, 0x3ff199999999999a, by decide⟩

/-- Each segment with its name in the vocabulary. -/
def terms (paths : List String) (vocabulary : String) : List (String × Json) :=
  Fields.ofList ((paths.flatMap Path.segments).map fun segment =>
    (segment, .string (vocabulary ++ segment)))

def context (paths : List String) (vocabulary : String) : Json :=
  .object [("@context", .array
    [.object [("@version", .number (.double formatVersion))], .object (terms paths vocabulary)])]

end Vocabulary

def Schema.context (s : Schema) : Json :=
  Vocabulary.context (s.attributes.map Prod.fst) s.settings.vocabulary

end Attestation
