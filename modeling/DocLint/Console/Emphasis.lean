import DocLint.Console.Color

/-!
# Highlighted types

In the listing of a declaration every occurrence of its types is red. The characters to color are marked on the plain
text for all types first (`marks`); then each longest run of marked characters is colored as one, so that no type is
looked for inside of a color sequence.
-/

namespace DocLint
namespace Emphasis

/-- Marks the characters of the leftmost occurrences of `needle` that do not overlap; `inside` characters belong to an
occurrence before them. -/
def marksFrom (needle : Text) : (inside : Nat) → Text → List Bool
  | _, [] => []
  | inside + 1, _ :: rest => true :: marksFrom needle inside rest
  | 0, c :: rest =>
    if needle.isPrefixOf (c :: rest) then true :: marksFrom needle (needle.length - 1) rest
    else false :: marksFrom needle 0 rest

/-- Marks the characters that belong to an occurrence of one of the types; an empty type has none. -/
def marks (types : List Text) (s : Text) : List Bool :=
  (types.filter (!·.isEmpty)).foldl (fun marked type => List.zipWith (· || ·) marked (marksFrom type 0 s))
    (s.map fun _ => false)

/-- The longest runs of characters with the same mark. -/
def runs : List (Char × Bool) → List (Text × Bool)
  | [] => []
  | (c, marked) :: rest =>
    match runs rest with
    | (run, mark) :: others =>
      if mark = marked then (c :: run, mark) :: others else ([c], marked) :: (run, mark) :: others
    | [] => [([c], marked)]

/-- The text with every occurrence of the types in red. -/
def render (colored : Bool) (types : List Text) (s : Text) : Text :=
  (runs (s.zip (marks types s))).flatMap fun (run, marked) => if marked then Color.red.paint colored run else run

end Emphasis
end DocLint
