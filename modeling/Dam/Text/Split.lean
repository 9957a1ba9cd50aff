/-!
# Splitting text

Texts that are lists of pieces with a separator between them: paths, lines, groups of
digits.
-/

namespace Dam

/-- The pieces of a text between the separators. There is always at least one. -/
def splitAtEach (separator : Char) : List Char → List (List Char)
  | [] => [[]]
  | c :: cs =>
    if c = separator then [] :: splitAtEach separator cs
    else
      match splitAtEach separator cs with
      | p :: ps => (c :: p) :: ps
      | [] => [[c]]

end Dam
