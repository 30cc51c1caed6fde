import ThreeAddress.Text.Numeral

/-!
# Paths

The plain form of a path: no empty parts and no parts that stand for the directory itself.
-/

namespace ThreeAddress.Command

/-- What an absolute path starts with: two slashes are kept, any other number counts as one. -/
def pathRoot (cs : List Char) : String :=
  match (cs.takeWhile (· = '/')).length with
  | 0 => ""
  | 2 => "//"
  | _ => "/"

/-- The plain form of a path; the empty path is the current directory. -/
def plainPath (path : String) : String :=
  let parts := (Text.splitAt '/' path.toList).filter fun part => !(part.isEmpty || part = ['.'])
  let plain := pathRoot path.toList ++ String.intercalate "/" (parts.map String.ofList)
  if plain.isEmpty then "." else plain

end ThreeAddress.Command
