/-!
# Paths

A path is a text in which slashes stand between names. A slash at the start makes it a path from
the top, repeated slashes count as one, and the names `.` and `..` mean the folder itself and the
one above it.
-/
namespace ScriptBlocks.CommandLine.Path

/-- The names of a path, with `.` and `..` among them. -/
def names (path : String) : List String :=
  (path.splitOn "/").filter (· ≠ "")

/-- A path that does not depend on the folder in which it is used. -/
def isFull (path : String) : Bool :=
  path.startsWith "/"

/-- A path that ends in a slash can only name a folder. -/
def namesFolder (path : String) : Bool :=
  path.endsWith "/"

/-- Drops slashes and names `.` at the end of a path, whose characters are given last to first. A
name `.` at the start of the path stays. -/
def trimReversed : List Char → List Char
  | '/' :: rest => trimReversed rest
  | '.' :: '/' :: rest => trimReversed rest
  | cs => cs

/-- The path of the folder that holds what a path names, as far as the names tell. It is empty for a
single name, and there is none above the top. -/
def parent? (path : String) : Option String :=
  match trimReversed path.toList.reverse with
  | [] => none
  | named =>
    match trimReversed (named.dropWhile (· ≠ '/')) with
    | [] => some (if isFull path then "/" else "")
    | folder => some (String.ofList folder.reverse)

/-- A name with its ending replaced by `.sb3`. A dot at the start of a name starts no ending. Two dots
that are left alone without the ending mean the folder above, which takes none. -/
def archiveName (name : List Char) : List Char :=
  let ending := (name.reverse.takeWhile (· ≠ '.')).length
  if name.take (name.length - ending) = ['.', '.'] then ['.', '.']
  else
    let stem := if ending + 1 < name.length then name.take (name.length - ending - 1) else name
    stem ++ ".sb3".toList

/-- A path with the ending of its last name replaced by `.sb3`. -/
def withArchiveEnding (path : String) : String :=
  let cs := path.toList
  let name := (cs.reverse.takeWhile (· ≠ '/')).reverse
  String.ofList (cs.take (cs.length - name.length) ++ archiveName name)

/-- A path as it is shown: without the mark of an extended-length path. -/
def shown (path : String) : String :=
  let mark := "\\\\?\\"
  if path.startsWith mark then (path.drop mark.length).toString else path

end ScriptBlocks.CommandLine.Path
