import ScriptBlocks.CommandLine.Run
import Std.Data.HashMap

/-!
# Runs on files in memory

Files and folders, given by their paths from the top, on which a command can be run
without touching a disk. The run gives the tree afterwards and everything that was printed.
-/
namespace ScriptBlocks.CommandLine

/-- Why a file cannot be reached, read or written. -/
inductive FileFault where
  | notFound
  | alreadyExists
  | notFolder
  | isFolder
  | nameTooLong
  | notText
  deriving DecidableEq, Repr

def FileFault.message : FileFault → FileError
  | .notFound => "No such file or directory (os error 2)"
  | .alreadyExists => "File exists (os error 17)"
  | .notFolder => "Not a directory (os error 20)"
  | .isFolder => "Is a directory (os error 21)"
  | .nameTooLong => "File name too long (os error 36)"
  | .notText => "stream did not contain valid UTF-8"

inductive Node where
  | folder
  | file (bytes : List UInt8)
  deriving DecidableEq, Repr

/-- Where a file or folder is: its path from the top, without names `.` and `..` and empty for the
top itself. -/
abbrev Place := String

namespace Place

def child (place : Place) (name : String) : Place :=
  place ++ "/" ++ name

/-- The folder that holds a place. The top holds itself. -/
def above (place : Place) : Place :=
  String.ofList ((place.toList.reverse.dropWhile (· ≠ '/')).drop 1).reverse

end Place

/-- The nodes below the top, and the folder in which commands are run. -/
structure Tree where
  home : Place
  nodes : Std.HashMap Place Node

namespace Tree

def node? (tree : Tree) (place : Place) : Option Node :=
  if place = "" then some .folder else tree.nodes[place]?

/-- Writes a node, in place of one that is there. -/
def setNode (tree : Tree) (place : Place) (node : Node) : Tree :=
  { tree with nodes := tree.nodes.insert place node }

/-- Puts a node where names lead from a place, and makes the folders above it. -/
def add (tree : Tree) (place : Place) (node : Node) : List String → Tree
  | [] => if place = "" then tree else tree.setNode place node
  | name :: names =>
    let tree := if (tree.node? place).isSome then tree else tree.setNode place .folder
    tree.add (place.child name) node names

/-- A tree with nodes at paths from its own folder. -/
def ofPaths (home : Place) (nodes : List (String × Node)) : Tree :=
  let bare : Tree := ⟨home, ∅⟩
  nodes.foldl
    (fun tree e => tree.add home e.2 ((Path.names e.1).filter (· ≠ ".")))
    (bare.add "" .folder (Path.names home))

/-- The files below the tree's own folder by the names that lead to them from there, sorted name by
name. -/
def files (tree : Tree) : List (List String × List UInt8) :=
  let found := tree.nodes.toList.filterMap fun e =>
    match e.2 with
    | .folder => none
    | .file bytes =>
      if e.1.startsWith (tree.home ++ "/") then
        some (Path.names (e.1.drop tree.home.length).toString, bytes)
      else none
  found.mergeSort fun a b => (compare a.1 b.1).isLE

/-- Names and paths have at most this many bytes. -/
def nameLimit : Nat := 255

def pathLimit : Nat := 4095

/-- The place that a name leads to from a folder. There need not be anything. -/
def step (tree : Tree) (place : Place) (name : String) : Except FileFault Place :=
  match tree.node? place with
  | none => .error .notFound
  | some (.file _) => .error .notFolder
  | some .folder =>
    if name = "." then .ok place
    else if name = ".." then .ok place.above
    else if nameLimit < name.utf8ByteSize then .error .nameTooLong
    else .ok (place.child name)

/-- The folder from which a path is followed. -/
def start (tree : Tree) (path : String) : Except FileFault Place :=
  if pathLimit < path.utf8ByteSize then .error .nameTooLong
  else if path = "" then .error .notFound
  else .ok (if Path.isFull path then "" else tree.home)

/-- The place of a path at which there is a node. -/
def locate (tree : Tree) (path : String) : Except FileFault (Place × Node) := do
  let names := Path.names path ++ if Path.namesFolder path then ["."] else []
  let place ← names.foldlM tree.step (← tree.start path)
  match tree.node? place with
  | some node => .ok (place, node)
  | none => .error .notFound

def fullPath? (tree : Tree) (path : String) : Option String :=
  match tree.locate path with
  | .ok (place, .file _) => some place
  | _ => none

def readText (tree : Tree) (path : String) : Except FileFault String := do
  match ← tree.locate path with
  | (_, .folder) => .error .isFolder
  | (_, .file bytes) =>
    match String.fromUTF8? ⟨bytes.toArray⟩ with
    | some text => .ok text
    | none => .error .notText

def isFolder (tree : Tree) (path : String) : Bool :=
  match tree.locate path with
  | .ok (_, .folder) => true
  | _ => false

/-- A path that ends in one of the names `.` and `..`, or has no names, always names a folder. -/
def endsInFolder (names : List String) : Bool :=
  match names.getLast? with
  | some name => name = "." || name = ".."
  | none => true

/-- The place of a path at which a node can be made: everything but its last name is followed. -/
def locateNew (tree : Tree) (path : String) : Except FileFault Place := do
  let names := Path.names path
  let folder ← names.dropLast.foldlM tree.step (← tree.start path)
  match names.getLast? with
  | some name => tree.step folder name
  | none => .ok folder

/-- Makes one folder in a folder that exists. -/
def makeFolder (tree : Tree) (path : String) : Except FileFault Tree := do
  let place ← tree.locateNew path
  if endsInFolder (Path.names path) then .error .alreadyExists
  else if (tree.node? place).isSome then .error .alreadyExists
  else .ok (tree.setNode place .folder)

/-- Makes one folder, unless there is already one. -/
def ensureFolder (tree : Tree) (path : String) : Except FileFault Tree :=
  match tree.makeFolder path with
  | .ok tree => .ok tree
  | .error fault => if tree.isFolder path then .ok tree else .error fault

/-- Makes a folder and those above it that are missing, of which there are fewer than `depth`. The
folders are made along the path as it is written: those before a name `..` too. -/
def makeFolders (tree : Tree) : Nat → String → Except FileFault Tree
  | 0, _ => .ok tree
  | depth + 1, path =>
    if path = "" then .ok tree
    else
      match tree.ensureFolder path, Path.parent? path with
      | .error .notFound, some folder => do
        let tree ← tree.makeFolders depth folder
        tree.ensureFolder path
      | result, _ => result

/-- Writes a file in a folder that exists. -/
def putFile (tree : Tree) (path : String) (bytes : List UInt8) : Except FileFault Tree := do
  let names := Path.names path
  if Path.namesFolder path && !endsInFolder names then
    let folder ← names.dropLast.foldlM tree.step (← tree.start path)
    let _ ← tree.step folder "."
    .error .isFolder
  else
    let place ← tree.locateNew path
    if endsInFolder names then .error .isFolder
    else
      match tree.node? place with
      | some .folder => .error .isFolder
      | _ => .ok (tree.setNode place (.file bytes))

/-- Writes a file, and makes the folders above it. The folders stay when the file cannot be
written. -/
def writeFile (tree : Tree) (path : String) (bytes : List UInt8) :
    Except FileFault Unit × Tree :=
  let made := match Path.parent? path with
    | some folder => tree.makeFolders (Path.names path).length folder
    | none => .ok tree
  match made with
  | .error fault => (.error fault, tree)
  | .ok tree =>
    match tree.putFile path bytes with
    | .error fault => (.error fault, tree)
    | .ok tree => (.ok (), tree)

end Tree

/-- A tree together with what has been printed. -/
structure World where
  tree : Tree
  printed : List String := []
  logged : List String := []

/-- The host of a run in memory. -/
def World.host : Host (StateM World) where
  fullPath? path := fun w => (w.tree.fullPath? path, w)
  readText path := fun w => ((w.tree.readText path).mapError FileFault.message, w)
  writeFile path bytes := fun w =>
    let (result, tree) := w.tree.writeFile path bytes
    (result.mapError FileFault.message, { w with tree })
  printLine line := fun w => ((), { w with printed := w.printed ++ [line] })
  logLine line := fun w => ((), { w with logged := w.logged ++ [line] })

/-- Runs a command on a tree. The result is the exit code and the world afterwards. -/
def runOn (tree : Tree) (words : List String) : Nat × World :=
  run World.host words { tree }

end ScriptBlocks.CommandLine
