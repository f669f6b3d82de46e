import ScriptBlocks.Block.Json
import ScriptBlocks.Digest
import ScriptBlocks.Project

/-!
# Project documents

The document that describes a project, and the files that make up its archive.
-/
namespace ScriptBlocks

/-- The value that a variable has before the first script runs. -/
def ValueType.initialValue : ValueType → Json
  | .number => .integer 0
  | .boolean => .string "false"
  | _ => .string ""

/-- The picture that every target shows. -/
def costumeImage : String :=
  "<svg xmlns=\"http://www.w3.org/2000/svg\" width=\"1\" height=\"1\" viewBox=\"0 0 1 1\"></svg>"

def costumeDigest : String :=
  Digest.md5 costumeImage.toUTF8.toList

def costumeFile : String :=
  costumeDigest ++ ".svg"

namespace Target

def costumeJson (t : Target) : Json :=
  .record [("name", .string (if t.isStage then "backdrop1" else "costume1")),
    ("assetId", .string costumeDigest), ("md5ext", .string costumeFile),
    ("dataFormat", .string "svg"), ("rotationCenterX", .decimal 5 1),
    ("rotationCenterY", .decimal 5 1)]

/-- What only the stage has. -/
def stageFields : List (String × Json) :=
  [("tempo", .integer 60), ("videoTransparency", .integer 50), ("videoState", .string "on"),
   ("textToSpeechLanguage", .null)]

/-- What only a sprite has. -/
def spriteFields : List (String × Json) :=
  [("visible", .bool true), ("x", .integer 0), ("y", .integer 0), ("size", .integer 100),
   ("direction", .integer 90), ("draggable", .bool false),
   ("rotationStyle", .string "all around")]

def toJson (t : Target) : Json :=
  let variableField (v : Variable) : String × Json :=
    (v.id, .array [.string v.name, v.type.initialValue])
  .record ([("isStage", .bool t.isStage), ("name", .string t.name),
      ("variables", .record (t.vars.values.map variableField)),
      ("lists", .record []), ("broadcasts", .record []),
      ("blocks", t.blocks.toJson Block.toJson), ("comments", t.comments.toJson Comment.toJson),
      ("currentCostume", .integer 0), ("costumes", .array [t.costumeJson]), ("sounds", .array []),
      ("volume", .integer 100), ("layerOrder", .integer t.layer)]
    ++ if t.isStage then stageFields else spriteFields)

end Target

namespace Project

def toJson (p : Project) : Json :=
  .record [("targets", .array (p.targets.map Target.toJson)), ("monitors", .array []),
    ("extensions", .array []),
    ("meta", .record [("semver", .string "3.0.0"), ("vm", .string "0.2.0"),
      ("agent", .string "ScratchScript Rust Compiler")])]

/-- The files of the project's archive, in order. -/
def files (p : Project) : List (String × String) :=
  [("project.json", p.toJson.pretty 0), (costumeFile, costumeImage)]

/-- Why a project is not packaged. -/
structure Refusal where
  diagnostics : List Diagnostic
  deriving DecidableEq, Repr

def Refusal.message (r : Refusal) : String :=
  let errors := (r.diagnostics.filter Diagnostic.isError).length
  s!"Compilation failed with {errors} error(s)."

/-- The files of the archive, unless unwaived errors forbid it. -/
def package (p : Project) : Except Refusal (List (String × String)) :=
  if p.canPackage then .ok p.files else .error ⟨p.diagnostics⟩

end Project
end ScriptBlocks
