/-!
# Places in a source text

Lines and columns count from one, offsets from zero, and all of them count characters.
-/
namespace ScriptBlocks

/-- A place between two characters of a source text. -/
structure Position where
  line : Nat
  column : Nat
  offset : Nat
  deriving DecidableEq, Repr

namespace Position

def start : Position := ⟨1, 1, 0⟩

/-- The place after a character. -/
def next (p : Position) (c : Char) : Position :=
  if c = '\n' then ⟨p.line + 1, 1, p.offset + 1⟩ else ⟨p.line, p.column + 1, p.offset + 1⟩

/-- The place after a run of characters. -/
def after (p : Position) (cs : List Char) : Position :=
  cs.foldl next p

@[simp] theorem after_nil (p : Position) : p.after [] = p := rfl

@[simp] theorem after_cons (p : Position) (c : Char) (cs : List Char) :
    p.after (c :: cs) = (p.next c).after cs := rfl

theorem after_append (p : Position) (cs ds : List Char) :
    p.after (cs ++ ds) = (p.after cs).after ds := by
  simp [after]

@[simp] theorem offset_next (p : Position) (c : Char) : (p.next c).offset = p.offset + 1 := by
  unfold next
  split <;> rfl

@[simp] theorem offset_after (p : Position) (cs : List Char) :
    (p.after cs).offset = p.offset + cs.length := by
  induction cs generalizing p with
  | nil => rfl
  | cons c cs ih => simp [ih]; omega

end Position

/-- A range of a source text: where it starts and how many characters it has. -/
structure Span where
  line : Nat
  column : Nat
  offset : Nat
  length : Nat
  deriving DecidableEq, Repr

namespace Span

/-- The range that stands for a missing text. -/
def empty : Span := ⟨1, 1, 0, 0⟩

/-- The offset just after the range. -/
def stop (s : Span) : Nat :=
  s.offset + s.length

/-- From the start of one range to the end of the other, or of itself when that is later. -/
def through (s t : Span) : Span :=
  { s with length := max t.stop s.stop - s.offset }

@[simp] theorem offset_through (s t : Span) : (s.through t).offset = s.offset := rfl

@[simp] theorem stop_through (s t : Span) : (s.through t).stop = max t.stop s.stop := by
  simp only [stop, through]
  omega

end Span

/-- The range of this length that starts here. -/
def Position.span (p : Position) (length : Nat) : Span :=
  ⟨p.line, p.column, p.offset, length⟩

end ScriptBlocks
