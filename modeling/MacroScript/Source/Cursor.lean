import MacroScript.Source.Location

/-!
# Cursors

A position inside a source text. A mark holds the characters that are still to
be read together with the offset, the offset at which the current line starts,
and the row. A cursor is a mark in a text that may have a name, so taking a
snapshot, going back to one and making an independent copy are plain uses of a
value. Only the newline starts a row.

The small laws say how passing characters moves the coordinates. That they
always describe the offset is a fact about all histories and is not stated
here.
-/
namespace MacroScript

/-- What a snapshot of a cursor remembers. -/
structure Mark where
  rest : List Char
  offset : Nat
  lineStart : Nat
  row : Nat
  deriving DecidableEq, Repr

/-- A mark in a text that may have a name. -/
structure Cursor extends Mark where
  sourceName : Option String
  deriving DecidableEq, Repr

namespace Mark

/-- The mark behind one character, with the characters that follow it. -/
def pass (mark : Mark) (c : Char) (rest : List Char) : Mark :=
  let offset := mark.offset + 1
  if c = '\n' then ⟨rest, offset, offset, mark.row + 1⟩
  else ⟨rest, offset, mark.lineStart, mark.row⟩

@[simp] theorem pass_rest (mark : Mark) (c : Char) (rest : List Char) :
    (mark.pass c rest).rest = rest := by
  unfold pass; split <;> rfl

@[simp] theorem pass_offset (mark : Mark) (c : Char) (rest : List Char) :
    (mark.pass c rest).offset = mark.offset + 1 := by
  unfold pass; split <;> rfl

/-- Pass the longest run of characters of one class at the front of a list. -/
def passRun (inClass : Char → Bool) : List Char → Mark → Mark
  | [], mark => mark
  | c :: rest, mark =>
      if inClass c then passRun inClass rest (mark.pass c rest) else mark

theorem passRun_rest (inClass : Char → Bool) (cs : List Char) (mark : Mark)
    (h : mark.rest = cs) : (passRun inClass cs mark).rest = cs.dropWhile inClass := by
  induction cs generalizing mark with
  | nil => simpa [passRun] using h
  | cons c rest ih =>
      by_cases hc : inClass c = true
      · simpa [passRun, hc] using ih _ (mark.pass_rest c rest)
      · simpa [passRun, hc] using h

theorem passRun_offset (inClass : Char → Bool) (cs : List Char) (mark : Mark) :
    (passRun inClass cs mark).offset = mark.offset + (cs.takeWhile inClass).length := by
  induction cs generalizing mark with
  | nil => rfl
  | cons c rest ih =>
      by_cases hc : inClass c = true
      · simp [passRun, hc, ih]; omega
      · simp [passRun, hc]

end Mark

namespace Cursor

def ofText (text : String) (sourceName : Option String) : Cursor :=
  ⟨⟨text.toList, 0, 0, 0⟩, sourceName⟩

def column (cursor : Cursor) : Nat := cursor.offset - cursor.lineStart

def location (cursor : Cursor) : Location :=
  ⟨cursor.row, cursor.column, cursor.sourceName⟩

def atEnd (cursor : Cursor) : Bool := cursor.rest.isEmpty

/-- The character to be read next; the end of the text has none. -/
def current? (cursor : Cursor) : Option Char := cursor.rest.head?

/-- The cursor behind the next character; the end of the text is never passed. -/
def advance? (cursor : Cursor) : Option Cursor :=
  match cursor.rest with
  | [] => none
  | c :: rest => some { cursor with toMark := cursor.toMark.pass c rest }

def advanceRun (inClass : Char → Bool) (cursor : Cursor) : Cursor :=
  { cursor with toMark := Mark.passRun inClass cursor.rest cursor.toMark }

def snapshot (cursor : Cursor) : Mark := cursor.toMark

/-- Go back, or ahead, to a snapshot of any cursor on the same text. -/
def restore (cursor : Cursor) (mark : Mark) : Cursor := { cursor with toMark := mark }

def describe (cursor : Cursor) : String :=
  s!"<Cursor {cursor.location.written} pos={cursor.offset}>"

@[simp] theorem restore_snapshot (cursor : Cursor) : cursor.restore cursor.snapshot = cursor := rfl

@[simp] theorem advanceRun_rest (inClass : Char → Bool) (cursor : Cursor) :
    (cursor.advanceRun inClass).rest = cursor.rest.dropWhile inClass :=
  Mark.passRun_rest inClass cursor.rest cursor.toMark rfl

@[simp] theorem advanceRun_offset (inClass : Char → Bool) (cursor : Cursor) :
    (cursor.advanceRun inClass).offset
      = cursor.offset + (cursor.rest.takeWhile inClass).length :=
  Mark.passRun_offset inClass cursor.rest cursor.toMark

@[simp] theorem advanceRun_sourceName (inClass : Char → Bool) (cursor : Cursor) :
    (cursor.advanceRun inClass).sourceName = cursor.sourceName := rfl

end Cursor
end MacroScript
