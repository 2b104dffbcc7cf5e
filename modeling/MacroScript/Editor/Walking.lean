import MacroScript.Editor.Lookup

/-!
# Looking at a place by walking

The word at a position and the call that is still open, found in the plain way:
by walking over a line index by index, with one look at the line for each step.
To look at a character that the line does not have is written down as going
wrong. The walk to the left asks only whether it has come to the beginning of
the line, the walk to the right only whether it has come to the end.
-/
namespace MacroScript.Walking

def characterAt (cs : List Char) (i : Nat) : Except Fault Char :=
  match cs[i]? with
  | some c => .ok c
  | none => .error (.foreign .beyondText)

/-- Walk to the left over the characters of a name. -/
def nameStart (cs : List Char) : Nat → Except Fault Nat
  | 0 => return 0
  | start + 1 => do
      if isNameChar (← characterAt cs start) then nameStart cs start
      else return start + 1

/-- Walk to the right over the characters of a name. -/
def nameStop (cs : List Char) (stop : Nat) : Except Fault Nat := do
  if _h : stop < cs.length then
    if isNameChar (← characterAt cs stop) then nameStop cs (stop + 1)
    else return stop
  else return stop
termination_by cs.length - stop

def wordAt (text : String) (position : Position) : Except Fault (Option String) :=
  match (Text.lines text.toList)[position.line]? with
  | none => return none
  | some cs => do
      let start ← nameStart cs position.column
      let stop ← nameStop cs position.column
      return nonempty? ((cs.take stop).drop start)

/-- Walk to the left from an index to the parenthesis that is open, where `closed` parentheses are
still to be matched, and then over the name before it. -/
def calleeBefore (cs : List Char) (closed : Nat) : Nat → Except Fault (Option String)
  | 0 => return none
  | i + 1 => do
      let c ← characterAt cs i
      if c = ')' then calleeBefore cs (closed + 1) i
      else if c = '(' then
        match closed with
        | 0 =>
            let start ← nameStart cs i
            return nonempty? ((cs.take i).drop start)
        | closed + 1 => calleeBefore cs closed i
      else calleeBefore cs closed i

def openCallee (cs : List Char) : Except Fault (Option String) :=
  calleeBefore cs 0 cs.length

end MacroScript.Walking
