/-!
# Lines of a text

The division of a text into lines for an editor. More characters end a line
here than in the language itself: besides the newline these are the carriage
return, alone or before a newline, the other vertical controls, three of the
information separators and the Unicode line and paragraph separators. A line
keeps the characters that end it, so the lines concatenate to the text.
-/
namespace MacroScript.Text

def isLineEnd (c : Char) : Bool :=
  let n := c.toNat
  (0x0A ≤ n && n ≤ 0x0D) || (0x1C ≤ n && n ≤ 0x1E) || n == 0x85 || n == 0x2028 || n == 0x2029

/-- The lines of a text, each with the characters that end it. -/
def lines : List Char → List (List Char)
  | [] => []
  | '\r' :: '\n' :: rest => ['\r', '\n'] :: lines rest
  | c :: rest =>
      if isLineEnd c then [c] :: lines rest
      else match lines rest with
        | [] => [[c]]
        | line :: others => (c :: line) :: others

@[simp] theorem lines_flatten (cs : List Char) : (lines cs).flatten = cs := by
  fun_induction lines cs with
  | case1 => rfl
  | case2 rest ih => simp [ih]
  | case3 c rest _ h ih => simp [ih]
  | case4 c rest _ h he ih => simpa [he] using ih
  | case5 c rest _ h line others he ih => simpa [he] using ih

end MacroScript.Text
