import MacroScript.Source.Cursor

/-!
# Tokens

Every character belongs to exactly one class. Letters, the underscore and the
hyphen spell symbols, ASCII digits spell numbers, either kind of quote delimits
a string, three characters stand alone, and the null character ends the input.
All other characters, white space included, are illegal: they separate tokens
and carry no meaning.

Scanning takes the next token at a cursor. A symbol or a number is the longest
run of its class, so `abc1` is a symbol and then a number. A string has no
escapes and runs to the next quote of either kind; its text excludes both
quotes. The location of a token is where it starts.
-/
namespace MacroScript

/-- The classes of characters, which are also the kinds of tokens. -/
inductive TokenKind where
  | symbol
  | number
  | string
  | openParen
  | closeParen
  | comma
  | finish
  | illegal
  deriving DecidableEq, Repr

namespace TokenKind

def name : TokenKind → String
  | symbol => "symbol"
  | number => "num"
  | string => "string"
  | openParen => "oparen"
  | closeParen => "cparen"
  | comma => "comma"
  | finish => "end"
  | illegal => "illegal"

def ofChar (c : Char) : TokenKind :=
  if c.isAlpha || c = '_' || c = '-' then symbol
  else if c.isDigit then number
  else if c = '"' || c = '\'' then string
  else if c = '(' then openParen
  else if c = ')' then closeParen
  else if c = ',' then comma
  else if c = '\x00' then finish
  else illegal

def includes (kind : TokenKind) (c : Char) : Bool := ofChar c == kind

@[simp] theorem includes_iff (kind : TokenKind) (c : Char) :
    kind.includes c = true ↔ ofChar c = kind := by
  simp [includes]

end TokenKind

/-- A kind, the slice of the source, and where the token starts. -/
structure Token where
  kind : TokenKind
  text : String
  location : Location
  deriving DecidableEq, Repr

def Token.written (token : Token) : String :=
  s!"kind: {token.kind.name}, text: `{token.text}`, loc: {token.location.written}"

/-- What scanning finds: a token, or a string whose closing quote is missing. -/
inductive Lexeme where
  | token (found : Token)
  | unterminated (opening : Location)
  deriving DecidableEq, Repr

namespace Cursor

def skipIllegals (cursor : Cursor) : Cursor := cursor.advanceRun TokenKind.illegal.includes

/-- The class of the next character; the end of the text counts as the end of input. -/
def nextKind (cursor : Cursor) : TokenKind :=
  match cursor.rest with
  | [] => .finish
  | c :: _ => .ofChar c

/-- The cursor behind the next character, if there is one. -/
def behind (cursor : Cursor) : Cursor := cursor.advance?.getD cursor

/-- The token at the cursor, where an illegal character is a token of its own. After a
string that is not closed the cursor stands at the end of the text. -/
def scanHere (cursor : Cursor) : Lexeme × Cursor :=
  let here := cursor.location
  let kind := cursor.nextKind
  match kind with
  | .symbol | .number =>
      (.token ⟨kind, String.ofList (cursor.rest.takeWhile kind.includes), here⟩,
        cursor.advanceRun kind.includes)
  | .string =>
      let inside := cursor.behind
      let closing := inside.advanceRun fun c => !kind.includes c
      if closing.atEnd then (.unterminated here, closing)
      else (.token ⟨kind, String.ofList (inside.rest.takeWhile fun c => !kind.includes c), here⟩,
        closing.behind)
  | .finish => (.token ⟨kind, "", here⟩, cursor)
  | _ => (.token ⟨kind, String.ofList (cursor.rest.take 1), here⟩, cursor.behind)

/-- The next token, with or without passing the illegal characters before it. -/
def scan (cursor : Cursor) (skipping : Bool) : Lexeme × Cursor :=
  if skipping then cursor.skipIllegals.scanHere else cursor.scanHere

theorem behind_rest (cursor : Cursor) : cursor.behind.rest = cursor.rest.tail := by
  unfold behind advance?
  cases h : cursor.rest <;> simp [h]

theorem scanHere_rest_lt {cursor next : Cursor} {token : Token}
    (h : cursor.scanHere = (.token token, next)) (hk : token.kind ≠ .finish) :
    next.rest.length < cursor.rest.length := by
  unfold scanHere at h
  cases hr : cursor.rest with
  | nil =>
      simp only [nextKind, hr, Prod.mk.injEq, Lexeme.token.injEq] at h
      exact absurd (by rw [← h.1]) hk
  | cons c rest =>
      have hkind : cursor.nextKind = .ofChar c := by simp [nextKind, hr]
      have hb : cursor.behind.rest = rest := by simp [behind_rest, hr]
      simp only [hkind] at h
      split at h
      · rename_i hc
        simp only [Prod.mk.injEq] at h
        have := (List.dropWhile_sublist TokenKind.symbol.includes (l := rest)).length_le
        simp [← h.2, hr, hc]; omega
      · rename_i hc
        simp only [Prod.mk.injEq] at h
        have := (List.dropWhile_sublist TokenKind.number.includes (l := rest)).length_le
        simp [← h.2, hr, hc]; omega
      · rename_i hc
        simp only [hc] at h
        split at h
        · simp at h
        · simp only [Prod.mk.injEq] at h
          have := (List.dropWhile_sublist (fun c => !TokenKind.string.includes c) (l := rest)).length_le
          rw [← h.2, behind_rest, advanceRun_rest, hb]
          simp; omega
      · rename_i hc
        simp only [Prod.mk.injEq, Lexeme.token.injEq] at h
        exact absurd (by rw [← h.1]; exact hc) hk
      · simp only [Prod.mk.injEq] at h
        simp [← h.2, behind_rest, hr]

theorem scan_rest_lt {cursor next : Cursor} {skipping : Bool} {token : Token}
    (h : cursor.scan skipping = (.token token, next)) (hk : token.kind ≠ .finish) :
    next.rest.length < cursor.rest.length := by
  unfold scan at h
  split at h
  · have := (List.dropWhile_sublist TokenKind.illegal.includes (l := cursor.rest)).length_le
    have := scanHere_rest_lt h hk
    simp only [skipIllegals, advanceRun_rest] at this
    omega
  · exact scanHere_rest_lt h hk

end Cursor
end MacroScript
