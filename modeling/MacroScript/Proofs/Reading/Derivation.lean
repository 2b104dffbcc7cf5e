import Mathlib
import MacroScript.Proofs.Expr.Subtrees
import MacroScript.Reading.Program

/-!
# Derivations

The grammar of expressions as trees with tokens at the leaves, and when the
tokens of a stream begin with the tokens of such a tree. A symbol that is not
called is followed by a closing parenthesis, by a comma or by the end of input,
and a number is short and small enough for an integer. A stream begins with at
most one derivation.
-/
namespace MacroScript

mutual

inductive Derivation where
  | number (token : Token)
  | string (token : Token)
  | name (token : Token)
  | emptyCall (head opening closing : Token)
  | call (head opening : Token) (first : Derivation) (others : Separated)

/-- What stands behind an argument: the end of the call, or a comma and more arguments. -/
inductive Separated where
  | close (closing : Token)
  | comma (separator : Token) (next : Derivation) (others : Separated)

end

mutual

def Derivation.expr : Derivation → Expr
  | .number token => .int (Token.digitsValue token.text.toList).toUInt64
  | .string token => .string token.text
  | .name token => .var token.text
  | .emptyCall head _ _ => .call head.text []
  | .call head _ first others => .call head.text (first.expr :: others.exprs)

def Separated.exprs : Separated → List Expr
  | .close _ => []
  | .comma _ next others => next.expr :: others.exprs

end

mutual

def Derivation.last : Derivation → Token
  | .number token | .string token | .name token => token
  | .emptyCall _ _ closing => closing
  | .call _ _ _ others => others.last

def Separated.last : Separated → Token
  | .close closing => closing
  | .comma _ _ others => others.last

end

/-- The tokens that may follow a symbol which is not called. -/
def TokenStream.EndsName : TokenStream → Prop
  | .token next _ _ => next.kind = .closeParen ∨ next.kind = .comma
  | .finished _ => True
  | .unterminated _ _ => False

mutual

/-- A stream begins with the tokens of a derivation. The cursor is the one behind the last of
them, and the other stream holds what follows. -/
def Derivation.Spans : Derivation → TokenStream → Cursor → TokenStream → Prop
  | .number token, stream, after, more =>
      stream = .token token after more ∧ token.kind = .number ∧
        token.text.length ≤ 20 ∧ Token.digitsValue token.text.toList ≤ 2 ^ 64 - 1
  | .string token, stream, after, more => stream = .token token after more ∧ token.kind = .string
  | .name token, stream, after, more =>
      stream = .token token after more ∧ token.kind = .symbol ∧ more.EndsName
  | .emptyCall head opening closing, stream, after, more =>
      ∃ behindHead behindOpening,
        stream = .token head behindHead (.token opening behindOpening (.token closing after more)) ∧
        head.kind = .symbol ∧ opening.kind = .openParen ∧ closing.kind = .closeParen
  | .call head opening first others, stream, after, more =>
      ∃ behindHead behindOpening inside behindFirst rest,
        stream = .token head behindHead (.token opening behindOpening inside) ∧
        head.kind = .symbol ∧ opening.kind = .openParen ∧
        first.Spans inside behindFirst rest ∧ others.Spans rest after more

/-- A stream begins with the tokens behind an argument. -/
def Separated.Spans : Separated → TokenStream → Cursor → TokenStream → Prop
  | .close closing, stream, after, more =>
      stream = .token closing after more ∧ closing.kind = .closeParen
  | .comma separator next others, stream, after, more =>
      ∃ behindComma inside behindNext rest,
        stream = .token separator behindComma inside ∧ separator.kind = .comma ∧
        next.Spans inside behindNext rest ∧ others.Spans rest after more

end

theorem Derivation.spans_start (d : Derivation) {stream more : TokenStream} {after : Cursor}
    (h : d.Spans stream after more) : ∃ token behind tail, stream = .token token behind tail ∧
      (token.kind = .number ∨ token.kind = .string ∨ token.kind = .symbol) := by
  cases d with
  | number token => exact ⟨token, after, more, h.1, .inl h.2.1⟩
  | string token => exact ⟨token, after, more, h.1, .inr (.inl h.2)⟩
  | name token => exact ⟨token, after, more, h.1, .inr (.inr h.2.1)⟩
  | emptyCall head opening closing =>
      obtain ⟨a, b, rfl, hhead, _⟩ := h
      exact ⟨_, _, _, rfl, .inr (.inr hhead)⟩
  | call head opening first others =>
      obtain ⟨a, b, inside, c, rest, rfl, hhead, _⟩ := h
      exact ⟨_, _, _, rfl, .inr (.inr hhead)⟩

mutual

theorem Derivation.length_lt : (d : Derivation) → {stream more : TokenStream} → {after : Cursor} →
    d.Spans stream after more → more.length < stream.length
  | .number token, stream, more, after, h => by simp [h.1, TokenStream.length]
  | .string token, stream, more, after, h => by simp [h.1, TokenStream.length]
  | .name token, stream, more, after, h => by simp [h.1, TokenStream.length]
  | .emptyCall head opening closing, stream, more, after, h => by
      obtain ⟨a, b, rfl, _⟩ := h
      simp only [TokenStream.length]
      omega
  | .call head opening first others, stream, more, after, h => by
      obtain ⟨a, b, inside, c, rest, rfl, _, _, hfirst, hothers⟩ := h
      have := first.length_lt hfirst
      have := others.length_lt hothers
      simp only [TokenStream.length]
      omega

theorem Separated.length_lt : (s : Separated) → {stream more : TokenStream} → {after : Cursor} →
    s.Spans stream after more → more.length < stream.length
  | .close closing, stream, more, after, h => by simp [h.1, TokenStream.length]
  | .comma separator next others, stream, more, after, h => by
      obtain ⟨a, inside, b, rest, rfl, _, hnext, hothers⟩ := h
      have := next.length_lt hnext
      have := others.length_lt hothers
      simp only [TokenStream.length]
      omega

end

mutual

/-- The first token alone does not tell a name from a call; the token behind it does. -/
theorem Derivation.spans_unique : (d d' : Derivation) → {stream more more' : TokenStream} →
    {after after' : Cursor} → d.Spans stream after more → d'.Spans stream after' more' →
    d = d' ∧ after = after' ∧ more = more'
  | .number token, d', stream, more, more', after, after', h, h' => by
      obtain ⟨rfl, hkind, _⟩ := h
      cases d' <;> simp only [Derivation.Spans, TokenStream.token.injEq] at h' <;> grind
  | .string token, d', stream, more, more', after, after', h, h' => by
      obtain ⟨rfl, hkind⟩ := h
      cases d' <;> simp only [Derivation.Spans, TokenStream.token.injEq] at h' <;> grind
  | .name token, d', stream, more, more', after, after', h, h' => by
      obtain ⟨rfl, hkind, hends⟩ := h
      cases d' <;> simp only [Derivation.Spans, TokenStream.token.injEq] at h' <;>
        grind [TokenStream.EndsName]
  | .emptyCall head opening closing, d', stream, more, more', after, after', h, h' => by
      obtain ⟨a, b, rfl, hhead, hopening, hclosing⟩ := h
      cases d' with
      | call head' opening' first' others' =>
          obtain ⟨a', b', inside, c, rest, he, _, _, hfirst, _⟩ := h'
          cases he
          obtain ⟨first, behind, tail, he, hkind⟩ := first'.spans_start hfirst
          cases he
          simp [hclosing] at hkind
      | _ =>
          simp only [Derivation.Spans, TokenStream.token.injEq] at h'
          grind [TokenStream.EndsName]
  | .call head opening first others, d', stream, more, more', after, after', h, h' => by
      obtain ⟨a, b, inside, c, rest, rfl, hhead, hopening, hfirst, hothers⟩ := h
      cases d' with
      | emptyCall head' opening' closing' =>
          obtain ⟨a', b', he, _, _, hclosing⟩ := h'
          cases he
          obtain ⟨token, behind, tail, he, hkind⟩ := first.spans_start hfirst
          cases he
          simp [hclosing] at hkind
      | call head' opening' first' others' =>
          obtain ⟨a', b', inside', c', rest', he, _, _, hfirst', hothers'⟩ := h'
          cases he
          obtain ⟨rfl, rfl, rfl⟩ := Derivation.spans_unique first first' hfirst hfirst'
          obtain ⟨rfl, rfl, rfl⟩ := Separated.spans_unique others others' hothers hothers'
          exact ⟨rfl, rfl, rfl⟩
      | _ =>
          simp only [Derivation.Spans, TokenStream.token.injEq] at h'
          grind [TokenStream.EndsName]

theorem Separated.spans_unique : (s s' : Separated) → {stream more more' : TokenStream} →
    {after after' : Cursor} → s.Spans stream after more → s'.Spans stream after' more' →
    s = s' ∧ after = after' ∧ more = more'
  | .close closing, s', stream, more, more', after, after', h, h' => by
      obtain ⟨rfl, hkind⟩ := h
      cases s' <;> simp only [Separated.Spans, TokenStream.token.injEq] at h' <;> grind
  | .comma separator next others, s', stream, more, more', after, after', h, h' => by
      obtain ⟨a, inside, b, rest, rfl, hkind, hnext, hothers⟩ := h
      cases s' with
      | close closing =>
          simp only [Separated.Spans, TokenStream.token.injEq] at h'
          grind
      | comma separator' next' others' =>
          obtain ⟨a', inside', b', rest', he, hkind', hnext', hothers'⟩ := h'
          cases he
          obtain ⟨rfl, rfl, rfl⟩ := Derivation.spans_unique next next' hnext hnext'
          obtain ⟨rfl, rfl, rfl⟩ := Separated.spans_unique others others' hothers hothers'
          exact ⟨rfl, rfl, rfl⟩

end

end MacroScript
