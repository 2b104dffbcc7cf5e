import MacroScript.Proofs.Reading.Derivation
import MacroScript.Reading.Program

/-!
# Reading on

What a program gains from one answer of the reader: an expression in front of
what is read behind it, or its end. A token that may follow a name outside of
all calls begins no expression, so a program ends there.
-/
namespace MacroScript

/-- The error at which reading stops if it goes on behind an answer of the reader. -/
def Reading.errorOnward (nesting : Nesting) : Reading → Option ParseError
  | .value _ after more => (Program.ofStream nesting after more).error
  | .nothing _ => none
  | .failure error _ => some error

/-- The expressions that are read if reading goes on behind an answer of the reader. -/
def Reading.exprsOnward (nesting : Nesting) : Reading → List Expr
  | .value e after more => e :: (Program.ofStream nesting after more).exprs
  | .nothing _ | .failure _ _ => []

variable {nesting : Nesting} {cursor after : Cursor} {stream more : TokenStream} {e : Expr}

theorem Reader.read_of_endsName {next : Token} {behind : Cursor} {tail : TokenStream}
    (h : next.kind = .closeParen ∨ next.kind = .comma) :
    (start cursor).read nesting (.token next behind tail) =
      .failure ⟨next.location, .strayToken next.text⟩ behind := by
  rcases h with h | h <;> simp only [read, take, takeFresh, start, h] <;> rfl

namespace Program

theorem error_ofStream : (ofStream nesting cursor stream).error =
    ((Reader.start cursor).read nesting stream).errorOnward nesting := by
  rw [ofStream]
  split <;> rename_i h <;> rw [h] <;> rfl

theorem exprs_onward : (ofStream nesting cursor stream).exprs =
    ((Reader.start cursor).read nesting stream).exprsOnward nesting := by
  rw [ofStream]
  split <;> rename_i h <;> rw [h] <;> rfl

theorem exprs_of_value (h : (Reader.start cursor).read nesting stream = .value e after more) :
    (ofStream nesting cursor stream).exprs = e :: (ofStream nesting after more).exprs := by
  rw [exprs_onward, h]
  rfl

theorem exprs_of_nothing {stop : Cursor}
    (h : (Reader.start cursor).read nesting stream = .nothing stop) :
    (ofStream nesting cursor stream).exprs = [] := by
  rw [exprs_onward, h]
  rfl

theorem exprs_of_failure {error : ParseError} {resume : Cursor}
    (h : (Reader.start cursor).read nesting stream = .failure error resume) :
    (ofStream nesting cursor stream).exprs = [] := by
  rw [exprs_onward, h]
  rfl

theorem exprs_of_endsName (h : stream.EndsName) : (ofStream nesting cursor stream).exprs = [] := by
  cases stream with
  | token next behind tail => exact exprs_of_failure (Reader.read_of_endsName h)
  | finished stop => exact exprs_of_nothing rfl
  | unterminated => exact h.elim

end Program

end MacroScript
