import MacroScript.Proofs.Reading.Steps
import MacroScript.Proofs.Token.Stepwise

/-!
# Causes that do not occur

The wordings of parse errors, told apart by their first letters. A token of a
kind that may not stand where it stands is an error with a cause of its own for
each such kind, and one cause is for tokens of ignored characters. The reader
works on streams that pass these characters, so this cause is never given.
-/
namespace MacroScript

/-- No ignored character is blamed for an error, since ignored characters are passed. -/
theorem Reader.isLegal_of_read {nesting : Nesting} {reader : Reader} {cursor resume : Cursor}
    {error : ParseError}
    (h : reader.read nesting (.ofCursor true cursor) = .failure error resume) :
    error.cause.isLegal = true := by
  generalize hstream : TokenStream.ofCursor true cursor = stream at h
  induction stream generalizing reader cursor with
  | finished stop =>
      unfold read finish at h
      split at h
      · cases h
      · cases h
      · cases h
        rfl
  | unterminated opening stop =>
      cases h
      rfl
  | token token after more ih =>
      obtain ⟨-, -, hlegal, hgoes⟩ := TokenStream.scan_of_token hstream
      have hstep : reader.StepsTo token after (reader.take nesting token after) :=
        stepsTo_take reader
      unfold read at h
      split at h
      · exact ih (TokenStream.endsAt_of_ofCursor hstream).2.symm h
      · cases h
      · cases h
      · rename_i htake
        rw [htake] at hstep
        cases h
        cases hstep with
        | failure hblamed _ =>
            by_contra hillegal
            obtain hkind | hkind := hblamed (Bool.eq_false_iff.mpr hillegal)
            · exact hlegal hkind
            · exact hgoes hkind

namespace ParseCause

/-- The letters by which most messages are told apart. -/
def opening (message : String) : List Char := message.toList.take 7

theorem opening_append {start : String} (h : 7 ≤ start.toList.length) (text : String) :
    opening (start ++ text) = opening start := by
  unfold opening
  rw [String.toList_append, List.take_append_of_le_length h]

theorem ne_of_opening {message other : String} (h : opening message ≠ opening other) :
    message ≠ other := fun he => h (congrArg opening he)

/-- The messages of the branches that are never taken. -/
def IsUnused (message : String) : Prop :=
  message = "found unexpected end of file" ∨
    message = "could not parse int: InvalidCharacter" ∨
    ∃ text, message = "found illegal token: " ++ text

theorem not_isUnused {message : String} (hend : message ≠ "found unexpected end of file")
    (hint : message ≠ "could not parse int: InvalidCharacter")
    (hillegal : opening message ≠ opening "found illegal token: ") : ¬ IsUnused message := by
  rintro (h | h | ⟨text, h⟩)
  · exact hend h
  · exact hint h
  · apply hillegal
    rw [h]
    exact opening_append (by decide) text

/-- A message that goes on with a text of the source is told by how it begins. -/
theorem not_isUnused_append {start : String} (hlength : 7 ≤ start.toList.length)
    (h : ∀ other ∈ ["found unexpected end of file", "could not parse int: InvalidCharacter",
      "found illegal token: "], opening start ≠ opening other) (text : String) :
    ¬ IsUnused (start ++ text) := by
  have hopening := opening_append hlength text
  apply not_isUnused
  · exact ne_of_opening (hopening ▸ h _ (by simp))
  · exact ne_of_opening (hopening ▸ h _ (by simp))
  · exact hopening ▸ h _ (by simp)

theorem not_isUnused_message {cause : ParseCause} (h : cause.isLegal = true) :
    ¬ IsUnused cause.message := by
  cases cause with
  | unterminatedString | intOverflow | adjacentExpressions | commaForArgument | parenForArgument
  | openParenInCall | unclosedCall => exact not_isUnused (by decide) (by decide) (by decide)
  | illegalToken text => cases h
  | strayToken text =>
      have hmessage : (strayToken text).message =
          "expression cannot start with '" ++ (text ++ "'") :=
        String.append_assoc
      rw [hmessage]
      exact not_isUnused_append (by decide) (by decide) _
  | missingSeparator text =>
      have hmessage : (missingSeparator text).message =
          "tried to parse argument `" ++ (text ++ "` as function separator or delimiter") :=
        String.append_assoc
      rw [hmessage]
      exact not_isUnused_append (by decide) (by decide) _
  | nestedTooDeep limit =>
      have hmessage : (nestedTooDeep limit).message =
          "expression nesting exceeds maximum depth of " ++ toString limit := rfl
      rw [hmessage]
      exact not_isUnused_append (by decide) (by decide) _

end ParseCause

end MacroScript
