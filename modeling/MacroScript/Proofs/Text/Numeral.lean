import MacroScript.Proofs.Text.SpelledInteger
import MacroScript.Reading.Basic

/-!
# Rows of ASCII digits

The digits of a number in a program are ASCII digits. Such a row, if it is not
too long to be read at all, spells an integer, and the value is the one that the
reader of programs gives to the row.
-/
namespace MacroScript

namespace Text

variable {c : Char} {digits : List Char}

theorem toNat_of_isDigit (h : c.isDigit = true) : 0x30 ≤ c.toNat ∧ c.toNat < 0x3A := by
  simp only [Char.isDigit, Bool.and_eq_true, decide_eq_true_eq, ge_iff_le,
    UInt32.le_iff_toNat_le] at h
  have hle : c.val.toNat ≤ 0x39 := h.2
  exact ⟨h.1, Nat.lt_succ_of_le hle⟩

theorem digitValue?_of_isDigit (h : c.isDigit = true) :
    digitValue? c = some (c.toNat - '0'.toNat) := by
  obtain ⟨hle, hlt⟩ := toNat_of_isDigit h
  have hfirst : (decide (0x30 ≤ c.toNat) && decide (c.toNat < 0x30 + 10)) = true := by
    simp [hle, hlt]
  obtain ⟨zeros, hzeros⟩ : ∃ zeros, digitZeros = 0x30 :: zeros := ⟨_, rfl⟩
  simp only [digitValue?, hzeros, List.find?_cons, hfirst]
  rfl

theorem digitRow_of_isDigit (hne : digits ≠ []) (h : ∀ c ∈ digits, c.isDigit = true) :
    DigitRow digits (digits.map fun c => c.toNat - '0'.toNat) := by
  induction digits with
  | nil => exact absurd rfl hne
  | cons c digits ih =>
      have hc := digitValue?_of_isDigit (h c List.mem_cons_self)
      rcases digits with - | ⟨c', digits⟩
      · exact .last hc
      · exact .next hc (ih nofun fun d hd => h d (List.mem_cons_of_mem c hd))

theorem integer?_of_isDigit (hne : digits ≠ []) (h : ∀ c ∈ digits, c.isDigit = true)
    (hlength : digits.length ≤ maxDigits) :
    integer? (String.ofList digits) = some (Token.digitsValue digits : Int) := by
  have hrow := digitRow_of_isDigit hne h
  have hread := (Numeral.behindZeros 0 hrow).integer?_eq
  rw [if_pos (by rwa [Numeral.length_digits_behindZeros, Nat.zero_add, List.length_map]),
    Numeral.value_behindZeros, ← valueOf_eq_ofDigits, valueOf, List.foldl_map] at hread
  exact hread

end Text

end MacroScript
