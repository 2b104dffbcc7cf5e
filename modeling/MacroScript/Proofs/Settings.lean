import MacroScript.Proofs.Text.SpelledInteger
import MacroScript.Settings

/-!
# Usable limits

A setting is the number that its text spells. Nothing else that a text may
contain has an effect, and so no text makes a depth or a limit of a scope that
leaves no room: a depth is at least one, and a scope has no limit or one of at
least one.
-/
namespace MacroScript

/-- The text under a name spells an integer, in a row that is short enough to be read. -/
def SettingTexts.Spells (texts : SettingTexts) (name : String) (n : Int) : Prop :=
  ∃ text, texts.lookup name = some text ∧
    ∃ numeral : Text.Numeral text, numeral.digits.length ≤ Text.maxDigits ∧ numeral.value = n

namespace Settings

variable {texts : SettingTexts} {name : String} {default : Int}

theorem spells_iff {n : Int} :
    texts.Spells name n ↔ (texts.lookup name).bind Text.integer? = some n := by
  rw [Option.bind_eq_some_iff]
  refine exists_congr fun text => and_congr_right fun _ => ⟨?_, Text.exists_numeral_of_integer?⟩
  rintro ⟨numeral, hlength, rfl⟩
  rw [numeral.integer?_eq, if_pos hlength]

theorem number_eq : number texts name default =
    (((texts.lookup name).bind Text.integer?).filter (0 ≤ ·)).getD default := by
  unfold number numberOr
  cases texts.lookup name with
  | none => rfl
  | some text =>
      rw [Option.bind_some]
      cases hread : Text.integer? text with
      | none => simp only [hread, Option.filter_none, Option.getD_none]
      | some n =>
          simp only [hread, Option.filter_some, decide_eq_true_eq]
          split
          · rfl
          · rfl

theorem number_of_spells {n : Nat} (h : texts.Spells name n) : number texts name default = n := by
  rw [number_eq, spells_iff.mp h]
  rfl

theorem number_of_forall_not_spells (h : ∀ n : Nat, ¬ texts.Spells name n) :
    number texts name default = default := by
  rw [number_eq]
  cases hread : (texts.lookup name).bind Text.integer? with
  | none => rfl
  | some n =>
      have hneg : ¬ 0 ≤ n := fun hn =>
        h n.toNat (spells_iff.mpr (by rw [hread, Int.toNat_of_nonneg hn]))
      rw [Option.filter_some, if_neg (by simpa using hneg), Option.getD_none]

theorem number_of_long_row {text : String} (hlookup : texts.lookup name = some text)
    (numeral : Text.Numeral text) (hlength : Text.maxDigits < numeral.digits.length) :
    number texts name default = default := by
  rw [number_eq, hlookup, Option.bind_some, numeral.integer?_eq,
    if_neg (Nat.not_le_of_lt hlength)]
  rfl

theorem depth_pos (h : 0 < default) : 0 < depth texts name default := by
  have hnumber := number_nonneg (Int.le_of_lt h) texts name
  simp only [depth]
  split
  · exact h
  · omega

theorem depth_of_spells {n : Nat} (h : texts.Spells name n) :
    depth texts name default = if n = 0 then default else n := by
  simp only [depth, number_of_spells h, Int.natCast_eq_zero]

theorem limit_of_spells {n : Nat} (h : texts.Spells name n) :
    limit texts name default = if n = 0 then none else some (n : Int) := by
  simp only [limit, number_of_spells h, Int.natCast_eq_zero]

/-- A setting is the natural number that its text spells, and the default if the text spells none
or is missing, and also if it spells one with too many digits. So a depth leaves room for one level
at least, and a scope has no limit or one of at least one. A spelled number is the depth or the
limit itself, but zero stands for the default depth and for a scope without a limit. -/
theorem ofTexts_usable (texts : SettingTexts) :
    (∀ name default, ∀ n : Nat, texts.Spells name n → number texts name default = n) ∧
    (∀ name default, (∀ n : Nat, ¬ texts.Spells name n) → number texts name default = default) ∧
    (∀ name default text (numeral : Text.Numeral text), texts.lookup name = some text →
      Text.maxDigits < numeral.digits.length → number texts name default = default) ∧
    (1 ≤ (ofTexts texts).evalDepth ∧ 1 ≤ (ofTexts texts).parseDepth) ∧
    ((∀ limit ∈ (ofTexts texts).scratchLimit, 1 ≤ limit) ∧
      ∀ limit ∈ (ofTexts texts).arenaLimit, 1 ≤ limit) ∧
    (∀ n : Nat, texts.Spells "EMBER_MAX_EVAL_DEPTH" n →
      (ofTexts texts).evalDepth = if n = 0 then defaultEvalDepth else n) ∧
    (∀ n : Nat, texts.Spells "EMBER_MAX_PARSE_DEPTH" n →
      (ofTexts texts).parseDepth = if n = 0 then defaultParseDepth else n) ∧
    (∀ n : Nat, texts.Spells "EMBER_SCRATCH_LIMIT" n →
      (ofTexts texts).scratchLimit = if n = 0 then none else some (n : Int)) ∧
    (∀ n : Nat, texts.Spells "EMBER_ARENA_LIMIT" n →
      (ofTexts texts).arenaLimit = if n = 0 then none else some (n : Int)) := by
  refine ⟨fun _ _ _ => number_of_spells, fun _ _ => number_of_forall_not_spells,
    fun _ _ _ numeral hlookup => number_of_long_row hlookup numeral,
    ⟨depth_pos (by decide), depth_pos (by decide)⟩,
    ⟨fun _ hlimit => limit_pos (by decide) _ _ hlimit,
      fun _ hlimit => limit_pos (by decide) _ _ hlimit⟩,
    fun _ => depth_of_spells, fun _ => depth_of_spells,
    fun _ => limit_of_spells, fun _ => limit_of_spells⟩

/-- A number spelled in two scripts, a text that spells none, a row of too many zeros, and zeros for
all limits. -/
theorem ofTexts_usable_spellings :
    let mixed : SettingTexts := [("EMBER_MAX_EVAL_DEPTH", " +0_2\u0663\u2003")]
    let doubled : SettingTexts := [("EMBER_SCRATCH_LIMIT", "2__3")]
    let padded : SettingTexts :=
      [("EMBER_ARENA_LIMIT", String.ofList (List.replicate 4300 '0' ++ ['0']))]
    let zeros : SettingTexts := [("EMBER_MAX_EVAL_DEPTH", "0"), ("EMBER_MAX_PARSE_DEPTH", "-0"),
      ("EMBER_SCRATCH_LIMIT", "0_0"), ("EMBER_ARENA_LIMIT", " +000 ")]
    (mixed.Spells "EMBER_MAX_EVAL_DEPTH" 23 ∧ number mixed "EMBER_MAX_EVAL_DEPTH" 7 = 23) ∧
      ((∀ n : Nat, ¬ doubled.Spells "EMBER_SCRATCH_LIMIT" n) ∧
        number doubled "EMBER_SCRATCH_LIMIT" 7 = 7) ∧
      number padded "EMBER_ARENA_LIMIT" 7 = 7 ∧
      (ofTexts zeros).evalDepth = 150 ∧ (ofTexts zeros).parseDepth = 200 ∧
      (ofTexts zeros).scratchLimit = none ∧ (ofTexts zeros).arenaLimit = none := by
  intro mixed doubled padded zeros
  have hmixed : mixed.Spells "EMBER_MAX_EVAL_DEPTH" 23 :=
    spells_iff.mpr (by unfold mixed; decide +kernel)
  have hdoubled : ∀ n : Nat, ¬ doubled.Spells "EMBER_SCRATCH_LIMIT" n := by
    intro n h
    have hread : (doubled.lookup "EMBER_SCRATCH_LIMIT").bind Text.integer? = none := by
      unfold doubled
      decide +kernel
    exact nomatch hread.symm.trans (spells_iff.mp h)
  have hzero : ∀ name ∈ zeros.map Prod.fst, (zeros.lookup name).bind Text.integer? = some 0 := by
    unfold zeros
    decide +kernel
  obtain ⟨-, -, -, -, -, heval, hparse, hscratch, harena⟩ := ofTexts_usable zeros
  refine ⟨⟨hmixed, (ofTexts_usable mixed).1 _ 7 23 hmixed⟩,
    ⟨hdoubled, (ofTexts_usable doubled).2.1 _ 7 hdoubled⟩, ?_,
    heval 0 (spells_iff.mpr (hzero _ (by simp [zeros]))),
    hparse 0 (spells_iff.mpr (hzero _ (by simp [zeros]))),
    hscratch 0 (spells_iff.mpr (hzero _ (by simp [zeros]))),
    harena 0 (spells_iff.mpr (hzero _ (by simp [zeros])))⟩
  have hrow : Text.DigitRow ['0'] [0] := .last (by decide)
  refine (ofTexts_usable padded).2.2.1 _ 7 _ (.behindZeros 4300 hrow) List.lookup_cons_self ?_
  rw [Text.Numeral.length_digits_behindZeros]
  decide

/-- The value of a row with too many digits has no effect, zeros at the front or not. -/
theorem number_five_behind_zeros :
    (∃ numeral : Text.Numeral (String.ofList (List.replicate 4300 '0' ++ ['5'])),
      numeral.value = 5) ∧
    number [("EMBER_MAX_EVAL_DEPTH", String.ofList (List.replicate 4300 '0' ++ ['5']))]
      "EMBER_MAX_EVAL_DEPTH" 7 = 7 := by
  have hrow : Text.DigitRow ['5'] [5] := .last (by decide)
  refine ⟨⟨.behindZeros 4300 hrow, Text.Numeral.value_behindZeros 4300 hrow⟩, ?_⟩
  refine number_of_long_row List.lookup_cons_self (.behindZeros 4300 hrow) ?_
  rw [Text.Numeral.length_digits_behindZeros]
  decide

end Settings
end MacroScript
