import MacroScript.Text.Numeral

/-!
# Settings

The limits of a session as its surroundings set them: four named texts, each of
which should spell a number that is not negative. A text that is missing, empty
or spells nothing of the kind leaves the default in force. Zero stands for the
default depth and for a scope without a limit.
-/
namespace MacroScript

/-- The named texts that set the limits. -/
abbrev SettingTexts := List (String × String)

structure Settings where
  evalDepth : Int
  parseDepth : Int
  scratchLimit : Option Int
  arenaLimit : Option Int
  deriving Repr

namespace Settings

def defaultEvalDepth : Int := 150
def defaultParseDepth : Int := 200
def defaultScratchLimit : Int := 1048576
def defaultArenaLimit : Int := 0

/-- The number that a text spells, or the default. -/
def numberOr (default : Int) (text : String) : Int :=
  match Text.integer? text with
  | some n => if 0 ≤ n then n else default
  | none => default

/-- The number set under a name, or the default. -/
def number (texts : SettingTexts) (name : String) (default : Int) : Int :=
  match texts.lookup name with
  | some text => numberOr default text
  | none => default

/-- A depth is at least one. -/
def depth (texts : SettingTexts) (name : String) (default : Int) : Int :=
  let n := number texts name default
  if n = 0 then default else n

/-- Zero disables a limit. -/
def limit (texts : SettingTexts) (name : String) (default : Int) : Option Int :=
  let n := number texts name default
  if n = 0 then none else some n

def ofTexts (texts : SettingTexts) : Settings where
  evalDepth := depth texts "EMBER_MAX_EVAL_DEPTH" defaultEvalDepth
  parseDepth := depth texts "EMBER_MAX_PARSE_DEPTH" defaultParseDepth
  scratchLimit := limit texts "EMBER_SCRATCH_LIMIT" defaultScratchLimit
  arenaLimit := limit texts "EMBER_ARENA_LIMIT" defaultArenaLimit

section Signs

variable {default : Int} (h : 0 ≤ default) (texts : SettingTexts) (name : String)
include h

theorem numberOr_nonneg (text : String) : 0 ≤ numberOr default text := by
  unfold numberOr
  split
  · split
    · assumption
    · exact h
  · exact h

theorem number_nonneg : 0 ≤ number texts name default := by
  unfold number
  split
  · exact numberOr_nonneg h _
  · exact h

theorem limit_pos {n : Int} (hlimit : limit texts name default = some n) : 0 < n := by
  have hnumber := number_nonneg h texts name
  simp only [limit, Option.ite_none_left_eq_some, Option.some.injEq] at hlimit
  omega

end Signs

end Settings
end MacroScript
