import MacroScript.Reading.Basic
import Mathlib.Tactic.SplitIfs

/-!
# What a token does to a reader

All that one token can do to a reader, whatever the token and the reader are: an
expression has begun and reading goes on, or one is complete, or there is an
error. It also says where reading restarts then, and which tokens are blamed as
ignored characters. What every step preserves is read off from here, with no
need to look at the kinds of tokens again.
-/
namespace MacroScript

/-- Whether the cause is anything but an ignored character. -/
def ParseCause.isLegal : ParseCause → Bool
  | .illegalToken _ => false
  | _ => true

namespace Reader

/-- The reader knows that an expression has begun. -/
def HasBegun (reader : Reader) : Prop := reader.calls ≠ [] ∨ reader.head ≠ none

/-- Reading restarts behind the token, or where it would have restarted before the token if an
expression had begun. -/
def RestartsAt (reader : Reader) (after resume : Cursor) : Prop :=
  resume = after ∨ reader.HasBegun ∧ resume = reader.resume

/-- What a token in front of a cursor does. -/
inductive StepsTo (reader : Reader) (token : Token) (after : Cursor) : ReaderStep → Prop
  | next {later : Reader} : later.HasBegun → reader.RestartsAt after later.resume →
      StepsTo reader token after (.next later)
  | complete (result : Expr) : StepsTo reader token after (.complete result after)
  | completeBefore (result : Expr) : reader.HasBegun →
      StepsTo reader token after (.completeBefore result reader.resume)
  | failure {error : ParseError} {resume : Cursor} :
      (error.cause.isLegal = false → token.kind = .illegal ∨ token.kind = .finish) →
      reader.RestartsAt after resume → StepsTo reader token after (.failure error resume)

variable {nesting : Nesting} {reader reader' : Reader} {token : Token} {after : Cursor}
  {step : ReaderStep}

theorem StepsTo.mono (h : reader'.StepsTo token after step)
    (hbegun : reader'.HasBegun → reader.HasBegun) (hresume : reader'.resume = reader.resume) :
    reader.StepsTo token after step := by
  have hrestarts : ∀ {resume},
      reader'.RestartsAt after resume → reader.RestartsAt after resume := by
    intro resume hrestarts
    obtain h | ⟨hb, h⟩ := hrestarts
    · exact .inl h
    · exact .inr ⟨hbegun hb, h.trans hresume⟩
  cases h with
  | next hlater h => exact .next hlater (hrestarts h)
  | complete result => exact .complete result
  | completeBefore result hb =>
      rw [hresume]
      exact .completeBefore result (hbegun hb)
  | failure hlegal h => exact .failure hlegal (hrestarts h)

theorem restartsAt_behind (reader : Reader) (after : Cursor) :
    reader.RestartsAt after (reader.behind after) := by
  unfold behind
  split_ifs with hcalls
  · exact .inl rfl
  · refine .inr ⟨.inl ?_, rfl⟩
    intro hnil
    rw [hnil] at hcalls
    exact hcalls (Nat.zero_le 1)

theorem StepsTo.legal {error : ParseError} (h : error.cause.isLegal = true) :
    reader.StepsTo token after (.failure error (reader.behind after)) := by
  refine .failure (fun hillegal => ?_) (reader.restartsAt_behind after)
  rw [h] at hillegal
  cases hillegal

theorem stepsTo_deliver (reader : Reader) (result : Expr) :
    reader.StepsTo token after (reader.deliver result after) := by
  unfold deliver
  split
  · exact .complete result
  · exact .next (.inl (List.cons_ne_nil _ _)) (reader.restartsAt_behind after)

theorem isLegal_of_refusal {cause : ParseCause} (h : reader.refusal nesting token = some cause) :
    cause.isLegal = true := by
  unfold refusal at h
  split at h
  · cases h
  · split_ifs at h
    · cases h
      rfl
    · cases h
      rfl

theorem isLegal_of_atom {error : ParseError} (h : token.atom = .error error) :
    error.cause.isLegal = true := by
  unfold Token.atom at h
  dsimp only at h
  split at h
  · split_ifs at h
    cases h
    rfl
  · cases h
  · cases h

theorem stepsTo_startExpr (reader : Reader) :
    reader.StepsTo token after (reader.startExpr nesting token after) := by
  unfold startExpr
  split
  · rename_i hrefusal
    exact .legal (isLegal_of_refusal hrefusal)
  · split_ifs
    · exact .next (.inr (Option.some_ne_none token)) (reader.restartsAt_behind after)
    · split
      · rename_i hatom
        exact .legal (isLegal_of_atom hatom)
      · exact stepsTo_deliver reader _

theorem stepsTo_takeFresh (reader : Reader) :
    reader.StepsTo token after (reader.takeFresh nesting token after) := by
  unfold takeFresh
  split
  case h_1 | h_2 | h_3 => exact stepsTo_startExpr reader
  case h_4 hkind => exact .failure (fun _ => .inl hkind) (reader.restartsAt_behind after)
  case h_5 hkind => exact .failure (fun _ => .inr hkind) (reader.restartsAt_behind after)
  case h_6 | h_7 => exact .legal rfl
  case h_8 =>
    split_ifs
    · exact .legal rfl
    · exact .next (.inl (List.cons_ne_nil _ _)) (reader.restartsAt_behind after)
  case h_9 hcalls =>
    split_ifs
    · exact .legal rfl
    · refine (stepsTo_deliver _ _).mono (fun _ => .inl ?_) rfl
      rw [hcalls]
      exact List.cons_ne_nil _ _

theorem stepsTo_take (reader : Reader) :
    reader.StepsTo token after (reader.take nesting token after) := by
  unfold take
  split
  · exact stepsTo_takeFresh reader
  · rename_i symbol hhead
    have hbegun : reader.HasBegun := .inr (by rw [hhead]; exact Option.some_ne_none symbol)
    split
    · refine .next (.inl (List.cons_ne_nil _ _)) ?_
      dsimp only
      split_ifs
      · exact .inl rfl
      · exact .inr ⟨hbegun, rfl⟩
    · split
      · exact .completeBefore _ hbegun
      · exact (stepsTo_takeFresh _).mono (fun _ => hbegun) rfl
    · split
      · exact .completeBefore _ hbegun
      · exact (stepsTo_takeFresh _).mono (fun _ => hbegun) rfl
    · refine .failure (fun hillegal => ?_) (.inr ⟨hbegun, rfl⟩)
      unfold Token.adjacentError at hillegal
      split at hillegal
      · exact .inl ‹_›
      · cases hillegal

end Reader

end MacroScript
