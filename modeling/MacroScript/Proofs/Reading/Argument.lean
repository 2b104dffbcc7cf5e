import MacroScript.Proofs.Reading.Progress

/-!
# Readers of arguments

What a reader does while a call is open around the expression that it reads is
what a reader of its own would do there, one level deeper: the same expression,
handed to the call, or the same error. Only the place where reading restarts
after the error is another one. A reader of its own goes behind the last token
that was taken in its outermost call, and inside a call it stays behind the
first token of the argument.
-/
namespace MacroScript

/-- The nesting inside a call. -/
def Nesting.deeper (nesting : Nesting) : Nesting := ⟨nesting.limit, nesting.base + 1⟩

namespace Reader

variable {nesting : Nesting} {outer : OpenCall} {back resume after : Cursor} {token : Token}
  {calls : List OpenCall} {head : Option Token}

/-- The reader with one more call around the others. -/
def enclosed (outer : OpenCall) (back : Cursor) (reader : Reader) : Reader :=
  ⟨reader.calls ++ [outer], reader.head, back⟩

end Reader

/-- What a token does inside a call if it does this to a reader of its own. -/
def ReaderStep.enclosed (nesting : Nesting) (outer : OpenCall) (back : Cursor) (token : Token)
    (after : Cursor) : ReaderStep → ReaderStep
  | .next reader => .next (reader.enclosed outer back)
  | .complete result after => .next ⟨[outer.push result], none, after⟩
  | .completeBefore result _ =>
      Reader.takeFresh nesting ⟨[outer.push result], none, back⟩ token after
  | .failure error _ => .failure error back

/-- What is found inside a call if a reader of its own finds this. -/
def Reading.enclosed (nesting : Nesting) (outer : OpenCall) (back : Cursor) : Reading → Reading
  | .value result after more => Reader.read nesting ⟨[outer.push result], none, after⟩ more
  | .nothing stop => .nothing stop
  | .failure error _ => .failure error back

namespace Reader

variable {nesting : Nesting} {outer : OpenCall} {back resume after : Cursor} {token : Token}
  {calls : List OpenCall} {call : OpenCall} {head : Option Token}

theorem behind_of_two_le {reader : Reader} (h : 2 ≤ reader.calls.length) (after : Cursor) :
    reader.behind after = reader.resume := by
  unfold behind
  rw [if_neg]
  omega

theorem deliver_enclosed (e : Expr) :
    deliver ⟨calls ++ [outer], none, back⟩ e after =
      (deliver ⟨calls, none, resume⟩ e after).enclosed nesting outer back token after := by
  cases calls with
  | nil => rfl
  | cons call calls =>
      have hbehind : behind ⟨call :: calls ++ [outer], none, back⟩ after = back :=
        behind_of_two_le (by simp) after
      rw [List.cons_append] at hbehind ⊢
      simp only [deliver, hbehind, ReaderStep.enclosed, enclosed, List.cons_append]

theorem refusal_enclosed (resume : Cursor) :
    refusal nesting ⟨call :: calls ++ [outer], none, back⟩ token =
      refusal nesting.deeper ⟨call :: calls, none, resume⟩ token := by
  have hlevel : nesting.limit ≤ nesting.base + ((calls ++ [outer]).length : Int) ↔
      nesting.limit ≤ nesting.base + 1 + (calls.length : Int) := by
    rw [List.length_append, List.length_singleton]
    omega
  exact if_congr Iff.rfl rfl (if_congr hlevel rfl rfl)

theorem startExpr_enclosed (resume : Cursor) :
    startExpr nesting ⟨call :: calls ++ [outer], none, back⟩ token after =
      (startExpr nesting.deeper ⟨call :: calls, none, resume⟩ token after).enclosed nesting outer
        back token after := by
  have hbehind : behind ⟨call :: calls ++ [outer], none, back⟩ after = back :=
    behind_of_two_le (by simp) after
  unfold startExpr
  rw [refusal_enclosed resume, hbehind]
  cases refusal nesting.deeper ⟨call :: calls, none, resume⟩ token with
  | some cause => rfl
  | none =>
      dsimp only
      split_ifs
      · rfl
      · cases token.atom with
        | error error => rfl
        | ok e => exact deliver_enclosed e

theorem takeFresh_enclosed :
    takeFresh nesting ⟨call :: calls ++ [outer], none, back⟩ token after =
      (takeFresh nesting.deeper ⟨call :: calls, none, resume⟩ token after).enclosed nesting outer
        back token after := by
  have hbehind : behind ⟨call :: calls ++ [outer], none, back⟩ after = back :=
    behind_of_two_le (by simp) after
  cases hkind : token.kind with
  | symbol | number | string =>
      simp only [takeFresh, hkind]
      exact startExpr_enclosed resume
  | illegal | finish | openParen =>
      simp only [takeFresh, hkind, List.cons_append] at hbehind ⊢
      rw [hbehind]
      rfl
  | comma =>
      simp only [takeFresh, hkind, List.cons_append] at hbehind ⊢
      rw [hbehind]
      split_ifs <;> rfl
  | closeParen =>
      simp only [takeFresh, hkind, List.cons_append] at hbehind ⊢
      rw [hbehind]
      split_ifs
      · rfl
      · exact deliver_enclosed call.close

theorem take_enclosed {reader : Reader} (hbegun : reader.HasBegun) :
    (reader.enclosed outer back).take nesting token after =
      (reader.take nesting.deeper token after).enclosed nesting outer back token after := by
  obtain ⟨calls, head, resume⟩ := reader
  cases head with
  | none =>
      cases calls with
      | nil => exact absurd hbegun (by simp [HasBegun])
      | cons call calls => exact takeFresh_enclosed
  | some symbol =>
      cases hkind : token.kind with
      | openParen => cases calls <;> simp [take, enclosed, hkind, ReaderStep.enclosed]
      | closeParen | comma =>
          cases calls with
          | nil => simp only [take, enclosed, hkind, List.nil_append, ReaderStep.enclosed]
          | cons call calls =>
              simp only [take, enclosed, hkind, List.cons_append]
              exact takeFresh_enclosed
      | symbol | number | string | finish | illegal =>
          simp only [take, enclosed, hkind, ReaderStep.enclosed]

theorem hasBegun_of_take {reader later : Reader}
    (h : reader.take nesting token after = .next later) : later.HasBegun := by
  have hstep : reader.StepsTo token after (.next later) := h ▸ stepsTo_take reader
  cases hstep with
  | next hbegun _ => exact hbegun

theorem read_enclosed {reader : Reader} (hbegun : reader.HasBegun) (stream : TokenStream) :
    (reader.enclosed outer back).read nesting stream =
      (reader.read nesting.deeper stream).enclosed nesting outer back := by
  induction stream generalizing reader with
  | finished stop =>
      obtain ⟨calls, head, resume⟩ := reader
      cases calls with
      | nil =>
          cases head with
          | none => exact absurd hbegun (by simp [HasBegun])
          | some symbol => rfl
      | cons call calls =>
          have hbehind : behind ⟨call :: calls ++ [outer], head, back⟩ stop = back :=
            behind_of_two_le (by simp) stop
          rw [List.cons_append] at hbehind
          simp only [read, finish, enclosed, List.cons_append, hbehind, Reading.enclosed]
  | unterminated opening stop =>
      obtain ⟨calls, head, resume⟩ := reader
      cases head with
      | some symbol => rfl
      | none =>
          cases calls with
          | nil => exact absurd hbegun (by simp [HasBegun])
          | cons call calls =>
              have hbehind : behind ⟨call :: calls ++ [outer], none, back⟩ stop = back :=
                behind_of_two_le (by simp) stop
              simp only [read, breakOff, enclosed, hbehind, Reading.enclosed, Option.isSome_none,
                Bool.false_eq_true, if_false]
  | token token after more ih =>
      rw [read, read, take_enclosed hbegun]
      cases hstep : reader.take nesting.deeper token after with
      | next later => exact ih (hasBegun_of_take hstep)
      | complete e behind => rfl
      | completeBefore e before =>
          have hone : [outer.push e].length ≤ 1 := Nat.le_refl 1
          exact read_resume hone back before (.token token after more)
      | failure error resume => rfl

/-- An argument is read as by a reader of its own, from its first token on. -/
theorem read_argument (hawaiting : outer.awaiting = true) (hroom : nesting.base < nesting.limit)
    (hkind : token.kind = .symbol ∨ token.kind = .number ∨ token.kind = .string)
    (resume place : Cursor) (more : TokenStream) :
    read nesting ⟨[outer], none, resume⟩ (.token token after more) =
      ((start place).read nesting.deeper (.token token after more)).enclosed nesting outer
        after := by
  have hrefusal : refusal nesting ⟨[outer], none, resume⟩ token = none := by
    have hlevel : ¬ nesting.limit ≤ nesting.base + (([] : List OpenCall).length : Int) := by
      rw [List.length_nil]
      omega
    simp only [refusal, hawaiting, Bool.not_true, Bool.false_eq_true, if_false, if_neg hlevel]
  have hfirst : take nesting ⟨[outer], none, resume⟩ token after =
      startExpr nesting ⟨[outer], none, resume⟩ token after := by
    obtain hkind | hkind | hkind := hkind <;> simp only [take, takeFresh, hkind]
  have hown : (start place).take nesting.deeper token after =
      (start place).startExpr nesting.deeper token after := by
    obtain hkind | hkind | hkind := hkind <;> simp only [take, takeFresh, start, hkind]
  rw [read, read, hfirst, hown, startExpr, startExpr, hrefusal]
  simp only [refusal, start]
  split_ifs
  · have hbegun : HasBegun ⟨[], some token, after⟩ := .inr (Option.some_ne_none token)
    exact read_enclosed hbegun more
  · cases token.atom with
    | error error => rfl
    | ok e => rfl

end Reader
end MacroScript
