import MacroScript.Proofs.Reading.Program
import MacroScript.Proofs.Reading.Recognition
import Mathlib.Data.List.Forall2

/-!
# The shape of a reading

Which tokens may follow depends on little of what was read: on whether a symbol
waits for the token behind it, and on what stands at the end of each open call.
The shape keeps only this. Each token moves it in the same way as it moves the
reader, so the shape alone decides whether a text is read to its end, and if
it is not, where reading stops and whether only the end of the text is to blame.
-/
namespace MacroScript

/-- What stands at the end of an open call: its parenthesis, an argument or a comma. -/
inductive Slot where
  | opened
  | filled
  | separated
  deriving DecidableEq, Repr

/-- The ends of the open calls, innermost first, and whether a symbol waits. -/
structure Shape where
  slots : List Slot
  named : Bool
  deriving DecidableEq, Repr

/-- How reading ends: behind the whole text, before a token that does not fit, or because the text
ends too early. -/
inductive Verdict where
  | accepted
  | refused (place : Location)
  | incomplete (place : Location)
  deriving DecidableEq, Repr

namespace Shape

def start : Shape := ⟨[], false⟩

/-- An expression may start here. -/
def Expects (nesting : Nesting) : List Slot → Prop
  | [] => True
  | slot :: outer => slot ≠ .filled ∧ nesting.base + outer.length < nesting.limit

instance (nesting : Nesting) : (slots : List Slot) → Decidable (Expects nesting slots)
  | [] => .isTrue trivial
  | _ :: _ => inferInstanceAs (Decidable (_ ∧ _))

/-- The open calls behind an expression. -/
def fill : List Slot → List Slot
  | [] => []
  | _ :: outer => .filled :: outer

/-- The shape behind a token, if the token fits. -/
def step (nesting : Nesting) (token : Token) : Shape → Option Shape
  | ⟨slots, false⟩ =>
      match token.kind, slots with
      | .symbol, _ => if Expects nesting slots then some ⟨slots, true⟩ else none
      | .number, _ | .string, _ =>
          if Expects nesting slots ∧ token.atom.isOk then some ⟨fill slots, false⟩ else none
      | .comma, .filled :: outer => some ⟨.separated :: outer, false⟩
      | .closeParen, slot :: outer =>
          if slot = .separated then none else some ⟨fill outer, false⟩
      | _, _ => none
  | ⟨slots, true⟩ =>
      match token.kind, slots with
      | .openParen, _ => some ⟨.opened :: slots, false⟩
      | .comma, _ :: outer => some ⟨.separated :: outer, false⟩
      | .closeParen, _ :: outer => some ⟨fill outer, false⟩
      | _, _ => none

def verdict (nesting : Nesting) : Shape → TokenStream → Verdict
  | shape, .finished stop =>
      if shape.slots = [] then .accepted else .incomplete stop.location
  | _, .unterminated opening _ => .incomplete opening
  | shape, .token next _ more =>
      match shape.step nesting next with
      | some shape => shape.verdict nesting more
      | none => .refused next.location

end Shape

/-- Only the end of the text is to blame. -/
def ParseCause.atEnd : ParseCause → Bool
  | unterminatedString | unclosedCall => true
  | _ => false

/-- How reading ended, by the error at which it stopped. -/
def Verdict.ofError : Option ParseError → Verdict
  | none => .accepted
  | some error =>
      if error.cause.atEnd then .incomplete error.location else .refused error.location

/-- What stands at the end of an open call. A call without arguments always takes one next. -/
inductive OpenCall.EndsWith : OpenCall → Slot → Prop
  | opened {name : String} : EndsWith ⟨name, [], true⟩ .opened
  | filled {name : String} {arg : Expr} {args : List Expr} :
      EndsWith ⟨name, arg :: args, false⟩ .filled
  | separated {name : String} {arg : Expr} {args : List Expr} :
      EndsWith ⟨name, arg :: args, true⟩ .separated

namespace OpenCall.EndsWith

theorem push (call : OpenCall) (arg : Expr) : (call.push arg).EndsWith .filled := .filled

theorem awaiting_iff {call : OpenCall} {slot : Slot} (h : call.EndsWith slot) :
    call.awaiting = true ↔ slot ≠ .filled := by
  cases h <;> simp

end OpenCall.EndsWith

/-- The shape of a reader. -/
def Reader.HasShape (reader : Reader) (shape : Shape) : Prop :=
  List.Forall₂ OpenCall.EndsWith reader.calls shape.slots ∧
    reader.head.isSome = shape.named

/-- A step of a reader for a token moves its shape on, or there is no next shape. -/
def ReaderStep.Follows (token : Token) (next? : Option Shape) : ReaderStep → Prop
  | .next reader => ∃ shape, next? = some shape ∧ reader.HasShape shape
  | .complete _ _ => next? = some .start
  | .completeBefore _ _ => next? = none ∧ (token.kind = .closeParen ∨ token.kind = .comma)
  | .failure error _ =>
      next? = none ∧ error.location = token.location ∧ error.cause.atEnd = false

namespace Reader
variable {nesting : Nesting} {token : Token} {after resume : Cursor} {calls : List OpenCall}
  {slots : List Slot}

theorem expects_iff (h : List.Forall₂ OpenCall.EndsWith calls slots) :
    Expects nesting calls ↔ Shape.Expects nesting slots := by
  cases h with
  | nil => rfl
  | cons hcall houter => simp only [Expects, Shape.Expects, hcall.awaiting_iff, houter.length_eq]

theorem atEnd_of_refusal {reader : Reader} {cause : ParseCause}
    (h : reader.refusal nesting token = some cause) : cause.atEnd = false := by
  unfold refusal at h
  split at h
  · cases h
  · split_ifs at h <;> cases h <;> rfl

theorem deliver_follows (h : List.Forall₂ OpenCall.EndsWith calls slots) (e : Expr) :
    (deliver ⟨calls, none, resume⟩ e after).Follows token (some ⟨Shape.fill slots, false⟩) := by
  cases h with
  | nil => rfl
  | cons _ houter => exact ⟨_, rfl, .cons (.push ..) houter, rfl⟩

theorem atom_error {error : ParseError} (h : token.atom = .error error) :
    error.location = token.location ∧ error.cause.atEnd = false := by
  unfold Token.atom at h
  split at h
  · simp only at h
    split_ifs at h
    cases h
    exact ⟨rfl, rfl⟩
  · cases h
  · cases h

theorem startExpr_follows (h : List.Forall₂ OpenCall.EndsWith calls slots)
    (hkind : token.kind = .symbol ∨ token.kind = .number ∨ token.kind = .string) :
    (startExpr nesting ⟨calls, none, resume⟩ token after).Follows token
      (Shape.step nesting token ⟨slots, false⟩) := by
  have hexpects := (refusal_eq_none_iff nesting ⟨calls, none, resume⟩ token).trans (expects_iff h)
  cases hrefusal : refusal nesting ⟨calls, none, resume⟩ token with
  | some cause =>
      have hnot : ¬ Shape.Expects nesting slots := by simp [← hexpects, hrefusal]
      have hcause := atEnd_of_refusal hrefusal
      simp only [startExpr, hrefusal]
      refine ⟨?_, rfl, hcause⟩
      rcases hkind with hkind | hkind | hkind <;> simp [Shape.step, hkind, hnot]
  | none =>
      have hyes := hexpects.mp hrefusal
      simp only [startExpr, hrefusal]
      by_cases hsymbol : token.kind = .symbol
      · simp only [hsymbol, if_true, Shape.step, hyes]
        exact ⟨_, rfl, h, rfl⟩
      · have hstep : Shape.step nesting token ⟨slots, false⟩ =
            if token.atom.isOk then some ⟨Shape.fill slots, false⟩ else none := by
          rcases hkind with hkind | hkind | hkind
          · exact absurd hkind hsymbol
          all_goals simp [Shape.step, hkind, hyes]
        rw [if_neg hsymbol, hstep]
        cases hatom : token.atom with
        | error error => exact ⟨rfl, atom_error hatom⟩
        | ok e => exact deliver_follows h e

theorem takeFresh_follows (h : List.Forall₂ OpenCall.EndsWith calls slots) :
    (takeFresh nesting ⟨calls, none, resume⟩ token after).Follows token
      (Shape.step nesting token ⟨slots, false⟩) := by
  cases hkind : token.kind with
  | symbol | number | string =>
      have hstart : takeFresh nesting ⟨calls, none, resume⟩ token after =
          startExpr nesting ⟨calls, none, resume⟩ token after := by simp only [takeFresh, hkind]
      rw [hstart]
      exact startExpr_follows h (by simp [hkind])
  | illegal | finish => simp only [takeFresh, hkind, Shape.step]; exact ⟨rfl, rfl, rfl⟩
  | openParen => cases h <;> simp only [takeFresh, hkind, Shape.step] <;> exact ⟨rfl, rfl, rfl⟩
  | comma =>
      cases h with
      | nil => simp only [takeFresh, hkind, Shape.step]; exact ⟨rfl, rfl, rfl⟩
      | cons hcall houter =>
          cases hcall with
          | filled =>
              simp only [takeFresh, hkind, Shape.step]
              exact ⟨_, rfl, .cons .separated houter, rfl⟩
          | opened | separated => simp only [takeFresh, hkind, Shape.step]; exact ⟨rfl, rfl, rfl⟩
  | closeParen =>
      cases h with
      | nil => simp only [takeFresh, hkind, Shape.step]; exact ⟨rfl, rfl, rfl⟩
      | cons hcall houter =>
          cases hcall with
          | separated => simp only [takeFresh, hkind, Shape.step]; exact ⟨rfl, rfl, rfl⟩
          | opened | filled =>
              simp only [takeFresh, hkind, Shape.step]
              exact deliver_follows houter _

theorem take_follows {reader : Reader} {shape : Shape} (h : reader.HasShape shape) :
    (reader.take nesting token after).Follows token (shape.step nesting token) := by
  obtain ⟨calls, head, resume⟩ := reader
  obtain ⟨slots, named⟩ := shape
  obtain ⟨hcalls, hhead⟩ := h
  cases head with
  | none =>
      obtain rfl : named = false := hhead.symm
      exact takeFresh_follows hcalls
  | some symbol =>
      obtain rfl : named = true := hhead.symm
      have hadjacent : token.adjacentError.location = token.location ∧
          token.adjacentError.cause.atEnd = false := by
        unfold Token.adjacentError
        split <;> exact ⟨rfl, rfl⟩
      cases hkind : token.kind with
      | openParen =>
          simp only [take, hkind, Shape.step]
          exact ⟨_, rfl, .cons .opened hcalls, rfl⟩
      | closeParen | comma =>
          cases hcalls with
          | nil =>
              simp only [take, hkind, Shape.step]
              exact ⟨rfl, by simp [hkind]⟩
          | @cons call slot outer others _ houter =>
              have hstep : Shape.step nesting token ⟨slot :: others, true⟩ =
                  Shape.step nesting token ⟨.filled :: others, false⟩ := by
                simp [Shape.step, hkind]
              rw [hstep]
              simp only [take, hkind]
              exact takeFresh_follows (.cons (.push ..) houter)
      | _ =>
          simp only [take, hkind, Shape.step]
          exact ⟨rfl, hadjacent⟩

/-- How reading ends is decided by the shape. -/
theorem verdict_eq {reader : Reader} {shape : Shape} (h : reader.HasShape shape)
    (stream : TokenStream) :
    Verdict.ofError ((reader.read nesting stream).errorOnward nesting) =
      shape.verdict nesting stream := by
  induction stream generalizing reader shape with
  | finished stop =>
      obtain ⟨calls, head, resume⟩ := reader
      obtain ⟨slots, named⟩ := shape
      cases h.1 with
      | nil => cases head <;> simp [read, finish, Reading.errorOnward, Shape.verdict,
          Program.error_ofStream, Verdict.ofError, start]
      | cons => rfl
  | unterminated opening stop => rfl
  | token next behind more ih =>
      have hfollows : (reader.take nesting next behind).Follows next (shape.step nesting next) :=
        take_follows h
      cases htake : reader.take nesting next behind with
      | next reader' =>
          rw [htake] at hfollows
          obtain ⟨shape', hstep, hshape⟩ := hfollows
          simp only [read, htake, Shape.verdict, hstep]
          exact ih hshape
      | complete result after' =>
          rw [htake] at hfollows
          have hstep : shape.step nesting next = some .start := hfollows
          simp only [read, htake, Shape.verdict, hstep]
          rw [Reading.errorOnward, Program.error_ofStream]
          exact ih ⟨.nil, rfl⟩
      | completeBefore result before =>
          rw [htake] at hfollows
          obtain ⟨hstep, hkind⟩ := hfollows
          simp only [read, htake, Shape.verdict, hstep]
          rw [Reading.errorOnward, Program.error_ofStream, read_of_endsName hkind]
          rfl
      | failure error resume =>
          rw [htake] at hfollows
          obtain ⟨hstep, hlocation, hcause⟩ := hfollows
          simp [read, htake, Shape.verdict, hstep, Reading.errorOnward, Verdict.ofError,
            hlocation, hcause]

end Reader

theorem Program.verdict_error (nesting : Nesting) (cursor : Cursor) :
    Verdict.ofError (ofCursor nesting cursor).error =
      Shape.start.verdict nesting (.ofCursor true cursor) := by
  rw [ofCursor, error_ofStream]
  exact Reader.verdict_eq ⟨.nil, rfl⟩ _

end MacroScript
