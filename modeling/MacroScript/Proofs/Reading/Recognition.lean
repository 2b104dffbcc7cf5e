import MacroScript.Proofs.Reading.Derivation
import MacroScript.Proofs.Token.Spelling

/-!
# Recognition

The reader accepts exactly the derivations whose nesting is within its limit. An
expression that is complete is handed to the innermost open call, and reading
goes on there; without an open call it is the answer. One direction follows the
derivation, the other one the stream, since each token taken leaves a shorter
one.
-/
namespace MacroScript

namespace Nesting

/-- An expression may stand inside this many open calls. No limit is too low for an expression
without nesting that stands in no call. -/
def Allows (nesting : Nesting) (level : Nat) (e : Expr) : Prop :=
  nesting.base + level + e.nesting ≤ max nesting.limit nesting.base

theorem allows_call_iff {nesting : Nesting} {level : Nat} {name : String} {args : List Expr} :
    nesting.Allows level (.call name args) ↔
      nesting.base + level ≤ max nesting.limit nesting.base ∧
        ∀ arg ∈ args, nesting.Allows (level + 1) arg := by
  constructor
  · intro h
    have hall := Expr.nesting_call_le_iff.mp (Nat.le_refl (Expr.call name args).nesting)
    refine ⟨by unfold Allows at h; omega, fun arg harg => ?_⟩
    have := hall arg harg
    unfold Allows at h ⊢
    omega
  · rintro ⟨hlevel, hall⟩
    have hroom : (Expr.call name args).nesting ≤
        (max nesting.limit nesting.base - nesting.base - level).toNat := by
      refine Expr.nesting_call_le_iff.mpr fun arg harg => ?_
      have := hall arg harg
      unfold Allows at this
      omega
    unfold Allows
    omega

end Nesting

/-- If a step goes on, it is for the rest of an expression. -/
def ReaderStep.Unfinished : ReaderStep → Prop
  | .next reader => reader.calls ≠ [] ∨ reader.head ≠ none
  | .complete _ _ | .completeBefore _ _ | .failure _ _ => True

namespace Reader

/-- The open calls take an expression next. -/
def Expects (nesting : Nesting) : List OpenCall → Prop
  | [] => True
  | call :: outer => call.awaiting = true ∧ nesting.base + outer.length < nesting.limit

theorem refusal_eq_none_iff (nesting : Nesting) (reader : Reader) (token : Token) :
    reader.refusal nesting token = none ↔ Expects nesting reader.calls := by
  obtain ⟨calls, head, resume⟩ := reader
  cases calls with
  | nil => simp [refusal, Expects]
  | cons call outer => cases h : call.awaiting <;> simp [refusal, Expects, h]

/-- A reading goes on behind an expression that was handed to the open calls. -/
def HandsOver (nesting : Nesting) (reading : Reading) (calls : List OpenCall) (e : Expr)
    (after : Cursor) (more : TokenStream) : Prop :=
  match calls with
  | [] => reading = .value e after more
  | call :: outer => ∃ resume, reading = read nesting ⟨call.push e :: outer, none, resume⟩ more

variable {nesting : Nesting} {reader : Reader} {token : Token} {after : Cursor}
  {more : TokenStream} {calls : List OpenCall} {resume : Cursor}

theorem read_of_next {reader' : Reader} (h : reader.take nesting token after = .next reader') :
    reader.read nesting (.token token after more) = reader'.read nesting more := by
  simp only [read, h]

theorem handsOver_of_deliver {reader' : Reader} {e : Expr}
    (h : reader.take nesting token after = reader'.deliver e after) :
    HandsOver nesting (reader.read nesting (.token token after more)) reader'.calls e after
      more := by
  unfold HandsOver
  unfold deliver at h
  split <;> rename_i hcalls <;> rw [hcalls] at h
  · simp only [read, h]
  · exact ⟨_, read_of_next h⟩

theorem take_atom (hkind : token.kind = .number ∨ token.kind = .string)
    (hexpects : Expects nesting calls) {e : Expr} (hatom : token.atom = .ok e) :
    take nesting ⟨calls, none, resume⟩ token after = deliver ⟨calls, none, resume⟩ e after := by
  have hrefusal : refusal nesting ⟨calls, none, resume⟩ token = none :=
    (refusal_eq_none_iff ..).mpr hexpects
  rcases hkind with hkind | hkind <;>
    simp only [take, takeFresh, hkind, startExpr, hrefusal, reduceCtorEq, if_false, hatom]

theorem take_symbol (hkind : token.kind = .symbol) (hexpects : Expects nesting calls) :
    take nesting ⟨calls, none, resume⟩ token after =
      .next ⟨calls, some token, behind ⟨calls, none, resume⟩ after⟩ := by
  have hrefusal : refusal nesting ⟨calls, none, resume⟩ token = none :=
    (refusal_eq_none_iff ..).mpr hexpects
  simp only [take, takeFresh, hkind, startExpr, hrefusal, if_true]

theorem take_close {call : OpenCall} (hkind : token.kind = .closeParen)
    (h : call.awaiting = false ∨ call.args = []) :
    take nesting ⟨call :: calls, none, resume⟩ token after =
      deliver ⟨calls, none, resume⟩ call.close after := by
  have hopen : (call.awaiting && !call.args.isEmpty) = false := by
    rcases h with h | h <;> simp [h]
  simp only [take, takeFresh, hkind, hopen, Bool.false_eq_true, if_false]

theorem read_opening {head opening : Token} {behindHead behindOpening : Cursor}
    (hhead : head.kind = .symbol) (hopening : opening.kind = .openParen)
    (hexpects : Expects nesting calls) :
    ∃ resume', read nesting ⟨calls, none, resume⟩
        (.token head behindHead (.token opening behindOpening more)) =
      read nesting ⟨.opened head.text :: calls, none, resume'⟩ more := by
  rw [read_of_next (take_symbol hhead hexpects)]
  exact ⟨_, read_of_next (by simp only [take, hopening]; rfl)⟩

theorem read_name (hkind : token.kind = .symbol) (hexpects : Expects nesting calls)
    (hends : more.EndsName) :
    HandsOver nesting (read nesting ⟨calls, none, resume⟩ (.token token after more)) calls
      (.var token.text) after more := by
  rw [read_of_next (take_symbol hkind hexpects)]
  cases calls with
  | nil =>
      cases more with
      | token next behind tail =>
          rcases hends with hnext | hnext <;>
            simp only [HandsOver, read, take, hnext] <;> rfl
      | finished stop => rfl
      | unterminated => exact hends.elim
  | cons call outer =>
      refine ⟨behind ⟨call :: outer, none, resume⟩ after, ?_⟩
      cases more with
      | token next behind tail =>
          rcases hends with hnext | hnext <;> simp only [read, take, hnext]
      | finished stop => rfl
      | unterminated => exact hends.elim

theorem take_comma {call : OpenCall} (hkind : token.kind = .comma) (h : call.awaiting = false) :
    take nesting ⟨call :: calls, none, resume⟩ token after =
      .next ⟨call.separate :: calls, none, behind ⟨call :: calls, none, resume⟩ after⟩ := by
  simp only [take, takeFresh, hkind, h, Bool.false_eq_true, if_false]

end Reader

open Reader

theorem Token.atom_number {token : Token} (hkind : token.kind = .number)
    (hlength : token.text.length ≤ 20)
    (hvalue : Token.digitsValue token.text.toList ≤ 2 ^ 64 - 1) :
    token.atom = .ok (.int (Token.digitsValue token.text.toList).toUInt64) := by
  simp only [Token.atom, hkind]
  rw [if_pos]
  refine ⟨?_, Nat.lt_of_le_pred (by decide) hvalue⟩
  rwa [String.length_toList]

theorem Nesting.expects_of_allows {nesting : Nesting} (call : OpenCall) {outer : List OpenCall}
    {e : Expr} (hawaiting : call.awaiting = true) (h : nesting.Allows (outer.length + 1) e) :
    Expects nesting (call :: outer) := by
  refine ⟨hawaiting, ?_⟩
  unfold Nesting.Allows at h
  omega

variable {nesting : Nesting}

mutual

theorem Derivation.handsOver : (d : Derivation) → (calls : List OpenCall) → (resume : Cursor) →
    {after : Cursor} → {stream more : TokenStream} → d.Spans stream after more →
    Expects nesting calls → nesting.Allows calls.length d.expr →
    HandsOver nesting (Reader.read nesting ⟨calls, none, resume⟩ stream) calls d.expr after more
  | .number token, calls, resume, after, stream, more, h, hexpects, _ => by
      obtain ⟨rfl, hkind, hlength, hvalue⟩ := h
      exact handsOver_of_deliver
        (take_atom (.inl hkind) hexpects (Token.atom_number hkind hlength hvalue))
  | .string token, calls, resume, after, stream, more, h, hexpects, _ => by
      obtain ⟨rfl, hkind⟩ := h
      exact handsOver_of_deliver
        (take_atom (.inr hkind) hexpects (by simp only [Token.atom, hkind, Derivation.expr]))
  | .name token, calls, resume, after, stream, more, h, hexpects, _ => by
      obtain ⟨rfl, hkind, hends⟩ := h
      exact read_name hkind hexpects hends
  | .emptyCall head opening closing, calls, resume, after, stream, more, h, hexpects, _ => by
      obtain ⟨a, b, rfl, hhead, hopening, hclosing⟩ := h
      obtain ⟨resume', hread⟩ := read_opening hhead hopening hexpects
      rw [hread]
      exact handsOver_of_deliver (take_close hclosing (.inr rfl))
  | .call head opening first others, calls, resume, after, stream, more, h, hexpects, hallows => by
      obtain ⟨a, b, inside, c, rest, rfl, hhead, hopening, hfirst, hothers⟩ := h
      obtain ⟨hlevel, hargs⟩ := Nesting.allows_call_iff.mp hallows
      have hroom := hargs first.expr (by simp)
      obtain ⟨resume', hread⟩ := read_opening hhead hopening hexpects
      obtain ⟨resume'', hread'⟩ := first.handsOver _ resume' hfirst
        (Nesting.expects_of_allows (.opened head.text) rfl hroom) hroom
      rw [hread, hread']
      exact others.handsOver _ _ _ hothers rfl fun e he => hargs e (by simp [he])

theorem Separated.handsOver : (s : Separated) → (call : OpenCall) → (outer : List OpenCall) →
    (resume : Cursor) → {after : Cursor} → {stream more : TokenStream} →
    s.Spans stream after more → call.awaiting = false →
    (∀ e ∈ s.exprs, nesting.Allows (outer.length + 1) e) →
    HandsOver nesting (Reader.read nesting ⟨call :: outer, none, resume⟩ stream) outer
      (.call call.name (call.args.reverse ++ s.exprs)) after more
  | .close closing, call, outer, resume, after, stream, more, h, hawaiting, _ => by
      obtain ⟨rfl, hkind⟩ := h
      have hclose : Expr.call call.name (call.args.reverse ++ (Separated.close closing).exprs) =
          call.close := by simp [OpenCall.close, Separated.exprs]
      rw [hclose]
      exact handsOver_of_deliver (take_close hkind (.inl hawaiting))
  | .comma separator next others, call, outer, resume, after, stream, more, h, hawaiting, hall => by
      obtain ⟨a, inside, b, rest, rfl, hkind, hnext, hothers⟩ := h
      have hroom := hall next.expr (by simp [Separated.exprs])
      obtain ⟨resume', hread⟩ := next.handsOver _ _ hnext
        (Nesting.expects_of_allows call.separate rfl hroom) hroom
      rw [read_of_next (take_comma hkind hawaiting), hread]
      have hlast := others.handsOver (call.separate.push next.expr) outer resume' hothers rfl
        fun e he => hall e (by simp [Separated.exprs, he])
      simpa [OpenCall.push, OpenCall.separate, Separated.exprs] using hlast

end

namespace Reader
variable {token : Token} {after : Cursor} {more : TokenStream} {calls : List OpenCall}
  {resume : Cursor} {e : Expr} {stop : Cursor} {rest : TokenStream}

/-- What the first token may be where no symbol waits for it, and how reading goes on. -/
theorem read_token_inv
    (h : read nesting ⟨calls, none, resume⟩ (.token token after more) = .value e stop rest) :
    (Expects nesting calls ∧ (token.kind = .number ∨ token.kind = .string) ∧
      ∃ e', token.atom = .ok e' ∧ HandsOver nesting (.value e stop rest) calls e' after more) ∨
    (Expects nesting calls ∧ token.kind = .symbol ∧ ∃ resume', (calls = [] → resume' = after) ∧
      read nesting ⟨calls, some token, resume'⟩ more = .value e stop rest) ∨
    (∃ call outer, calls = call :: outer ∧ token.kind = .comma ∧ call.awaiting = false ∧
      ∃ resume', read nesting ⟨call.separate :: outer, none, resume'⟩ more = .value e stop rest) ∨
    (∃ call outer, calls = call :: outer ∧ token.kind = .closeParen ∧
      (call.awaiting = false ∨ call.args = []) ∧
      HandsOver nesting (.value e stop rest) outer call.close after more) := by
  have hstart (hkind : token.kind = .number ∨ token.kind = .string ∨ token.kind = .symbol) :
      Expects nesting calls := by
    refine (refusal_eq_none_iff nesting ⟨calls, none, resume⟩ token).mp ?_
    cases hrefusal : refusal nesting ⟨calls, none, resume⟩ token with
    | none => rfl
    | some cause =>
        rcases hkind with hkind | hkind | hkind <;>
          simp [read, take, takeFresh, startExpr, hkind, hrefusal] at h
  have hatom (hkind : token.kind = .number ∨ token.kind = .string) :
      ∃ e', token.atom = .ok e' ∧ HandsOver nesting (.value e stop rest) calls e' after more := by
    have hexpects := hstart (by tauto)
    cases hresult : token.atom with
    | ok e' => exact ⟨e', rfl, h ▸ handsOver_of_deliver (take_atom hkind hexpects hresult)⟩
    | error error =>
        have hrefusal :=
          (refusal_eq_none_iff nesting ⟨calls, none, resume⟩ token).mpr hexpects
        rcases hkind with hkind | hkind <;>
          simp [read, take, takeFresh, startExpr, hkind, hrefusal, hresult] at h
  cases hkind : token.kind with
  | number => exact .inl ⟨hstart (.inl hkind), .inl rfl, hatom (.inl hkind)⟩
  | string => exact .inl ⟨hstart (.inr (.inl hkind)), .inr rfl, hatom (.inr hkind)⟩
  | symbol =>
      have hexpects := hstart (.inr (.inr hkind))
      rw [read_of_next (take_symbol hkind hexpects)] at h
      exact .inr (.inl ⟨hexpects, rfl, _, by rintro rfl; rfl, h⟩)
  | comma =>
      cases calls with
      | nil => simp [read, take, takeFresh, hkind] at h
      | cons call outer =>
          cases hawaiting : call.awaiting with
          | true => simp [read, take, takeFresh, hkind, hawaiting] at h
          | false =>
              rw [read_of_next (take_comma hkind hawaiting)] at h
              exact .inr (.inr (.inl ⟨call, outer, rfl, rfl, hawaiting, _, h⟩))
  | closeParen =>
      cases calls with
      | nil => simp [read, take, takeFresh, hkind] at h
      | cons call outer =>
          by_cases hopen : call.awaiting = false ∨ call.args = []
          · exact .inr (.inr (.inr ⟨call, outer, rfl, rfl, hopen,
              h ▸ handsOver_of_deliver (take_close hkind hopen)⟩))
          · simp only [not_or, Bool.not_eq_false] at hopen
            simp [read, take, takeFresh, hkind, hopen] at h
  | openParen => cases calls <;> simp [read, take, takeFresh, hkind] at h
  | finish => simp [read, take, takeFresh, hkind] at h
  | illegal => simp [read, take, takeFresh, hkind] at h

theorem read_head_inv {stream : TokenStream} (hresume : calls = [] → resume = after)
    (h : read nesting ⟨calls, some token, resume⟩ stream = .value e stop rest) :
    (∃ opening behindOpening inside, stream = .token opening behindOpening inside ∧
      opening.kind = .openParen ∧ ∃ resume',
        read nesting ⟨.opened token.text :: calls, none, resume'⟩ inside = .value e stop rest) ∨
    (stream.EndsName ∧
      HandsOver nesting (.value e stop rest) calls (.var token.text) after stream) := by
  cases stream with
  | finished last =>
      cases calls with
      | nil =>
          simp only [read, finish] at h
          exact .inr ⟨trivial, by rw [HandsOver, ← h, hresume rfl]⟩
      | cons call outer => simp [read, finish] at h
  | unterminated => simp [read, breakOff] at h
  | token next behind tail =>
      cases hkind : next.kind with
      | openParen =>
          simp only [read, take, hkind] at h
          exact .inl ⟨next, behind, tail, rfl, hkind, _, h⟩
      | closeParen | comma =>
          refine .inr ⟨by simp [TokenStream.EndsName, hkind], ?_⟩
          cases calls with
          | nil =>
              simp only [read, take, hkind] at h
              rw [HandsOver, ← h, hresume rfl]
          | cons call outer => exact ⟨resume, by rw [← h]; simp only [read, take, hkind]⟩
      | _ => simp [read, take, hkind] at h

/-- An answer shows what a stream begins with where an expression is due: a derivation, or the end
of a call without arguments. -/
def Begins (nesting : Nesting) (answer : Reading) (stream : TokenStream) : Prop :=
  ∀ calls resume, (∀ call ∈ calls.head?, call.awaiting = true) →
    read nesting ⟨calls, none, resume⟩ stream = answer →
    (∃ d : Derivation, ∃ after more, d.Spans stream after more ∧ Expects nesting calls ∧
      nesting.Allows calls.length d.expr ∧ HandsOver nesting answer calls d.expr after more) ∨
    (∃ call outer closing after more, calls = call :: outer ∧ call.args = [] ∧
      stream = .token closing after more ∧ closing.kind = .closeParen ∧
      HandsOver nesting answer outer call.close after more)

/-- An answer shows what stands behind an argument. -/
def GoesOn (nesting : Nesting) (answer : Reading) (stream : TokenStream) : Prop :=
  ∀ call outer resume, call.awaiting = false → call.args ≠ [] →
    read nesting ⟨call :: outer, none, resume⟩ stream = answer →
    ∃ s : Separated, ∃ after more, s.Spans stream after more ∧
      (∀ e ∈ s.exprs, nesting.Allows (outer.length + 1) e) ∧
      HandsOver nesting answer outer (.call call.name (call.args.reverse ++ s.exprs)) after more

theorem level_of_expects (h : Expects nesting calls) :
    nesting.base + calls.length ≤ max nesting.limit nesting.base := by
  cases calls with
  | nil =>
      rw [List.length_nil]
      omega
  | cons call outer =>
      have := h.2
      simp only [List.length_cons]
      omega

theorem spans_atom (after : Cursor) (more : TokenStream) {e' : Expr}
    (hkind : token.kind = .number ∨ token.kind = .string) (hatom : token.atom = .ok e') :
    ∃ d : Derivation, d.Spans (.token token after more) after more ∧ d.expr = e' ∧
      e'.nesting = 0 := by
  rcases hkind with hkind | hkind <;> simp only [Token.atom, hkind] at hatom
  · split at hatom
    · rename_i hsmall
      cases hatom
      refine ⟨.number token, ⟨rfl, hkind, ?_, Nat.le_pred_of_lt hsmall.2⟩, rfl, rfl⟩
      rw [← String.length_toList]
      exact hsmall.1
    · cases hatom
  · cases hatom
    exact ⟨.string token, ⟨rfl, hkind⟩, rfl, rfl⟩

theorem begins_step {stream : TokenStream}
    (ih : ∀ stream' : TokenStream, stream'.length < stream.length →
      Begins nesting (.value e stop rest) stream' ∧ GoesOn nesting (.value e stop rest) stream') :
    Begins nesting (.value e stop rest) stream := by
  intro calls resume hawaiting h
  cases stream with
  | finished => cases calls <;> simp [read, finish] at h
  | unterminated => simp [read, breakOff] at h
  | token token after more =>
      rcases read_token_inv h with ⟨hexpects, hkind, e', hatom, hover⟩ |
        ⟨hexpects, hkind, resume', hresume, hread⟩ | ⟨call, outer, rfl, _, hnot, _⟩ |
        ⟨call, outer, rfl, hkind, hopen, hover⟩
      · obtain ⟨d, hspans, rfl, hnesting⟩ := spans_atom after more hkind hatom
        refine .inl ⟨d, after, more, hspans, hexpects, ?_, hover⟩
        simpa [Nesting.Allows, hnesting] using level_of_expects hexpects
      · rcases read_head_inv hresume hread with
          ⟨opening, behindOpening, inside, rfl, hopening, resume'', hinside⟩ | ⟨hends, hover⟩
        · have hshort : inside.length < (TokenStream.token token after
              (.token opening behindOpening inside)).length := by
            simp only [TokenStream.length]; omega
          rcases (ih inside hshort).1 _ _ (by simp [OpenCall.opened]) hinside with
            ⟨first, a, s, hfirst, _, hallows, _, hpushed⟩ |
            ⟨call, outer, closing, a, s, hcalls, _, rfl, hclosing, hover⟩
          · have hrest : s.length < inside.length := first.length_lt hfirst
            obtain ⟨others, b, s', hothers, hall, hover⟩ :=
              (ih s (by omega)).2 _ _ _ (by rfl) (by simp [OpenCall.push]) hpushed.symm
            refine .inl ⟨.call token opening first others, b, s',
              ⟨_, _, _, _, _, rfl, hkind, hopening, hfirst, hothers⟩, hexpects, ?_, hover⟩
            refine Nesting.allows_call_iff.mpr ⟨level_of_expects hexpects, fun arg harg => ?_⟩
            rcases List.mem_cons.mp harg with rfl | harg
            · exact hallows
            · exact hall arg harg
          · cases hcalls
            refine .inl ⟨.emptyCall token opening closing, a, s,
              ⟨_, _, rfl, hkind, hopening, hclosing⟩, hexpects, ?_, hover⟩
            exact Nesting.allows_call_iff.mpr ⟨level_of_expects hexpects, by simp⟩
        · refine .inl ⟨.name token, after, more, ⟨rfl, hkind, hends⟩, hexpects, ?_, hover⟩
          simpa [Nesting.Allows, Expr.nesting, Derivation.expr] using level_of_expects hexpects
      · simp [hnot] at hawaiting
      · refine .inr ⟨call, outer, token, after, more, rfl, ?_, rfl, hkind, hover⟩
        exact hopen.resolve_left (by simpa using hawaiting)

theorem goesOn_step {stream : TokenStream}
    (ih : ∀ stream' : TokenStream, stream'.length < stream.length →
      Begins nesting (.value e stop rest) stream' ∧ GoesOn nesting (.value e stop rest) stream') :
    GoesOn nesting (.value e stop rest) stream := by
  intro call outer resume hnot hargs h
  cases stream with
  | finished => simp [read, finish] at h
  | unterminated => simp [read, breakOff] at h
  | token token after more =>
      have hexpects : ¬ Expects nesting (call :: outer) := fun he =>
        absurd (hnot.symm.trans he.1) Bool.false_ne_true
      have hshort : more.length < (TokenStream.token token after more).length := by
        simp only [TokenStream.length]; omega
      rcases read_token_inv h with ⟨he, _⟩ | ⟨he, _⟩ |
        ⟨call', outer', hcalls, hkind, _, resume', hread⟩ |
        ⟨call', outer', hcalls, hkind, _, hover⟩
      · exact absurd he hexpects
      · exact absurd he hexpects
      · cases hcalls
        rcases (ih more hshort).1 _ _ (by simp [OpenCall.separate]) hread with
          ⟨next, a, s, hnext, _, hallows, _, hpushed⟩ | ⟨call', outer', _, _, _, hcalls, hnone, _⟩
        · have hrest : s.length < more.length := next.length_lt hnext
          obtain ⟨others, b, s', hothers, hall, hover⟩ :=
            (ih s (by omega)).2 _ _ _ (by rfl) (by simp [OpenCall.push]) hpushed.symm
          refine ⟨.comma token next others, b, s', ⟨_, _, _, _, rfl, hkind, hnext, hothers⟩, ?_, ?_⟩
          · intro arg harg
            rcases List.mem_cons.mp harg with rfl | harg
            · exact hallows
            · exact hall arg harg
          · simpa [OpenCall.push, OpenCall.separate, Separated.exprs] using hover
        · cases hcalls
          exact absurd hnone hargs
      · cases hcalls
        exact ⟨.close token, after, more, ⟨rfl, hkind⟩, by simp [Separated.exprs],
          by simpa [OpenCall.close, Separated.exprs] using hover⟩

theorem begins_and_goesOn (stream : TokenStream) :
    Begins nesting (.value e stop rest) stream ∧ GoesOn nesting (.value e stop rest) stream := by
  induction hn : stream.length using Nat.strong_induction_on generalizing stream with
  | _ n ih =>
      subst hn
      have hshorter : ∀ stream' : TokenStream, stream'.length < stream.length →
          Begins nesting (.value e stop rest) stream' ∧
            GoesOn nesting (.value e stop rest) stream' := by
        intro stream' hlt
        exact ih _ hlt stream' rfl
      exact ⟨begins_step hshorter, goesOn_step hshorter⟩

/-- Reading succeeds exactly on a derivation that is not nested too deeply. -/
theorem read_start_eq_value_iff {stream : TokenStream} :
    (start resume).read nesting stream = .value e after more ↔
      ∃ d : Derivation, d.expr = e ∧ d.Spans stream after more ∧ nesting.Allows 0 e := by
  constructor
  · intro h
    rcases (begins_and_goesOn stream).1 [] resume (by simp) h with
      ⟨d, a, s, hspans, _, hallows, hover⟩ | ⟨_, _, _, _, _, hcalls, _⟩
    · cases hover
      exact ⟨d, rfl, hspans, hallows⟩
    · cases hcalls
  · rintro ⟨d, rfl, hspans, hallows⟩
    exact d.handsOver [] resume hspans trivial hallows

theorem deliver_unfinished (reader : Reader) (result : Expr) (after : Cursor) :
    (reader.deliver result after).Unfinished := by
  unfold deliver
  split
  · trivial
  · exact .inl (List.cons_ne_nil _ _)

theorem startExpr_unfinished (nesting : Nesting) (reader : Reader) (token : Token)
    (after : Cursor) : (reader.startExpr nesting token after).Unfinished := by
  unfold startExpr
  split
  · trivial
  · split
    · exact .inr (Option.some_ne_none token)
    · split
      · trivial
      · exact deliver_unfinished ..

theorem takeFresh_unfinished (nesting : Nesting) (reader : Reader) (token : Token)
    (after : Cursor) : (reader.takeFresh nesting token after).Unfinished := by
  unfold takeFresh
  split
  case h_1 | h_2 | h_3 => exact startExpr_unfinished ..
  case h_4 | h_5 | h_6 | h_7 => trivial
  case h_8 =>
    split
    · trivial
    · exact .inl (List.cons_ne_nil _ _)
  case h_9 =>
    split
    · trivial
    · exact deliver_unfinished ..

theorem take_unfinished (nesting : Nesting) (reader : Reader) (token : Token) (after : Cursor) :
    (reader.take nesting token after).Unfinished := by
  unfold take
  split
  · exact takeFresh_unfinished ..
  · split
    · exact .inl (List.cons_ne_nil _ _)
    · split
      · trivial
      · exact takeFresh_unfinished ..
    · split
      · trivial
      · exact takeFresh_unfinished ..
    · trivial

theorem eq_finished_of_read_nothing {reader : Reader} {stream : TokenStream}
    (h : reader.read nesting stream = .nothing stop) :
    reader.calls = [] ∧ reader.head = none ∧ stream = .finished stop := by
  induction stream generalizing reader with
  | finished last =>
      simp only [read, finish] at h
      split at h <;> simp_all
  | unterminated => simp [read, breakOff] at h
  | token token after more ih =>
      simp only [read] at h
      split at h <;> try cases h
      rename_i reader' htake
      obtain ⟨hcalls, hhead, _⟩ := ih h
      have hunfinished := take_unfinished nesting reader token after
      rw [htake] at hunfinished
      exact absurd hunfinished (by simp [ReaderStep.Unfinished, hcalls, hhead])

end Reader

mutual

theorem Derivation.last_endsAt : (d : Derivation) → {cursor after : Cursor} → {more : TokenStream} →
    d.Spans (.ofCursor true cursor) after more →
    d.last.EndsAt cursor after ∧ more = .ofCursor true after
  | .number _, _, _, _, h => TokenStream.endsAt_of_ofCursor h.1
  | .string _, _, _, _, h => TokenStream.endsAt_of_ofCursor h.1
  | .name _, _, _, _, h => TokenStream.endsAt_of_ofCursor h.1
  | .emptyCall head opening closing, cursor, after, more, h => by
      obtain ⟨a, b, hstream, _⟩ := h
      obtain ⟨hhead, htail⟩ := TokenStream.endsAt_of_ofCursor hstream
      obtain ⟨hopening, htail⟩ := TokenStream.endsAt_of_ofCursor htail.symm
      obtain ⟨hclosing, hmore⟩ := TokenStream.endsAt_of_ofCursor htail.symm
      exact ⟨hhead.trans (hopening.trans hclosing), hmore⟩
  | .call head opening first others, cursor, after, more, h => by
      obtain ⟨a, b, inside, c, rest, hstream, _, _, hfirst, hothers⟩ := h
      obtain ⟨hhead, htail⟩ := TokenStream.endsAt_of_ofCursor hstream
      obtain ⟨hopening, rfl⟩ := TokenStream.endsAt_of_ofCursor htail.symm
      obtain ⟨hlast, rfl⟩ := first.last_endsAt hfirst
      obtain ⟨hclosing, hmore⟩ := others.last_endsAt hothers
      exact ⟨hhead.trans (hopening.trans (hlast.trans hclosing)), hmore⟩

theorem Separated.last_endsAt : (s : Separated) → {cursor after : Cursor} → {more : TokenStream} →
    s.Spans (.ofCursor true cursor) after more →
    s.last.EndsAt cursor after ∧ more = .ofCursor true after
  | .close _, _, _, _, h => TokenStream.endsAt_of_ofCursor h.1
  | .comma separator next others, cursor, after, more, h => by
      obtain ⟨a, inside, b, rest, hstream, _, hnext, hothers⟩ := h
      obtain ⟨hseparator, rfl⟩ := TokenStream.endsAt_of_ofCursor hstream
      obtain ⟨hlast, rfl⟩ := next.last_endsAt hnext
      obtain ⟨hclosing, hmore⟩ := others.last_endsAt hothers
      exact ⟨hseparator.trans (hlast.trans hclosing), hmore⟩

end

/-- The reader finds an expression exactly where the tokens begin with a derivation of it whose
nesting is within the limit. There is at most one derivation, reading stops right behind its last
token, and nothing is found exactly where the input ends. -/
theorem Cursor.readExpr_recognizes (nesting : Nesting) (hlimit : nesting.base ≤ nesting.limit)
    (cursor : Cursor) :
    (∀ e after more, cursor.readExpr nesting = .value e after more ↔
      ∃ d : Derivation, d.expr = e ∧ d.Spans (.ofCursor true cursor) after more ∧
        (e.nesting : Int) ≤ nesting.limit - nesting.base) ∧
    (∀ d d' : Derivation, ∀ after after' more more', d.Spans (.ofCursor true cursor) after more →
      d'.Spans (.ofCursor true cursor) after' more' → d = d' ∧ after = after' ∧ more = more') ∧
    (∀ d : Derivation, ∀ after more, d.Spans (.ofCursor true cursor) after more →
      d.last.EndsAt cursor after) ∧
    ((∃ stop, cursor.readExpr nesting = .nothing stop) ↔
      ∃ token after, cursor.scan true = (.token token, after) ∧ token.kind = .finish) := by
  refine ⟨fun e after more => ?_, fun d d' _ _ _ _ h h' => d.spans_unique d' h h',
    fun d _ _ h => (d.last_endsAt h).1, ?_⟩
  · have hroom : nesting.Allows 0 e ↔ (e.nesting : Int) ≤ nesting.limit - nesting.base := by
      unfold Nesting.Allows
      omega
    simp only [← hroom]
    exact read_start_eq_value_iff
  · constructor
    · rintro ⟨stop, h⟩
      obtain ⟨_, _, hstream⟩ := eq_finished_of_read_nothing h
      rw [TokenStream.ofCursor] at hstream
      split at hstream
      · cases hstream
      · rename_i token after hscan
        split at hstream <;> cases hstream
        exact ⟨token, _, hscan, ‹_›⟩
    · rintro ⟨token, after, hscan, hkind⟩
      rw [readExpr, TokenStream.ofCursor_of_finish hscan hkind]
      exact ⟨after, rfl⟩

theorem Cursor.readExpr_recognizes_call :
    (0 : Int) ≤ 2 ∧ ∃ d : Derivation, ∃ after more,
      d.expr = .call "f" [.var "a", .call "g" [.int 1]] ∧
      d.Spans (.ofCursor true (.ofText "f(a, g(1)) b" none)) after more ∧ after.offset = 10 := by
  have hread : (Cursor.ofText "f(a, g(1)) b" none).readExpr ⟨2, 0⟩ =
      .value (.call "f" [.var "a", .call "g" [.int 1]]) ⟨⟨[' ', 'b'], 10, 0, 0⟩, none⟩
        (.token ⟨.symbol, "b", ⟨0, 11, none⟩⟩ ⟨⟨[], 12, 0, 0⟩, none⟩
          (.finished ⟨⟨[], 12, 0, 0⟩, none⟩)) := by cbv
  obtain ⟨d, hexpr, hspans, _⟩ :=
    ((Cursor.readExpr_recognizes ⟨2, 0⟩ (by decide) _).1 _ _ _).mp hread
  exact ⟨by decide, d, _, _, hexpr, hspans, rfl⟩

end MacroScript
