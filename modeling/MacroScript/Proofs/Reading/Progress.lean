import MacroScript.Proofs.Reading.Program
import MacroScript.Proofs.Reading.Recognition
import MacroScript.Proofs.Reading.Steps
import MacroScript.Proofs.Token.Tiling

/-!
# Reading again and again

A reader may be asked for the next expression as often as one likes, also after
an error and after the end. An expression and an error both leave it further on
in the text, and where nothing is found once, nothing is found ever after. So a
text is read after at most as many answers as it has characters. The error
answers are the delicate ones: the place where reading restarts after an error
inside a call is behind the first token of an argument, and not behind all
tokens that were taken.
-/
namespace MacroScript

namespace Cursor

/-- The other cursor stands at the same place of the same text or further on. -/
def Onward (cursor after : Cursor) : Prop :=
  ∃ passed, cursor.rest = passed ++ after.rest ∧ after = cursor.past passed after.rest

/-- The other cursor stands further on in the same text. -/
structure MovesOn (cursor after : Cursor) : Prop where
  onward : cursor.Onward after
  offset_lt : cursor.offset < after.offset

variable {cursor middle after : Cursor}

theorem Onward.refl (cursor : Cursor) : cursor.Onward cursor := ⟨[], rfl, rfl⟩

theorem Onward.trans (h : cursor.Onward middle) (h' : middle.Onward after) :
    cursor.Onward after := by
  obtain ⟨passed, hrest, hmiddle⟩ := h
  obtain ⟨more, hrest', hafter⟩ := h'
  refine ⟨passed ++ more, by rw [hrest, hrest', List.append_assoc], ?_⟩
  rw [hmiddle, past_past] at hafter
  exact hafter

theorem onward_past {passed rest : List Char} (h : cursor.rest = passed ++ rest) :
    cursor.Onward (cursor.past passed rest) := by
  refine ⟨passed, ?_, ?_⟩
  · rw [past_rest, h]
  · rw [past_rest]

theorem movesOn_past {passed rest : List Char} (h : cursor.rest = passed ++ rest)
    (hne : passed ≠ []) : cursor.MovesOn (cursor.past passed rest) where
  onward := onward_past h
  offset_lt := by
    have hpos := List.length_pos_iff.mpr hne
    rw [past_offset]
    omega

theorem Onward.offset_add (h : cursor.Onward after) :
    after.offset + after.rest.length = cursor.offset + cursor.rest.length := by
  obtain ⟨passed, hrest, hafter⟩ := h
  have hoffset := cursor.past_offset passed after.rest
  rw [← hafter] at hoffset
  rw [hoffset, hrest, List.length_append]
  omega

theorem Onward.getElem?_offset {text : String} {sourceName : Option String}
    (h : (ofText text sourceName).Onward after) :
    text.toList[after.offset]? = after.rest.head? := by
  obtain ⟨passed, hrest, hafter⟩ := h
  have hoffset : after.offset = passed.length := by
    rw [hafter, past_offset]
    exact Nat.zero_add _
  have htext : text.toList = passed ++ after.rest := hrest
  rw [htext, hoffset, List.getElem?_append_right (Nat.le_refl _), Nat.sub_self,
    List.head?_eq_getElem?]

theorem Onward.offset_le (h : cursor.Onward after) : cursor.offset ≤ after.offset := by
  obtain ⟨passed, -, hafter⟩ := h
  rw [hafter, past_offset]
  omega

theorem Onward.sourceName (h : cursor.Onward after) : after.sourceName = cursor.sourceName := by
  obtain ⟨passed, -, hafter⟩ := h
  rw [hafter]
  rfl

theorem MovesOn.after_onward (h : middle.MovesOn after) (h' : cursor.Onward middle) :
    cursor.MovesOn after where
  onward := h'.trans h.onward
  offset_lt := Nat.lt_of_le_of_lt h'.offset_le h.offset_lt

theorem MovesOn.onward_after (h : cursor.MovesOn middle) (h' : middle.Onward after) :
    cursor.MovesOn after where
  onward := h.onward.trans h'
  offset_lt := Nat.lt_of_lt_of_le h.offset_lt h'.offset_le

theorem MovesOn.rest_lt (h : cursor.MovesOn after) : after.rest.length < cursor.rest.length := by
  have hsum := h.onward.offset_add
  have hlt := h.offset_lt
  omega

end Cursor

theorem Token.EndsAt.movesOn {token : Token} {cursor after : Cursor}
    (h : token.EndsAt cursor after) : cursor.MovesOn after := by
  obtain ⟨passed, chars, rest, hrest, hspell, -, rfl⟩ := h
  apply Cursor.movesOn_past
  · rw [hrest, List.append_assoc]
  · intro hnil
    exact hspell.ne_nil (List.append_eq_nil_iff.mp hnil).2

section Ends

variable {cursor stop : Cursor} {opening : Location}

/-- The input ends at the end of the text or at a null character, and there it ends again. -/
theorem TokenStream.finished_of_ofCursor (h : ofCursor true cursor = .finished stop) :
    cursor.Onward stop ∧ (stop.rest = [] ∨ stop.rest.head? = some '\x00') ∧
      ofCursor true stop = .finished stop := by
  have hunfolds := unfolds cursor
  rw [h] at hunfolds
  cases hunfolds with
  | @finished gap rest hrest hgap hstop =>
      refine ⟨Cursor.onward_past hrest, ?_, ?_⟩
      · rw [Cursor.past_rest]
        cases rest with
        | nil => exact .inl rfl
        | cons c rest => exact .inr (congrArg some (TokenKind.eq_null_of_ofChar (hstop c rfl)))
      · have hrest' : (cursor.past gap rest).rest = [] ++ rest := Cursor.past_rest cursor gap rest
        have hagain : Unfolds (cursor.past gap rest) _ := .finished hrest' nofun hstop
        rw [← hagain.eq, Cursor.past_past, List.append_nil]

theorem TokenStream.unterminated_of_ofCursor
    (h : ofCursor true cursor = .unterminated opening stop) : cursor.MovesOn stop := by
  have hunfolds := unfolds cursor
  rw [h] at hunfolds
  cases hunfolds with
  | @unterminated opening gap rest hrest =>
      apply Cursor.movesOn_past
      · rw [hrest, List.append_nil]
      · simp

end Ends

/-- A step comes to a cursor further on, or to a reader that restarts further on. -/
def ReaderStep.MovesOn (start : Cursor) : ReaderStep → Prop
  | .next reader => start.MovesOn reader.resume
  | .complete _ cursor | .completeBefore _ cursor | .failure _ cursor => start.MovesOn cursor

def Reading.isNothing : Reading → Bool
  | .nothing _ => true
  | .value _ _ _ | .failure _ _ => false

namespace Reader

variable {nesting : Nesting} {reader : Reader} {start place after : Cursor} {token : Token}

theorem RestartsAt.movesOn {resume : Cursor} (h : reader.RestartsAt after resume)
    (hafter : start.MovesOn after) (hresume : reader.HasBegun → start.MovesOn reader.resume) :
    start.MovesOn resume := by
  obtain rfl | ⟨hbegun, rfl⟩ := h
  · exact hafter
  · exact hresume hbegun

theorem take_movesOn (hafter : start.MovesOn after)
    (hresume : reader.HasBegun → start.MovesOn reader.resume) :
    (reader.take nesting token after).MovesOn start := by
  have hstep : reader.StepsTo token after (reader.take nesting token after) := stepsTo_take reader
  generalize reader.take nesting token after = step at hstep
  cases hstep with
  | next _ hrestarts => exact hrestarts.movesOn hafter hresume
  | complete result => exact hafter
  | completeBefore result hbegun => exact hresume hbegun
  | failure _ hrestarts => exact hrestarts.movesOn hafter hresume

theorem read_movesOn (hplace : start.Onward place)
    (hresume : reader.HasBegun → start.MovesOn place ∧ start.MovesOn reader.resume) :
    (reader.read nesting (.ofCursor true place)).isNothing = true ∨
      start.MovesOn (reader.read nesting (.ofCursor true place)).cursor := by
  generalize hstream : TokenStream.ofCursor true place = stream
  induction stream generalizing place reader with
  | finished stop =>
      have hstop := (TokenStream.finished_of_ofCursor hstream).1
      obtain ⟨calls, head, resume⟩ := reader
      cases calls with
      | nil =>
          cases head with
          | none => exact .inl rfl
          | some symbol => exact .inr (hresume (.inr (Option.some_ne_none symbol))).2
      | cons call outer =>
          obtain ⟨hhere, hback⟩ := hresume (.inl (List.cons_ne_nil call outer))
          exact .inr ((restartsAt_behind _ stop).movesOn (hhere.onward_after hstop) fun _ => hback)
  | unterminated opening stop =>
      have hstop := (TokenStream.unterminated_of_ofCursor hstream).after_onward hplace
      unfold read breakOff
      apply Or.inr
      unfold Reading.cursor
      dsimp only
      split_ifs with hhead
      · apply (hresume (.inr _)).2
        intro hnone
        rw [hnone] at hhead
        cases hhead
      · exact (restartsAt_behind reader stop).movesOn hstop fun hbegun => (hresume hbegun).2
  | token token behind more ih =>
      obtain ⟨hends, rfl⟩ := TokenStream.endsAt_of_ofCursor hstream
      have hbehind := hends.movesOn.after_onward hplace
      have hstep : (reader.take nesting token behind).MovesOn start :=
        take_movesOn hbehind fun hbegun => (hresume hbegun).2
      unfold read
      cases htake : reader.take nesting token behind with
      | next reader' =>
          rw [htake] at hstep
          exact ih hbehind.onward (fun _ => ⟨hbehind, hstep⟩) rfl
      | complete e after =>
          rw [htake] at hstep
          exact .inr hstep
      | completeBefore e before =>
          rw [htake] at hstep
          exact .inr hstep
      | failure error resume =>
          rw [htake] at hstep
          exact .inr hstep

/-- Outside of all calls and in the outermost one, reading restarts behind what was taken last. -/
theorem takeFresh_resume {calls : List OpenCall} (hcalls : calls.length ≤ 1)
    (resume resume' : Cursor) :
    takeFresh nesting ⟨calls, none, resume⟩ token after =
      takeFresh nesting ⟨calls, none, resume'⟩ token after := by
  have hbehind : behind ⟨calls, none, resume⟩ after = behind ⟨calls, none, resume'⟩ after := by
    simp only [behind, hcalls, if_true]
  cases calls with
  | nil =>
      cases hkind : token.kind <;>
        simp only [takeFresh, hkind, startExpr, refusal, deliver, hbehind]
  | cons call outer =>
      have houter : outer = [] :=
        List.eq_nil_of_length_eq_zero (Nat.le_zero.mp (Nat.le_of_succ_le_succ hcalls))
      subst houter
      cases hkind : token.kind <;>
        simp only [takeFresh, hkind, startExpr, refusal, deliver, hbehind]

theorem read_resume {calls : List OpenCall} (hcalls : calls.length ≤ 1) (resume resume' : Cursor)
    (stream : TokenStream) :
    read nesting ⟨calls, none, resume⟩ stream = read nesting ⟨calls, none, resume'⟩ stream := by
  cases stream with
  | finished stop => cases calls <;> simp only [read, finish, behind, hcalls, if_true]
  | unterminated opening stop =>
      simp only [read, breakOff, behind, hcalls, if_true, Option.isSome_none, Bool.false_eq_true,
        if_false]
  | token token after more => simp only [read, take, takeFresh_resume hcalls resume resume']

end Reader

namespace Reading

def expr? : Reading → Option Expr
  | .value e _ _ => some e
  | .nothing _ | .failure _ _ => none

def error? : Reading → Option ParseError
  | .failure error _ => some error
  | .value _ _ _ | .nothing _ => none

theorem isNothing_of_expr? {reading : Reading} {e : Expr} (h : reading.expr? = some e) :
    reading.isNothing = false := by
  cases reading with
  | nothing stop => cases h
  | value | failure => rfl

end Reading

namespace Cursor

variable {nesting : Nesting} {cursor after stop : Cursor} {e : Expr} {more : TokenStream}

theorem readExpr_movesOn (nesting : Nesting) (cursor : Cursor) :
    (cursor.readExpr nesting).isNothing = true ∨
      cursor.MovesOn (cursor.readExpr nesting).cursor := by
  apply Reader.read_movesOn (.refl cursor)
  simp [Reader.HasBegun, Reader.start]

theorem readExpr_nothing (h : cursor.readExpr nesting = .nothing stop) :
    cursor.Onward stop ∧ (stop.rest = [] ∨ stop.rest.head? = some '\x00') ∧
      stop.readExpr nesting = .nothing stop := by
  obtain ⟨-, -, hstream⟩ := Reader.eq_finished_of_read_nothing h
  obtain ⟨honward, hend, hagain⟩ := TokenStream.finished_of_ofCursor hstream
  refine ⟨honward, hend, ?_⟩
  unfold readExpr
  rw [hagain]
  rfl

/-- Behind an expression the tokens are those of the text from there on. -/
theorem readExpr_more (h : cursor.readExpr nesting = .value e after more) :
    more = .ofCursor true after := by
  obtain ⟨d, -, hspans, -⟩ := Reader.read_start_eq_value_iff.mp h
  exact (d.last_endsAt hspans).2

theorem readExpr_value_movesOn (h : cursor.readExpr nesting = .value e after more) :
    cursor.MovesOn after := by
  have hmoves := cursor.readExpr_movesOn nesting
  rw [h] at hmoves
  exact hmoves.resolve_left Bool.false_ne_true

theorem readExpr_onward (nesting : Nesting) (cursor : Cursor) :
    cursor.Onward (cursor.readExpr nesting).cursor := by
  obtain hnothing | hmoves := cursor.readExpr_movesOn nesting
  · cases hread : cursor.readExpr nesting with
    | nothing stop => exact (readExpr_nothing hread).1
    | value e after more => rw [hread] at hnothing; cases hnothing
    | failure error resume => rw [hread] at hnothing; cases hnothing
  · exact hmoves.onward

theorem skipIllegals_skipIllegals (cursor : Cursor) :
    cursor.skipIllegals.skipIllegals = cursor.skipIllegals := by
  obtain ⟨gap, rest, hrest, hgap, hstop⟩ := exists_run TokenKind.illegal.includes cursor.rest
  have hskip : cursor.skipIllegals = cursor.past gap rest := advanceRun_run hrest hgap hstop
  have hagain : (cursor.past gap rest).skipIllegals = (cursor.past gap rest).past [] rest :=
    advanceRun_run (past_rest cursor gap rest) nofun hstop
  rw [hskip, hagain, past_past, List.append_nil]

/-- Ignored characters before a reading make no difference. -/
theorem readExpr_skipIllegals (nesting : Nesting) (cursor : Cursor) :
    TokenStream.ofCursor true cursor.skipIllegals = .ofCursor true cursor ∧
      cursor.skipIllegals.readExpr nesting = cursor.readExpr nesting := by
  have hstream : TokenStream.ofCursor true cursor.skipIllegals = .ofCursor true cursor := by
    apply TokenStream.ofCursor_congr
    simp only [scan, if_true, skipIllegals_skipIllegals]
  have hnone : ([] : List OpenCall).length ≤ 1 := Nat.zero_le 1
  constructor
  · exact hstream
  · unfold readExpr
    rw [hstream]
    exact Reader.read_resume hnone cursor.skipIllegals cursor _

/-- The cursor behind a number of readings, each of which starts where the one before it says. -/
def afterReadings (nesting : Nesting) : Nat → Cursor → Cursor
  | 0, cursor => cursor
  | n + 1, cursor => afterReadings nesting n (cursor.readExpr nesting).cursor

theorem afterReadings_add (nesting : Nesting) (m n : Nat) (cursor : Cursor) :
    cursor.afterReadings nesting (m + n) =
      (cursor.afterReadings nesting m).afterReadings nesting n := by
  induction m generalizing cursor with
  | zero => rw [Nat.zero_add]; rfl
  | succ m ih =>
      rw [Nat.succ_add]
      exact ih _

theorem afterReadings_onward (nesting : Nesting) (n : Nat) (cursor : Cursor) :
    cursor.Onward (cursor.afterReadings nesting n) := by
  induction n generalizing cursor with
  | zero => exact .refl cursor
  | succ n ih => exact (cursor.readExpr_onward nesting).trans (ih _)

theorem afterReadings_of_nothing (h : cursor.readExpr nesting = .nothing stop) (n : Nat) :
    (cursor.afterReadings nesting n).readExpr nesting = .nothing stop := by
  induction n generalizing cursor with
  | zero => exact h
  | succ n ih =>
      apply ih
      rw [h]
      exact (readExpr_nothing h).2.2

/-- Something is found by the first readings and by none after them. They are at most as many as
there are characters left. -/
theorem exists_readings (nesting : Nesting) (cursor : Cursor) :
    ∃ found ≤ cursor.rest.length, ∀ n,
      ((cursor.afterReadings nesting n).readExpr nesting).isNothing = false ↔ n < found := by
  induction hn : cursor.rest.length using Nat.strong_induction_on generalizing cursor with
  | _ size ih =>
      cases hread : cursor.readExpr nesting with
      | nothing stop =>
          refine ⟨0, Nat.zero_le size, fun n => ?_⟩
          rw [afterReadings_of_nothing hread]
          simp [Reading.isNothing]
      | value | failure =>
          have hfound : (cursor.readExpr nesting).isNothing = false := by rw [hread]; rfl
          have hmoves := (cursor.readExpr_movesOn nesting).resolve_left (by simp [hfound])
          have hlt := hn ▸ hmoves.rest_lt
          obtain ⟨found, hle, hiff⟩ := ih _ hlt _ rfl
          refine ⟨found + 1, by omega, fun n => ?_⟩
          cases n with
          | zero => exact iff_of_true hfound (Nat.succ_pos found)
          | succ n =>
              rw [Nat.succ_lt_succ_iff]
              exact hiff n

end Cursor

namespace Program

variable {nesting : Nesting} {cursor after : Cursor} {e : Expr} {more : TokenStream}

theorem ofCursor_of_value (h : cursor.readExpr nesting = .value e after more) :
    (ofCursor nesting cursor).items =
        ⟨e, .ofCursor true cursor⟩ :: (ofCursor nesting after).items ∧
      (ofCursor nesting cursor).error = (ofCursor nesting after).error := by
  have hmore := Cursor.readExpr_more h
  subst hmore
  unfold Cursor.readExpr at h
  rw [ofCursor, ofStream]
  split <;> rename_i hread <;> rw [h] at hread <;> cases hread
  exact ⟨rfl, rfl⟩

theorem ofCursor_of_no_value (h : (cursor.readExpr nesting).expr? = none) :
    (ofCursor nesting cursor).items = [] ∧
      (ofCursor nesting cursor).error = (cursor.readExpr nesting).error? := by
  unfold Cursor.readExpr at h ⊢
  rw [ofCursor, ofStream]
  split <;> rename_i hread <;> rw [hread] at h ⊢
  · cases h
  · exact ⟨rfl, rfl⟩
  · exact ⟨rfl, rfl⟩

/-- A program holds what one reading after the other finds, up to the first one that finds no
expression. -/
structure Collects (nesting : Nesting) (start : Cursor) (program : Program) : Prop where
  expr : ∀ n ≤ program.items.length,
    ((start.afterReadings nesting n).readExpr nesting).expr? = program.exprs[n]?
  tokens : ∀ n (item : TopLevel), program.items[n]? = some item →
    item.tokens = .ofCursor true (start.afterReadings nesting n)
  error : ((start.afterReadings nesting program.items.length).readExpr nesting).error? =
    program.error

theorem collects (nesting : Nesting) (cursor : Cursor) :
    (ofCursor nesting cursor).Collects nesting cursor := by
  induction hn : cursor.rest.length using Nat.strong_induction_on generalizing cursor with
  | _ size ih =>
      cases hread : cursor.readExpr nesting with
      | value e after more =>
          obtain ⟨hitems, herror⟩ := ofCursor_of_value hread
          have hmoves : cursor.MovesOn after := Cursor.readExpr_value_movesOn hread
          have hlater : (ofCursor nesting after).Collects nesting after :=
            ih _ (hn ▸ hmoves.rest_lt) after rfl
          have hnext : ∀ n,
              cursor.afterReadings nesting (n + 1) = after.afterReadings nesting n := by
            intro n
            rw [Cursor.afterReadings, hread]
            rfl
          constructor
          · intro n hle
            cases n with
            | zero => simp [exprs, hitems, Cursor.afterReadings, hread, Reading.expr?]
            | succ n =>
                have hexpr := hlater.expr n (by simpa [hitems] using hle)
                rw [hnext, hexpr]
                simp [exprs, hitems]
          · intro n item hitem
            cases n with
            | zero =>
                rw [hitems] at hitem
                cases hitem
                rfl
            | succ n =>
                rw [hitems] at hitem
                rw [hnext]
                exact hlater.tokens n item hitem
          · rw [hitems, List.length_cons, hnext, herror]
            exact hlater.error
      | nothing | failure =>
          have hnone : (cursor.readExpr nesting).expr? = none := by rw [hread]; rfl
          obtain ⟨hitems, herror⟩ := ofCursor_of_no_value hnone
          constructor
          · intro n hle
            obtain rfl : n = 0 := by simpa [hitems] using hle
            rw [exprs, hitems]
            exact hnone
          · intro n item hitem
            simp [hitems] at hitem
          · rw [hitems]
            exact herror.symm

end Program

/-- Reading starts at this offset of a text. -/
def Cursor.atOffset (text : String) (sourceName : Option String) (offset : Nat) : Cursor :=
  (ofText text sourceName).past (text.toList.take offset) (text.toList.drop offset)

/-- From any place of a text and however often one reads, an expression and an error leave the
reader at a larger offset, and when nothing is found the reader stands at the end of the text or
at a null character and nothing is found ever after. Something is found at most as often as the
text has characters. So the program of a text, which is what the readings find up to the first one
that finds no expression, is complete after so many of them; to pass the ignored characters before
each reading, as is done for the index, changes no answer. -/
theorem Cursor.readings_progress (nesting : Nesting) (text : String) (sourceName : Option String)
    (offset : Nat) :
    let start := atOffset text sourceName offset
    let reading := fun n => (start.afterReadings nesting n).readExpr nesting
    (∀ n, (reading n).isNothing = false →
      (start.afterReadings nesting n).offset < (reading n).cursor.offset ∧
        (reading n).cursor.offset ≤ text.length) ∧
    (∀ n, (reading n).isNothing = true →
      ((reading n).cursor.offset = text.length ∨
        text.toList[(reading n).cursor.offset]? = some '\x00') ∧
      ∀ m ≥ n, reading m = .nothing (reading n).cursor) ∧
    (∃ found ≤ text.length, (∀ n, (reading n).isNothing = false ↔ n < found) ∧
      (Program.ofCursor nesting start).items.length ≤ found) ∧
    (Program.ofCursor nesting start).Collects nesting start ∧
    ∀ n, (start.afterReadings nesting n).skipIllegals.readExpr nesting = reading n := by
  intro start reading
  have hstart : (ofText text sourceName).Onward start :=
    onward_past (List.take_append_drop offset text.toList).symm
  have hwithin : ∀ n, (ofText text sourceName).Onward (reading n).cursor := by
    intro n
    have hbefore := hstart.trans (start.afterReadings_onward nesting n)
    exact hbefore.trans (readExpr_onward nesting _)
  have hlength : ∀ n, (reading n).cursor.offset + (reading n).cursor.rest.length = text.length := by
    intro n
    rw [(hwithin n).offset_add, ← text.length_toList]
    exact Nat.zero_add _
  have hcollects := Program.collects nesting start
  refine ⟨?_, ?_, ?_, hcollects, ?_⟩
  · intro n hfound
    have hmoves := ((start.afterReadings nesting n).readExpr_movesOn nesting).resolve_left
      (Bool.eq_false_iff.mp hfound)
    have hsum := hlength n
    exact ⟨hmoves.offset_lt, by omega⟩
  · intro n hnothing
    cases hread : reading n with
    | value | failure => rw [hread] at hnothing; cases hnothing
    | nothing stop =>
        obtain ⟨-, hend, hagain⟩ := readExpr_nothing hread
        have hsum := hlength n
        have hchar := (hwithin n).getElem?_offset
        rw [hread] at hsum hchar
        constructor
        · obtain hrest | hnull := hend
          · left
            simpa [Reading.cursor, hrest] using hsum
          · right
            exact hchar.trans hnull
        · intro m hm
          obtain ⟨later, rfl⟩ := Nat.exists_eq_add_of_le hm
          have hlater := afterReadings_of_nothing hread later
          rw [← afterReadings_add] at hlater
          exact hlater
  · obtain ⟨found, hfound, hiff⟩ := start.exists_readings nesting
    have hsum := hstart.offset_add
    have hleft : start.rest.length ≤ text.length := by
      simp only [ofText, text.length_toList] at hsum
      omega
    refine ⟨found, hfound.trans hleft, hiff, ?_⟩
    by_contra hmore
    -- The reading after the last one that finds something would have found an expression.
    have hexpr := hcollects.expr found (by omega)
    rw [Program.exprs, List.getElem?_map, List.getElem?_eq_getElem (by omega)] at hexpr
    exact Nat.lt_irrefl found ((hiff found).mp (Reading.isNothing_of_expr? hexpr))
  · intro n
    exact ((start.afterReadings nesting n).readExpr_skipIllegals nesting).2

end MacroScript
