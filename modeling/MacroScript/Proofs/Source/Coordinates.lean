import MacroScript.Proofs.Reading.Descent

/-!
# Coordinates describe the offset

A cursor does not look for the row and the start of its line: it moves them
along when it passes a character, and takes them over from another cursor when
it is made a copy of it or is put at a snapshot of it. Any number of cursors on
one text may be used in any order, by hand and by readers, and may be used again
after a use that failed. Whatever was done with them, the coordinates of each
are those that its offset has in the text, so that no two places of a text are
ever given by the same row and column. An advance that is refused, which happens
at the end of the text only, leaves everything as it was.

What carries this through is that every cursor and every snapshot is one that
stands behind the first characters of the text. A snapshot may be taken over by
a cursor of another name, so this is said of the mark alone.
-/
namespace MacroScript

/-- Where the last line of some characters starts: just behind the last newline, or at their front
if there is none. -/
inductive LastLineStart : List Char → Nat → Prop where
  | front {line : List Char} : '\n' ∉ line → LastLineStart line 0
  | behind {before line : List Char} :
      '\n' ∉ line → LastLineStart (before ++ '\n' :: line) (before.length + 1)

theorem LastLineStart.le {cs : List Char} {start : Nat} (h : LastLineStart cs start) :
    start ≤ cs.length := by
  cases h with
  | front => exact Nat.zero_le _
  | behind =>
      rw [List.length_append, List.length_cons]
      omega

/-- The last line is what is left if one goes back from the end up to a newline. -/
theorem LastLineStart.of_takeWhile {cs : List Char} {start : Nat}
    (h : start + (cs.reverse.takeWhile (· != '\n')).length = cs.length) :
    LastLineStart cs start := by
  obtain ⟨run, before, hsplit, hrun, hstop⟩ := exists_run (· != '\n') cs.reverse
  rw [hsplit, takeWhile_run hrun hstop] at h
  obtain rfl : cs = before.reverse ++ run.reverse := by
    rw [← List.reverse_append, ← hsplit, List.reverse_reverse]
  have hline : '\n' ∉ run.reverse := by
    intro hmem
    simpa using hrun '\n' (List.mem_reverse.mp hmem)
  rw [List.length_append, List.length_reverse, List.length_reverse] at h
  cases before with
  | nil =>
      obtain rfl : start = 0 := by simpa using h
      exact .front hline
  | cons c before =>
      obtain rfl : c = '\n' := by simpa using hstop c rfl
      obtain rfl : start = before.reverse.length + 1 := by
        rw [List.length_cons] at h
        rw [List.length_reverse]
        omega
      rw [List.reverse_cons, List.append_assoc]
      exact .behind hline

/-- The mark stands behind the first characters of the text. -/
def Mark.StandsIn (text : String) (mark : Mark) : Prop :=
  ∀ sourceName, (Cursor.ofText text sourceName).Onward ⟨mark, sourceName⟩

namespace Cursor

/-- The coordinates of the cursor are those that its offset has in the text. -/
structure Describes (text : String) (cursor : Cursor) : Prop where
  within : cursor.offset ≤ text.length
  ahead : cursor.rest = text.toList.drop cursor.offset
  row : cursor.row = (text.toList.take cursor.offset).count '\n'
  lineStart : LastLineStart (text.toList.take cursor.offset) cursor.lineStart
  column : cursor.lineStart + cursor.column = cursor.offset

variable {text : String} {cursor other after : Cursor}

theorem standsIn_ofText (text : String) (sourceName : Option String) :
    (ofText text sourceName).toMark.StandsIn text :=
  fun name => .refl (ofText text name)

theorem Onward.standsIn (h : cursor.Onward after) (hcursor : cursor.toMark.StandsIn text) :
    after.toMark.StandsIn text := by
  intro sourceName
  obtain ⟨passed, hrest, hafter⟩ := h
  refine (hcursor sourceName).trans ⟨passed, hrest, ?_⟩
  exact congrArg (fun cursor : Cursor => (⟨cursor.toMark, sourceName⟩ : Cursor)) hafter

/-- The characters behind which the cursor stands are the first ones of the text, as many as its
offset says. -/
theorem eq_past_take (h : cursor.toMark.StandsIn text) :
    let passed := text.toList.take cursor.offset
    passed.length = cursor.offset ∧ text.toList = passed ++ cursor.rest ∧
      cursor = (ofText text cursor.sourceName).past passed cursor.rest := by
  obtain ⟨passed, hrest, hcursor⟩ := h cursor.sourceName
  have htext : text.toList = passed ++ cursor.rest := hrest
  have hoffset : cursor.offset = 0 + passed.length :=
    (congrArg (fun cursor : Cursor => cursor.offset) hcursor).trans (past_offset _ _ _)
  rw [Nat.zero_add] at hoffset
  have htake : text.toList.take cursor.offset = passed := by
    rw [htext, hoffset, List.take_left]
  rw [htake]
  exact ⟨hoffset.symm, htext, hcursor⟩

theorem describes_of_standsIn (h : cursor.toMark.StandsIn text) : cursor.Describes text := by
  obtain ⟨hlength, htext, hcursor⟩ := eq_past_take h
  obtain ⟨hrow, hstart⟩ :=
    Mark.past_coordinates text.toList (text.toList.take cursor.offset) cursor.rest
  have hrow' := congrArg (fun cursor : Cursor => cursor.row) hcursor
  have hstart' := congrArg (fun cursor : Cursor => cursor.lineStart) hcursor
  have hline : LastLineStart (text.toList.take cursor.offset) cursor.lineStart := by
    apply LastLineStart.of_takeWhile
    rw [hstart']
    exact hstart
  constructor
  · have hwithin := congrArg List.length htext
    rw [List.length_append, hlength, text.length_toList] at hwithin
    omega
  · rw [← List.append_right_inj, ← htext, List.take_append_drop]
  · exact hrow'.trans hrow
  · exact hline
  · have hle := hline.le
    rw [column]
    omega

theorem rest_eq_nil_iff (h : cursor.toMark.StandsIn text) :
    cursor.rest = [] ↔ cursor.offset = text.length := by
  have hplace := describes_of_standsIn h
  rw [hplace.ahead, List.drop_eq_nil_iff, text.length_toList]
  exact ⟨fun hle => Nat.le_antisymm hplace.within hle, fun he => he.ge⟩

theorem location_eq_behind (h : cursor.toMark.StandsIn text) :
    cursor.location = .behind (text.toList.take cursor.offset) cursor.sourceName := by
  have hplace := location_past_ofText text cursor.sourceName (text.toList.take cursor.offset)
    cursor.rest
  rwa [← (eq_past_take h).2.2] at hplace

theorem offset_eq_iff (h : cursor.toMark.StandsIn text) (hother : other.toMark.StandsIn text) :
    cursor.location.row = other.location.row ∧ cursor.location.column = other.location.column ↔
      cursor.offset = other.offset := by
  rw [location_eq_behind h, location_eq_behind hother]
  constructor
  · rintro ⟨hrow, hcolumn⟩
    have hwithin := (describes_of_standsIn h).within
    have hwithin' := (describes_of_standsIn hother).within
    rw [← text.length_toList] at hwithin hwithin'
    -- Cursors of different names may stand in one text, and the names are no coordinates.
    have hsame : Location.behind (text.toList.take cursor.offset) none =
        Location.behind (text.toList.take other.offset) none :=
      congrArg₂ (fun row column => (⟨row, column, none⟩ : Location)) hrow hcolumn
    exact Location.behind_take_injective hwithin hwithin' hsame
  · intro hoffset
    rw [hoffset]
    exact ⟨rfl, rfl⟩

/-! ### What readers do with a cursor -/

theorem skipIllegals_onward (cursor : Cursor) : cursor.Onward cursor.skipIllegals := by
  rw [skipIllegals, advanceRun_eq_past]
  exact onward_past List.takeWhile_append_dropWhile.symm

theorem scanHere_onward (cursor : Cursor) : cursor.Onward cursor.scanHere.2 := by
  obtain ⟨kind, text, chars, rest, hrest, hspell, hstop⟩ | hfinish |
    ⟨opening, rest, hrest, hopening, hall⟩ := cursor.scannable
  · rw [scanHere_of_spelling hspell hstop hrest]
    exact onward_past hrest
  · rw [scanHere_of_finish hfinish]
    exact .refl cursor
  · rw [scanHere_of_unclosed hrest hopening hall]
    exact onward_past (by rw [hrest, List.append_nil])

/-- Also a string that is not closed leaves the cursor in its text. -/
theorem scan_onward (skipping : Bool) (cursor : Cursor) :
    cursor.Onward (cursor.scan skipping).2 := by
  cases skipping with
  | false => exact cursor.scanHere_onward
  | true => exact cursor.skipIllegals_onward.trans cursor.skipIllegals.scanHere_onward

end Cursor

namespace Descent

open MacroScript.Action

variable {cursor after : Cursor} {fault : Fault}

theorem advance_nil (h : cursor.rest = []) :
    advance cursor = .error (.endOfInput cursor.location) cursor := by
  simp only [advance, Cursor.advance?, h]

theorem advance_error_iff : advance cursor = .error fault after ↔
    cursor.rest = [] ∧ fault = .endOfInput cursor.location ∧ after = cursor := by
  cases hrest : cursor.rest with
  | nil =>
      rw [advance_nil hrest]
      simp [eq_comm]
  | cons c rest =>
      rw [advance_cons hrest]
      simp

theorem advance_onward (cursor : Cursor) : cursor.Onward (advance.final cursor) := by
  cases hrest : cursor.rest with
  | nil =>
      rw [final, advance_nil hrest]
      exact .refl cursor
  | cons c rest =>
      rw [final, advance_cons hrest]
      exact Cursor.onward_past hrest

theorem nextToken_onward (skipping : Bool) (cursor : Cursor) :
    cursor.Onward ((nextToken skipping).final cursor) := by
  have honward := cursor.scan_onward skipping
  rw [final, nextToken_eq]
  rcases hscan : cursor.scan skipping with ⟨lexeme, stop⟩
  rw [hscan] at honward
  cases lexeme with
  | token | unterminated => exact honward

theorem peekToken_onward (cursor : Cursor) : cursor.Onward (peekToken.final cursor) := by
  rw [final, peekToken_eq]
  cases (cursor.scan true).1 with
  | token | unterminated => exact .refl cursor

theorem nextExpr_onward (nesting : Nesting) (cursor : Cursor) :
    cursor.Onward ((nextExpr nesting).final cursor) := by
  rw [final, nextExpr_eq]
  exact cursor.readExpr_onward nesting

end Descent

/-- Cursors on one text, and the snapshots that were taken of them. -/
structure Cursors (text : String) where
  cursors : List Cursor
  marks : List Mark

namespace Cursors

open MacroScript.Action

/-- What can be done with the cursors on a text. Besides the uses by hand, a reader may look at a
token, take one, or read an expression. A number that no cursor or no snapshot has stands for
nothing, and nothing is done. -/
inductive Use where
  | start (sourceName : Option String)
  | advance (id : Nat)
  | snapshot (id : Nat)
  | restore (id slot : Nat)
  | fork (id : Nat)
  | peek (id : Nat)
  | token (id : Nat) (skipping : Bool)
  | expression (id : Nat) (nesting : Nesting)

variable {text : String}

/-- Let the cursor of this number act. Where it then stands remains, also on a fault. -/
def onCursor {α : Type} (id : Nat) (action : Action Cursor α) : Action (Cursors text) Unit :=
  fun all =>
    match all.cursors[id]? with
    | none => .ok () all
    | some cursor =>
        match action cursor with
        | .ok _ after => .ok () { all with cursors := all.cursors.set id after }
        | .error fault after => .error fault { all with cursors := all.cursors.set id after }

/-- The copy of a cursor is a cursor of its own on the text, put where the other one stands. -/
def copied (text : String) (cursor : Cursor) : Cursor :=
  (Cursor.ofText text cursor.sourceName).restore cursor.snapshot

/-- The operation that is used. -/
def Use.action : Use → Action (Cursors text) Unit
  | start sourceName => modify fun all =>
      { all with cursors := all.cursors ++ [Cursor.ofText text sourceName] }
  | advance id => onCursor id Descent.advance
  | snapshot id => modify fun all =>
      { all with marks := all.marks ++ all.cursors[id]?.toList.map Cursor.snapshot }
  | restore id slot => do
      match (← get).marks[slot]? with
      | none => pure ()
      | some mark => onCursor id (modify (·.restore mark))
  | fork id => modify fun all =>
      { all with cursors := all.cursors ++ all.cursors[id]?.toList.map (copied text) }
  | peek id => onCursor id Descent.peekToken
  | token id skipping => onCursor id (Descent.nextToken skipping)
  | expression id nesting => onCursor id (Descent.nextExpr nesting)

/-- Neither a cursor nor a snapshot so far. -/
def unused (text : String) : Cursors text := ⟨[], []⟩

/-- What is there behind one use after another, whether or not they failed. -/
def after (all : Cursors text) (uses : List Use) : Cursors text :=
  uses.foldl (fun all use => use.action.final all) all

/-- All cursors and all snapshots stand in the text. -/
structure StandIn (all : Cursors text) : Prop where
  cursors : ∀ cursor ∈ all.cursors, cursor.toMark.StandsIn text
  marks : ∀ mark ∈ all.marks, mark.StandsIn text

variable {all later : Cursors text} {id : Nat} {fault : Fault}

theorem onCursor_error_iff {α : Type} {action : Action Cursor α} :
    onCursor id action all = .error fault later ↔
      ∃ cursor after, all.cursors[id]? = some cursor ∧ action cursor = .error fault after ∧
        later = { all with cursors := all.cursors.set id after } := by
  unfold onCursor
  cases all.cursors[id]? with
  | none => simp
  | some cursor => cases hend : action cursor <;> simp [hend, eq_comm]

theorem onCursor_none {α : Type} {action : Action Cursor α} (h : all.cursors[id]? = none) :
    onCursor id action all = .ok () all := by
  simp only [onCursor, h]

theorem final_onCursor {α : Type} {action : Action Cursor α} {cursor : Cursor}
    (h : all.cursors[id]? = some cursor) : (onCursor id action).final all =
      { all with cursors := all.cursors.set id (action.final cursor) } := by
  simp only [final, onCursor, h]
  cases action cursor <;> rfl

namespace StandIn

theorem unused (text : String) : (unused text).StandIn := ⟨nofun, nofun⟩

theorem set (h : all.StandIn) {after : Cursor} (hafter : after.toMark.StandsIn text) :
    ({ all with cursors := all.cursors.set id after } : Cursors text).StandIn where
  cursors cursor hcursor := by
    obtain hcursor | rfl := List.mem_or_eq_of_mem_set hcursor
    · exact h.cursors cursor hcursor
    · exact hafter
  marks := h.marks

theorem append (h : all.StandIn) {more : List Cursor}
    (hmore : ∀ cursor ∈ more, cursor.toMark.StandsIn text) :
    ({ all with cursors := all.cursors ++ more } : Cursors text).StandIn where
  cursors := List.forall_mem_append.mpr ⟨h.cursors, hmore⟩
  marks := h.marks

theorem onCursor (h : all.StandIn) {α : Type} {action : Action Cursor α}
    (haction : ∀ cursor ∈ all.cursors, (action.final cursor).toMark.StandsIn text) :
    ((onCursor id action).final all).StandIn := by
  cases hcursor : all.cursors[id]? with
  | none =>
      rw [final, onCursor_none hcursor]
      exact h
  | some cursor =>
      rw [final_onCursor hcursor]
      exact h.set (haction cursor (List.mem_of_getElem? hcursor))

/-- What only moves on keeps every cursor in the text. -/
theorem moving (h : all.StandIn) {α : Type} {action : Action Cursor α}
    (haction : ∀ cursor : Cursor, cursor.Onward (action.final cursor)) :
    ((Cursors.onCursor id action).final all).StandIn :=
  h.onCursor fun cursor hcursor => (haction cursor).standsIn (h.cursors cursor hcursor)

theorem step (h : all.StandIn) (use : Use) : (use.action.final all).StandIn := by
  cases use with
  | start sourceName =>
      apply h.append
      intro cursor hcursor
      rw [List.mem_singleton.mp hcursor]
      exact Cursor.standsIn_ofText text sourceName
  | advance id => exact h.moving Descent.advance_onward
  | snapshot id =>
      refine ⟨h.cursors, List.forall_mem_append.mpr ⟨h.marks, ?_⟩⟩
      intro mark hmark
      obtain ⟨cursor, hcursor, rfl⟩ := List.mem_map.mp hmark
      exact h.cursors cursor (List.mem_of_getElem? (Option.mem_toList.mp hcursor))
  | restore id slot =>
      rw [Use.action, final, get_bind]
      cases hmark : all.marks[slot]? with
      | none => exact h
      | some mark => exact h.onCursor fun _ _ => h.marks mark (List.mem_of_getElem? hmark)
  | fork id =>
      apply h.append
      intro cursor hcursor
      obtain ⟨original, horiginal, rfl⟩ := List.mem_map.mp hcursor
      exact h.cursors original (List.mem_of_getElem? (Option.mem_toList.mp horiginal))
  | peek id => exact h.moving Descent.peekToken_onward
  | token id skipping => exact h.moving (Descent.nextToken_onward skipping)
  | expression id nesting => exact h.moving (Descent.nextExpr_onward nesting)

theorem after (h : all.StandIn) (uses : List Use) : (all.after uses).StandIn := by
  induction uses generalizing all with
  | nil => exact h
  | cons use uses ih => exact ih (h.step use)

end StandIn

/-- To pass the end of the text fails and changes nothing. -/
theorem advance_error_iff (h : all.StandIn) :
    (Use.advance id).action all = .error fault later ↔
      ∃ cursor, all.cursors[id]? = some cursor ∧ cursor.offset = text.length ∧
        fault = .endOfInput cursor.location ∧ later = all := by
  rw [Use.action, onCursor_error_iff]
  have hend : ∀ cursor, all.cursors[id]? = some cursor →
      (cursor.rest = [] ↔ cursor.offset = text.length) := fun cursor hcursor =>
    Cursor.rest_eq_nil_iff (h.cursors cursor (List.mem_of_getElem? hcursor))
  have hput : ∀ cursor, all.cursors[id]? = some cursor → all.cursors.set id cursor = all.cursors := by
    intro cursor hcursor
    obtain ⟨hlt, rfl⟩ := List.getElem?_eq_some_iff.mp hcursor
    exact List.set_getElem_self hlt
  constructor
  · rintro ⟨cursor, after, hcursor, hadvance, rfl⟩
    obtain ⟨hrest, rfl, rfl⟩ := Descent.advance_error_iff.mp hadvance
    refine ⟨after, hcursor, (hend after hcursor).mp hrest, rfl, ?_⟩
    rw [hput after hcursor]
  · rintro ⟨cursor, hcursor, hoffset, rfl, rfl⟩
    have hrest := (hend cursor hcursor).mpr hoffset
    refine ⟨cursor, cursor, hcursor, Descent.advance_error_iff.mpr ⟨hrest, rfl, rfl⟩, ?_⟩
    rw [hput cursor hcursor]

theorem advance_ok (h : all.StandIn) {cursor : Cursor} (hcursor : all.cursors[id]? = some cursor)
    (hlt : cursor.offset < text.length) :
    ∃ next : Cursor, (Use.advance id).action all =
        .ok () { all with cursors := all.cursors.set id next } ∧
      next.offset = cursor.offset + 1 ∧ next.sourceName = cursor.sourceName := by
  have hstands := h.cursors cursor (List.mem_of_getElem? hcursor)
  have hne : cursor.rest ≠ [] := fun hnil => hlt.ne ((Cursor.rest_eq_nil_iff hstands).mp hnil)
  obtain ⟨c, rest, hrest⟩ := List.exists_cons_of_ne_nil hne
  refine ⟨cursor.past [c] rest, ?_, cursor.past_offset [c] rest, rfl⟩
  simp only [Use.action, onCursor, hcursor, Descent.advance_cons hrest]

/-- Whatever is done with any number of cursors on a text, by hand and by readers and whichever uses
fail, the coordinates of each cursor describe its offset. So two offsets of the text never have the
same row and column, whenever and on whichever cursor they are looked at. To advance a cursor fails
exactly at the end of the text, and then nothing is changed; elsewhere this one cursor goes one
character on. -/
theorem coordinates_describe_offset (text : String) (uses : List Use) :
    let all := (unused text).after uses
    (∀ cursor ∈ all.cursors, cursor.Describes text) ∧
    (∀ others, ∀ cursor ∈ all.cursors, ∀ other ∈ ((unused text).after others).cursors,
      (cursor.location.row = other.location.row ∧ cursor.location.column = other.location.column ↔
        cursor.offset = other.offset)) ∧
    (∀ id fault later, (Use.advance id).action all = .error fault later ↔
      ∃ cursor, all.cursors[id]? = some cursor ∧ cursor.offset = text.length ∧
        fault = .endOfInput cursor.location ∧ later = all) ∧
    ∀ id cursor, all.cursors[id]? = some cursor → cursor.offset < text.length →
      ∃ next : Cursor, (Use.advance id).action all =
          .ok () { all with cursors := all.cursors.set id next } ∧
        next.offset = cursor.offset + 1 ∧ next.sourceName = cursor.sourceName := by
  have hstand : ∀ uses, ((unused text).after uses).StandIn := (StandIn.unused text).after
  refine ⟨fun cursor hcursor => ?_, fun others cursor hcursor other hother => ?_, ?_, ?_⟩
  · exact Cursor.describes_of_standsIn ((hstand uses).cursors cursor hcursor)
  · exact Cursor.offset_eq_iff ((hstand uses).cursors cursor hcursor)
      ((hstand others).cursors other hother)
  · exact fun id fault later => advance_error_iff (hstand uses)
  · exact fun id cursor hcursor hlt => advance_ok (hstand uses) hcursor hlt

/-- A copy goes on to the end of the text, where one more character is refused. Then it changes
places with the cursor that it was made from. -/
def Use.spliced : List Use :=
  [.start (some "src"), .advance 0, .advance 0, .snapshot 0, .fork 0, .advance 1, .advance 1,
    .advance 1, .snapshot 1, .restore 0 1, .restore 1 0]

theorem coordinates_describe_offset_spliced :
    let all := (unused "f(\n1").after Use.spliced
    let cursor : Cursor := ⟨⟨[], 4, 3, 1⟩, some "src"⟩
    let other : Cursor := ⟨⟨['\n', '1'], 2, 0, 0⟩, some "src"⟩
    all.cursors = [cursor, other] ∧ cursor.Describes "f(\n1" ∧
      ¬ (cursor.location.row = other.location.row ∧
        cursor.location.column = other.location.column) ∧
      (Use.advance 0).action all = .error (.endOfInput ⟨1, 1, some "src"⟩) all ∧
      ∃ next : Cursor, (Use.advance 1).action all =
          .ok () { all with cursors := [cursor, next] } ∧
        next.offset = 3 ∧ next.sourceName = some "src" := by
  intro all cursor other
  have hall : all.cursors = [cursor, other] := rfl
  have hcursor : cursor ∈ all.cursors := hall ▸ List.mem_cons_self
  have hother : other ∈ all.cursors := hall ▸ List.mem_cons_of_mem cursor List.mem_cons_self
  obtain ⟨hdescribes, hdistinct, hend, hgoes⟩ := coordinates_describe_offset "f(\n1" Use.spliced
  refine ⟨hall, hdescribes cursor hcursor, ?_, ?_, ?_⟩
  · rw [hdistinct Use.spliced cursor hcursor other hother]
    decide
  · exact (hend 0 _ all).mpr ⟨cursor, by rw [hall]; rfl, rfl, rfl, rfl⟩
  · exact hgoes 1 other (by rw [hall]; rfl) (by decide)

end Cursors

end MacroScript
