import Mathlib
import MacroScript.Proofs.Reading.Layout
import MacroScript.Proofs.Reading.Shape

/-!
# Texts one after the other

A text that is read to its end, and another text on the next line, are read
together as they are read apart: first the expressions of the one, then those of
the other, and an error of the other in the row where it then stands. Nothing of
the first text is left over at its end but for a name that might still be
called. A stream of tokens goes on with another one where its input ends, and
the reader goes on with it there.
-/
namespace MacroScript

variable {nesting : Nesting}

def Location.below (place : Location) (rows : Nat) : Location :=
  { place with row := place.row + rows }

theorem Location.behind_newline (before passed : List Char) (sourceName : Option String) :
    behind (before ++ '\n' :: passed) sourceName =
      (behind passed sourceName).below (before.count '\n' + 1) := by
  have hcolumn : (before ++ '\n' :: passed).reverse.takeWhile (· != '\n') =
      passed.reverse.takeWhile (· != '\n') := by
    rw [List.reverse_append, List.reverse_cons, List.append_assoc, List.takeWhile_append]
    split_ifs with hall
    · have hwhole := (List.takeWhile_prefix (· != '\n')).eq_of_length hall
      rw [hwhole]
      simp
    · rfl
  unfold behind below
  rw [hcolumn, List.count_append, List.count_cons_self]
  dsimp only
  congr 1
  omega

namespace TokenStream

/-- The stream that goes on with another one where its input ends. -/
def followedBy : TokenStream → TokenStream → TokenStream
  | .token next behind more, tail => .token next behind (more.followedBy tail)
  | .finished _, tail => tail
  | .unterminated opening stop, _ => .unterminated opening stop

theorem alike_of_rest {place : Location → Location → Prop} {cursor cursor' : Cursor}
    (hrest : cursor.rest = cursor'.rest)
    (hplace : ∀ passed rest, place (cursor.past passed rest).location
      (cursor'.past passed rest).location) :
    (ofCursor true cursor).Alike place (ofCursor true cursor') := by
  induction hn : cursor.rest.length using Nat.strong_induction_on generalizing cursor cursor' with
  | _ n ih =>
      have hunfolds := unfolds cursor
      generalize ofCursor true cursor = stream at hunfolds
      cases hunfolds with
      | @token kind gap text chars rest hchars hgap hkind hspell hstop =>
          have hunfolds' : Unfolds cursor' _ :=
            .token (hrest.symm.trans hchars) hgap hkind hspell hstop
          rw [← hunfolds'.eq]
          apply Alike.token
          · exact ⟨rfl, rfl, hplace gap _⟩
          · have hpos := List.length_pos_iff.mpr hspell.ne_nil
            apply ih rest.length
            · simp only [← hn, hchars, List.length_append]
              omega
            · rw [Cursor.past_rest, Cursor.past_rest]
            · intro passed more
              rw [Cursor.past_past, Cursor.past_past]
              exact hplace _ more
            · rw [Cursor.past_rest]
      | @finished gap rest hchars hgap hstop =>
          have hunfolds' : Unfolds cursor' _ := .finished (hrest.symm.trans hchars) hgap hstop
          rw [← hunfolds'.eq]
          exact .finished (hplace gap rest)
      | @unterminated opening gap rest hchars hgap hopening hall =>
          have hunfolds' : Unfolds cursor' _ :=
            .unterminated (hrest.symm.trans hchars) hgap hopening hall
          rw [← hunfolds'.eq]
          exact .unterminated (hplace gap _)

/-- Behind a text with no string open at its end, and with no end of input before that, come the
tokens of what follows, if a run of characters does not go on there. -/
theorem ofCursor_followedBy (cursor : Cursor) {more : List Char}
    (hmore : ∀ kind : TokenKind, kind.StopsAt more)
    (hclosed : (ofCursor true cursor).unterminated? = none)
    (hstop : (ofCursor true cursor).stop.rest = []) :
    (ofCursor true (cursor.past [] (cursor.rest ++ more))).Alike (· = ·)
      ((ofCursor true cursor).followedBy (ofCursor true (cursor.past cursor.rest more))) := by
  induction hn : cursor.rest.length using Nat.strong_induction_on generalizing cursor with
  | _ n ih =>
      have hunfolds := unfolds cursor
      generalize ofCursor true cursor = stream at hunfolds hclosed hstop ⊢
      cases hunfolds with
      | @token kind gap text chars rest hrest hgap hkind hspell hends =>
          have hgoes : kind.StopsAt (rest ++ more) :=
            TokenKind.StopsAt.append (by rwa [List.append_nil]) fun _ => hmore kind
          have hlength : (cursor.past (gap ++ chars) rest).rest.length < n := by
            have hpos := List.length_pos_iff.mpr hspell.ne_nil
            simp only [← hn, hrest, Cursor.past_rest, List.length_append]
            omega
          have htail := ih _ hlength _ hclosed hstop rfl
          rw [Cursor.past_rest, Cursor.past_past, Cursor.past_past, List.append_nil,
            List.append_assoc, ← hrest] at htail
          have hhead := ofCursor_past_token cursor (chars ++ rest) hgap hkind hspell hgoes
          rw [List.append_assoc, ← List.append_assoc chars, ← List.append_assoc, ← hrest] at hhead
          rw [hhead]
          exact .token ⟨rfl, rfl, rfl⟩ htail
      | @finished gap rest hrest hgap hfinish =>
          obtain rfl : rest = [] := (Cursor.past_rest cursor gap rest).symm.trans hstop
          rw [List.append_nil] at hrest
          rw [hrest, ofCursor_past_gap cursor more hgap]
          exact .refl _
      | unterminated => cases hclosed

theorem alike_behind_newline (first second : String) (sourceName : Option String) :
    (ofCursor true ((Cursor.ofText first sourceName).past first.toList
        ('\n' :: second.toList))).Alike
      (fun here there => here = there.below (first.toList.count '\n' + 1))
      (ofCursor true (.ofText second sourceName)) := by
  have hnewline : ∀ c ∈ ['\n'], TokenKind.ofChar c = .illegal :=
    List.forall_mem_singleton.mpr (by decide)
  have hgap := ofCursor_past_gap ((Cursor.ofText first sourceName).past first.toList [])
    second.toList hnewline
  rw [Cursor.past_past, Cursor.past_past, List.append_nil, List.singleton_append] at hgap
  rw [hgap]
  apply alike_of_rest
  · rw [Cursor.past_rest]
    rfl
  · intro passed rest
    rw [Cursor.past_past, Cursor.location_past_ofText, Cursor.location_past_ofText,
      List.append_assoc, List.singleton_append]
    exact Location.behind_newline first.toList passed sourceName

end TokenStream

namespace Reader

variable {reader : Reader} {token : Token} {after before : Cursor} {e : Expr}

/-- Only a token that may follow a name shows that a name was complete before it. -/
theorem endsName_of_completeBefore
    (h : reader.take nesting token after = .completeBefore e before) :
    token.kind = .closeParen ∨ token.kind = .comma := by
  unfold take at h
  split at h
  · exact (takeFresh_ne_completeBefore _ _ _ _ _ _ h).elim
  · split at h
    · cases h
    · rename_i hkind
      exact .inl hkind
    · rename_i hkind
      exact .inr hkind
    · cases h

/-- Where reading comes to the end of input without an open call or a name that waits, it begins
anew with what follows. -/
theorem read_followedBy {stream : TokenStream} (tail : TokenStream) (cursor : Cursor)
    (herror : (reader.read nesting stream).errorOnward nesting = none)
    (hlast : ∀ name, ((reader.read nesting stream).exprsOnward nesting).getLast? ≠
      some (.var name)) :
    (reader.read nesting (stream.followedBy tail)).exprsOnward nesting =
        (reader.read nesting stream).exprsOnward nesting ++
          (Program.ofStream nesting cursor tail).exprs ∧
      (reader.read nesting (stream.followedBy tail)).errorOnward nesting =
        (Program.ofStream nesting cursor tail).error := by
  induction stream generalizing reader with
  | token next behind more ih =>
      unfold TokenStream.followedBy
      unfold read at herror hlast ⊢
      cases htake : reader.take nesting next behind with
      | next reader' =>
          rw [htake] at herror hlast
          exact ih herror hlast
      | complete e after =>
          rw [htake] at herror hlast
          dsimp only [Reading.errorOnward, Reading.exprsOnward] at herror hlast ⊢
          rw [Program.error_ofStream] at herror ⊢
          rw [Program.exprs_onward] at hlast ⊢
          have hmore := ih herror fun name hname => hlast name (by rw [List.getLast?_cons, hname]; rfl)
          rw [hmore.1, @Program.exprs_onward nesting after more, List.cons_append]
          exact ⟨rfl, hmore.2⟩
      | completeBefore e before =>
          rw [htake] at herror
          dsimp only [Reading.errorOnward] at herror
          rw [Program.error_ofStream, read_of_endsName (endsName_of_completeBefore htake)] at herror
          cases herror
      | failure error resume =>
          rw [htake] at herror
          cases herror
  | finished stop =>
      obtain ⟨calls, head, resume⟩ := reader
      cases calls with
      | cons call outer => cases herror
      | nil =>
          cases head with
          | none =>
              -- Nothing has been read since the last expression, so what follows starts here.
              obtain ⟨hexprs, herrors⟩ :=
                Program.ofStream_eq nesting (.refl tail) cursor resume
              rw [hexprs, herrors, Program.exprs_onward, Program.error_ofStream]
              exact ⟨rfl, rfl⟩
          | some symbol =>
              refine absurd ?_ (hlast symbol.text)
              change (Expr.var symbol.text :: (Program.ofStream nesting resume _).exprs).getLast? = _
              rw [Program.exprs_of_nothing rfl]
              rfl
  | unterminated opening stop => cases herror

end Reader

/-- A string that is not closed is an error, whatever stands before it. -/
theorem Shape.unterminated_of_accepted {shape : Shape} {stream : TokenStream}
    (h : shape.verdict nesting stream = .accepted) : stream.unterminated? = none := by
  induction stream generalizing shape with
  | token next behind more ih =>
      unfold verdict at h
      split at h
      · exact ih h
      · cases h
  | finished stop => rfl
  | unterminated opening stop => cases h

namespace Program

/-- A text that is read to its real end and does not end with a name, and another text on the next
line, are read as the one and then the other. An error of the other text keeps its cause and its
column, and moves down by the lines of the first. -/
theorem ofText_newline (limit : Int) (first second : String) (sourceName : Option String)
    (herror : (ofText limit first sourceName).error = none)
    (hstop : (TokenStream.ofCursor true (.ofText first sourceName)).stop.atEnd = true)
    (hlast : ∀ name, (ofText limit first sourceName).exprs.getLast? ≠ some (.var name)) :
    (ofText limit (first ++ "\n" ++ second) sourceName).exprs =
        (ofText limit first sourceName).exprs ++ (ofText limit second sourceName).exprs ∧
      (ofText limit (first ++ "\n" ++ second) sourceName).error =
        (ofText limit second sourceName).error.map fun error =>
          { error with location := error.location.below (first.toList.count '\n' + 1) } := by
  let start := Cursor.ofText first sourceName
  have hjoined : Cursor.ofText (first ++ "\n" ++ second) sourceName =
      start.past [] (start.rest ++ '\n' :: second.toList) := by
    simp [start, Cursor.ofText, Cursor.past, Mark.past]
  have hclosed : (TokenStream.ofCursor true start).unterminated? = none := by
    have hverdict := verdict_error ⟨limit, 0⟩ start
    change Verdict.ofError (ofText limit first sourceName).error = _ at hverdict
    rw [herror] at hverdict
    exact Shape.unterminated_of_accepted hverdict.symm
  have hmore : ∀ kind : TokenKind, kind.StopsAt ('\n' :: second.toList) :=
    fun kind => kind.stopsAt_single (by decide)
  have hstream := TokenStream.ofCursor_followedBy start hmore hclosed
    (by simpa [Cursor.atEnd] using hstop)
  rw [← hjoined] at hstream
  obtain ⟨hexprs, herrors⟩ := ofStream_eq ⟨limit, 0⟩ hstream
    (.ofText (first ++ "\n" ++ second) sourceName) start
  obtain ⟨hexprs', herrors'⟩ := ofStream_alike ⟨limit, 0⟩
    (TokenStream.alike_behind_newline first second sourceName) start (.ofText second sourceName)
  have hread := Reader.read_followedBy
    (.ofCursor true (start.past start.rest ('\n' :: second.toList))) start
    (error_ofStream.symm.trans herror) fun name hname => hlast name (exprs_onward ▸ hname)
  rw [← exprs_onward, ← exprs_onward, ← error_ofStream] at hread
  constructor
  · exact hexprs.trans (hread.1.trans (congrArg _ hexprs'))
  · exact herrors.trans (hread.2.trans (ParseError.eq_map_of_alike herrors'))

/-- Behind a call over two lines comes a call with an error in its second line. -/
theorem ofText_newline_secondCall :
    let first := "f(1,\n'a') #"
    let second := "g()h(\n,)"
    (ofText 8 first none).error = none ∧
      (TokenStream.ofCursor true (.ofText first none)).stop.atEnd = true ∧
      (ofText 8 (first ++ "\n" ++ second) none).exprs =
        [.call "f" [.int 1, .string "a"], .call "g" []] ∧
      (ofText 8 (first ++ "\n" ++ second) none).error = some ⟨⟨3, 0, none⟩, .commaForArgument⟩ := by
  intro first second
  have hfirst : (ofText 8 "f(1,\n'a') #" none).exprs = [.call "f" [.int 1, .string "a"]] := by cbv
  have herror : (ofText 8 "f(1,\n'a') #" none).error = none := by cbv
  have hstop : (TokenStream.ofCursor true (.ofText "f(1,\n'a') #" none)).stop.atEnd = true := by cbv
  have hsecond : (ofText 8 "g()h(\n,)" none).exprs = [.call "g" []] := by cbv
  have herror' : (ofText 8 "g()h(\n,)" none).error = some ⟨⟨1, 0, none⟩, .commaForArgument⟩ := by
    cbv
  have hread := ofText_newline 8 "f(1,\n'a') #" "g()h(\n,)" none herror hstop
    (by rw [hfirst]; simp)
  rw [hfirst, hsecond, herror'] at hread
  exact ⟨herror, hstop, hread⟩

end Program

end MacroScript
