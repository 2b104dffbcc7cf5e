import MacroScript.Editor.Walking
import MacroScript.Proofs.Editor.WordLookup

/-!
# Words by walking

To walk over a line index by index finds the words and the open calls that the
lookups by runs find. Every place of a line divides the name around it into a
part on the left and a part on the right, and each walk goes over its part. The
walk to the left is the only one that can look at a character which the line does
not have, and it does so exactly if it begins beyond the end of the line.
-/
namespace MacroScript

/-- The name around a place of a line: what is left of the place, and what is right of it. -/
structure Surrounds (cs before left right after : List Char) : Prop where
  line_eq : cs = before ++ left ++ (right ++ after)
  left : ∀ c ∈ left, isNameChar c = true
  right : ∀ c ∈ right, isNameChar c = true
  before : ∀ c ∈ before.getLast?, isNameChar c = false
  after : ∀ c ∈ after.head?, isNameChar c = false

theorem exists_surrounds {cs : List Char} {column : Nat} (h : column ≤ cs.length) :
    ∃ before left right after, Surrounds cs before left right after ∧
      (before ++ left).length = column := by
  obtain ⟨left, before, htake, hleft, hbefore⟩ := exists_run isNameChar (cs.take column).reverse
  obtain ⟨right, after, hdrop, hright, hafter⟩ := exists_run isNameChar (cs.drop column)
  have hpassed : cs.take column = before.reverse ++ left.reverse := by
    rw [← List.reverse_append, ← htake, List.reverse_reverse]
  refine ⟨before.reverse, left.reverse, right, after, ?_, ?_⟩
  · constructor
    · rw [← hpassed, ← hdrop, List.take_append_drop]
    · intro c hc
      exact hleft c (List.mem_reverse.mp hc)
    · exact hright
    · rw [List.getLast?_reverse]
      exact hbefore
    · exact hafter
  · rw [← hpassed, List.length_take, Nat.min_eq_left h]

namespace Surrounds

variable {cs before left right after : List Char}

theorem take_eq (h : Surrounds cs before left right after) :
    cs.take (before ++ left).length = before ++ left := by
  rw [h.line_eq, List.take_left]

theorem drop_eq (h : Surrounds cs before left right after) :
    cs.drop (before ++ left).length = right ++ after := by
  rw [h.line_eq, List.drop_left]

theorem trailingName_eq (h : Surrounds cs before left right after) :
    trailingName (cs.take (before ++ left).length) = left := by
  rw [h.take_eq, trailingName_append h.left h.before]

theorem wordAround_eq (h : Surrounds cs before left right after) :
    wordAround cs (before ++ left).length = left ++ right := by
  rw [wordAround, h.trailingName_eq, h.drop_eq, takeWhile_run h.right h.after]

theorem isWord (h : Surrounds cs before left right after) (hne : left ++ right ≠ []) :
    IsWord before (left ++ right) after where
  nonempty := hne
  name := List.forall_mem_append.mpr ⟨h.left, h.right⟩
  before := h.before
  after := h.after

end Surrounds

namespace Walking

variable {cs before left right after rest : List Char} {c : Char} {i column : Nat}

theorem characterAt_eq (h : cs[i]? = some c) : characterAt cs i = .ok c := by
  rw [characterAt, h]

theorem characterAt_append : characterAt (before ++ c :: rest) before.length = .ok c :=
  characterAt_eq (by simp)

theorem nameStart_run (hleft : ∀ c ∈ left, isNameChar c = true)
    (hbefore : ∀ c ∈ before.getLast?, isNameChar c = false) (rest : List Char) :
    nameStart (before ++ left ++ rest) (before ++ left).length = .ok before.length := by
  induction left using List.reverseRecOn generalizing rest with
  | nil =>
      rw [List.append_nil]
      cases before using List.reverseRecOn with
      | nil => rfl
      | append_singleton before c =>
          have hstop : isNameChar c = false := hbefore c (by simp)
          rw [List.length_append, List.append_assoc]
          change nameStart (before ++ c :: rest) (before.length + 1) = _
          rw [nameStart, characterAt_append]
          simp [bind, Except.bind, hstop, pure, Except.pure]
  | append_singleton left c ih =>
      -- The character that was passed goes over to what stands behind the place.
      rw [List.forall_mem_append, List.forall_mem_singleton] at hleft
      have hsplit : before ++ (left ++ [c]) ++ rest = before ++ left ++ c :: rest := by simp
      have hlength : (before ++ (left ++ [c])).length = (before ++ left).length + 1 := by
        simp [Nat.add_assoc]
      rw [hsplit, hlength, nameStart, characterAt_append]
      simp only [bind, Except.bind, hleft.2, if_true]
      exact ih hleft.1 (c :: rest)

/-- Beyond the end of the line the walk to the left fails with its first step. -/
theorem nameStart_beyond (h : cs.length < column) :
    nameStart cs column = .error (.foreign .beyondText) := by
  cases column with
  | zero => exact absurd h (Nat.not_lt_zero _)
  | succ start =>
      have hnone : cs[start]? = none := List.getElem?_eq_none (Nat.le_of_lt_succ h)
      rw [nameStart, characterAt, hnone]
      rfl

theorem nameStop_run (hright : ∀ c ∈ right, isNameChar c = true)
    (hafter : ∀ c ∈ after.head?, isNameChar c = false) (before : List Char) :
    nameStop (before ++ (right ++ after)) before.length = .ok (before ++ right).length := by
  induction right generalizing before with
  | nil =>
      rw [List.nil_append, List.append_nil, nameStop]
      cases after with
      | nil => simp [pure, Except.pure]
      | cons c after =>
          have hstop : isNameChar c = false := hafter c rfl
          rw [characterAt_append]
          simp [bind, Except.bind, hstop, pure, Except.pure]
  | cons c right ih =>
      rw [List.forall_mem_cons] at hright
      have hnext := ih hright.2 (before ++ [c])
      have hsplit : before ++ [c] ++ (right ++ after) = before ++ (c :: (right ++ after)) := by simp
      have hlength : (before ++ [c]).length = before.length + 1 := by simp
      rw [hsplit, hlength] at hnext
      have hlt : before.length < (before ++ c :: (right ++ after)).length := by simp
      rw [List.cons_append, nameStop, dif_pos hlt, characterAt_append]
      simp only [bind, Except.bind, hright.1, if_true]
      rw [hnext]
      simp

/-- The part of a line between the walk to the left and its place is the name before the place. -/
theorem exists_nameStart (h : i ≤ cs.length) :
    ∃ start, nameStart cs i = .ok start ∧
      (cs.take i).drop start = trailingName (cs.take i) := by
  obtain ⟨before, left, right, after, hparts, rfl⟩ := exists_surrounds h
  refine ⟨before.length, ?_, ?_⟩
  · rw [hparts.line_eq]
    exact nameStart_run hparts.left hparts.before _
  · rw [hparts.trailingName_eq, hparts.take_eq, List.drop_left]

theorem wordAt_eq (text : String) (position : Position) :
    wordAt text position = MacroScript.wordAt text position := by
  unfold wordAt MacroScript.wordAt
  cases (Text.lines text.toList)[position.line]? with
  | none => rfl
  | some cs =>
      dsimp only
      by_cases hbeyond : cs.length < position.column
      · rw [if_pos hbeyond, nameStart_beyond hbeyond]
        rfl
      · obtain ⟨before, left, right, after, hparts, hcolumn⟩ :=
          exists_surrounds (Nat.le_of_not_lt hbeyond)
        have hstart : nameStart cs position.column = .ok before.length := by
          rw [hparts.line_eq, ← hcolumn]
          exact nameStart_run hparts.left hparts.before _
        have hstop : nameStop cs position.column = .ok (before ++ left ++ right).length := by
          rw [hparts.line_eq, ← hcolumn]
          exact nameStop_run hparts.right hparts.after _
        have hslice : (cs.take (before ++ left ++ right).length).drop before.length =
            left ++ right := by
          rw [hparts.line_eq, ← List.append_assoc, List.take_left, List.append_assoc,
            List.drop_left]
        rw [if_neg hbeyond, hstart, hstop, ← hcolumn, hparts.wordAround_eq]
        simp only [bind, Except.bind]
        rw [hslice]
        rfl

theorem calleeBefore_eq (closed : Nat) (h : i ≤ cs.length) :
    calleeBefore cs closed i = .ok ((beforeOpenParen closed (cs.take i).reverse).bind
      fun before => nonempty? (before.takeWhile isNameChar).reverse) := by
  induction i generalizing closed with
  | zero => rfl
  | succ i ih =>
      have hchar : cs[i]? = some cs[i] := List.getElem?_eq_getElem h
      have htake : (cs.take (i + 1)).reverse = cs[i] :: (cs.take i).reverse := by
        rw [List.take_succ_eq_append_getElem h, List.reverse_append, List.reverse_singleton,
          List.singleton_append]
      have hwalk := fun closed => ih closed (Nat.le_of_lt h)
      rw [calleeBefore.eq_def, htake, beforeOpenParen.eq_def]
      simp only [characterAt_eq hchar, bind, Except.bind]
      split_ifs with hclose hopen
      · exact hwalk (closed + 1)
      · cases closed with
        | zero =>
            obtain ⟨start, hstart, hslice⟩ := exists_nameStart (Nat.le_of_lt h)
            simp only [hstart, hslice]
            rfl
        | succ closed => exact hwalk closed
      · exact hwalk closed

theorem openCallee_eq (cs : List Char) :
    openCallee cs = .ok (MacroScript.openCallee cs) := by
  rw [openCallee, calleeBefore_eq 0 (Nat.le_refl _), List.take_length, MacroScript.openCallee]

end Walking

/-- What there is to find at a place of a line: a word that the place lies in or at an end of, or
nothing, if no character of a name stands on either side of it. -/
inductive FoundAt (cs : List Char) (column : Nat) : Option String → Prop
  | word {before name after : List Char} : cs = before ++ (name ++ after) →
      IsWord before name after → before.length ≤ column → column ≤ (before ++ name).length →
      FoundAt cs column (some (String.ofList name))
  | nothing : column ≤ cs.length → (∀ c ∈ (cs.take column).getLast?, isNameChar c = false) →
      (∀ c ∈ (cs.drop column).head?, isNameChar c = false) → FoundAt cs column none

theorem foundAt_wordAround {cs : List Char} {column : Nat} (h : column ≤ cs.length) :
    FoundAt cs column (nonempty? (wordAround cs column)) := by
  obtain ⟨before, left, right, after, hparts, rfl⟩ := exists_surrounds h
  rw [hparts.wordAround_eq]
  by_cases hne : left ++ right = []
  · obtain ⟨rfl, rfl⟩ := List.append_eq_nil_iff.mp hne
    have hbefore := hparts.take_eq
    have hafter := hparts.drop_eq
    rw [List.append_nil] at hbefore hafter h ⊢
    apply FoundAt.nothing h
    · rw [hbefore]
      exact hparts.before
    · rw [hafter]
      exact hparts.after
  · have hfound : nonempty? (left ++ right) = some (String.ofList (left ++ right)) := by
      rw [nonempty?, if_neg (by simpa using hne)]
    rw [hfound]
    apply FoundAt.word _ (hparts.isWord hne)
    · simp
    · simp
    · rw [hparts.line_eq, List.append_assoc, List.append_assoc]

/-- To point at a line fails exactly beyond the end of the line, where the walk to the left looks at
a character that is not there. Everywhere else, also below the last line, it comes to an end: with
the whole word that the place touches, or with nothing where it touches none. -/
theorem Document.hover_touching (document : Document) (position : Position) :
    Walking.wordAt document.text position = wordAt document.text position ∧
    match (Text.lines document.text.toList)[position.line]? with
    | none => wordAt document.text position = .ok none ∧ document.hover position = .ok none
    | some cs =>
        (position.column ≤ cs.length → ∃ found, FoundAt cs position.column found ∧
          wordAt document.text position = .ok found ∧
          document.hover position = .ok (found.bind document.index.hoverText)) ∧
        (cs.length < position.column →
          wordAt document.text position = .error (.foreign .beyondText) ∧
          document.hover position = .error (.foreign .beyondText)) := by
  refine ⟨Walking.wordAt_eq document.text position, ?_⟩
  unfold hover wordAt
  cases (Text.lines document.text.toList)[position.line]? with
  | none => exact ⟨rfl, rfl⟩
  | some cs =>
      constructor
      · intro hwithin
        refine ⟨_, foundAt_wordAround hwithin, ?_⟩
        dsimp only
        rw [if_neg (Nat.not_lt_of_le hwithin)]
        exact ⟨rfl, rfl⟩
      · intro hbeyond
        dsimp only
        rw [if_pos hbeyond]
        exact ⟨rfl, rfl⟩

/-- A word is found from right behind it, where the line ends, and one column further on pointing at
the line fails. -/
theorem Document.hover_touching_beyondLine :
    let document := Document.ofText "if"
    document.hover ⟨0, 2⟩ = .ok (some "if(cond, then, else)") ∧
      wordAt document.text ⟨0, 3⟩ = .error (.foreign .beyondText) ∧
      document.hover ⟨0, 3⟩ = .error (.foreign .beyondText) := by
  intro document
  have hline : (Text.lines document.text.toList)[0]? = some ['i', 'f'] := by cbv
  have hpointed := (hover_touching document ⟨0, 3⟩).2
  rw [hline] at hpointed
  exact ⟨by cbv, hpointed.2 (by decide)⟩

end MacroScript
