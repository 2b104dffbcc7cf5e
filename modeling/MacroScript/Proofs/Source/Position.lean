import MacroScript.Source.Cursor
import Mathlib.Data.List.Induction
import Mathlib.Data.List.TakeWhile

/-!
# Positions between characters

A cursor that has passed some characters is determined by those characters and
by the ones that follow. Every cursor of a reading is of this form relative to
the cursor where the reading began, so two texts that agree up to a place have
the same coordinates there. In a text the row counts the newlines before the
place and the column counts the characters since the last one; no two places of
a text share both.
-/
namespace MacroScript

/-- A text begins with a longest run of a class, and what follows does not go on with it. -/
theorem exists_run (inClass : Char → Bool) (cs : List Char) :
    ∃ run rest, cs = run ++ rest ∧ (∀ c ∈ run, inClass c = true) ∧
      ∀ c ∈ rest.head?, inClass c = false := by
  refine ⟨cs.takeWhile inClass, cs.dropWhile inClass, List.takeWhile_append_dropWhile.symm,
    fun c hc => List.mem_takeWhile_imp hc, ?_⟩
  intro c hc
  have hne : cs.dropWhile inClass ≠ [] := by rintro he; simp [he] at hc
  have hhead := List.head_dropWhile_not inClass hne
  rw [List.head?_eq_some_head hne, Option.mem_some_iff] at hc
  rwa [hc] at hhead

theorem takeWhile_run {inClass : Char → Bool} {run rest : List Char}
    (hrun : ∀ c ∈ run, inClass c = true) (hstop : ∀ c ∈ rest.head?, inClass c = false) :
    (run ++ rest).takeWhile inClass = run := by
  rw [List.takeWhile_append_of_pos hrun]
  cases rest with
  | nil => simp
  | cons c rest => simp [hstop c rfl]

theorem dropWhile_run {inClass : Char → Bool} {run rest : List Char}
    (hrun : ∀ c ∈ run, inClass c = true) (hstop : ∀ c ∈ rest.head?, inClass c = false) :
    (run ++ rest).dropWhile inClass = rest := by
  rw [List.dropWhile_append_of_pos hrun]
  cases rest with
  | nil => rfl
  | cons c rest => simp [hstop c rfl]

theorem bne_of_not_mem {c : Char} {cs : List Char} (h : c ∉ cs) : ∀ d ∈ cs, (d != c) = true := by
  intro d hd
  have hne : d ≠ c := fun he => h (he ▸ hd)
  exact bne_iff_ne.mpr hne

namespace Mark

/-- The mark behind some characters, with the characters that follow them. -/
def past (mark : Mark) : List Char → List Char → Mark
  | [], rest => { mark with rest := rest }
  | c :: passed, rest => (mark.pass c []).past passed rest

@[simp] theorem past_rest (mark : Mark) (passed rest : List Char) :
    (mark.past passed rest).rest = rest := by
  induction passed generalizing mark with
  | nil => rfl
  | cons c passed ih => exact ih _

@[simp] theorem past_offset (mark : Mark) (passed rest : List Char) :
    (mark.past passed rest).offset = mark.offset + passed.length := by
  induction passed generalizing mark with
  | nil => rfl
  | cons c passed ih => simp only [past, ih, pass_offset, List.length_cons]; omega

/-- The characters that were to follow do not matter once others are put in their place. -/
theorem past_of_rest (mark : Mark) (former passed rest : List Char) :
    ({ mark with rest := former } : Mark).past passed rest = mark.past passed rest := by
  cases passed <;> rfl

theorem pass_past (mark : Mark) (c : Char) (former passed rest : List Char) :
    (mark.pass c former).past passed rest = mark.past (c :: passed) rest := by
  rw [past, ← past_of_rest (mark.pass c []) former]
  congr 1
  unfold pass
  split <;> rfl

theorem past_append (mark : Mark) (passed former more rest : List Char) :
    (mark.past passed former).past more rest = mark.past (passed ++ more) rest := by
  induction passed generalizing mark with
  | nil => exact mark.past_of_rest former more rest
  | cons c passed ih => exact ih _

theorem pass_eq_past (mark : Mark) (c : Char) (rest : List Char) :
    mark.pass c rest = mark.past [c] rest := by
  unfold past pass
  split <;> rfl

theorem passRun_eq_past (inClass : Char → Bool) (cs : List Char) (mark : Mark)
    (h : mark.rest = cs) :
    passRun inClass cs mark = mark.past (cs.takeWhile inClass) (cs.dropWhile inClass) := by
  induction cs generalizing mark with
  | nil =>
      have hself : mark = mark.past [] mark.rest := rfl
      rwa [h] at hself
  | cons c cs ih =>
      by_cases hc : inClass c = true
      · simp only [passRun, hc, if_true, List.takeWhile_cons_of_pos, List.dropWhile_cons_of_pos]
        rw [ih _ (mark.pass_rest c cs), pass_past]
      · rw [passRun, if_neg hc, List.takeWhile_cons_of_neg hc, List.dropWhile_cons_of_neg hc, ← h]
        rfl

end Mark

namespace Cursor

/-- The cursor behind some characters, with the characters that follow them. -/
def past (cursor : Cursor) (passed rest : List Char) : Cursor :=
  { cursor with toMark := cursor.toMark.past passed rest }

@[simp] theorem past_rest (cursor : Cursor) (passed rest : List Char) :
    (cursor.past passed rest).rest = rest := cursor.toMark.past_rest passed rest

@[simp] theorem past_offset (cursor : Cursor) (passed rest : List Char) :
    (cursor.past passed rest).offset = cursor.offset + passed.length :=
  cursor.toMark.past_offset passed rest

@[simp] theorem past_nil_rest (cursor : Cursor) : cursor.past [] cursor.rest = cursor := rfl

@[simp] theorem past_past (cursor : Cursor) (passed former more rest : List Char) :
    (cursor.past passed former).past more rest = cursor.past (passed ++ more) rest := by
  simp only [past, Mark.past_append]

theorem location_past (cursor : Cursor) (passed rest other : List Char) :
    (cursor.past passed rest).location = (cursor.past passed other).location := by
  have h := cursor.past_past passed rest [] other
  rw [List.append_nil] at h
  rw [← h]
  rfl

theorem advanceRun_eq_past (inClass : Char → Bool) (cursor : Cursor) :
    cursor.advanceRun inClass
      = cursor.past (cursor.rest.takeWhile inClass) (cursor.rest.dropWhile inClass) := by
  simp only [advanceRun, past, Mark.passRun_eq_past inClass cursor.rest cursor.toMark rfl]

theorem advanceRun_run {inClass : Char → Bool} {cursor : Cursor} {run rest : List Char}
    (hrest : cursor.rest = run ++ rest) (hrun : ∀ c ∈ run, inClass c = true)
    (hstop : ∀ c ∈ rest.head?, inClass c = false) :
    cursor.advanceRun inClass = cursor.past run rest := by
  rw [advanceRun_eq_past, hrest, takeWhile_run hrun hstop, dropWhile_run hrun hstop]

end Cursor

/-- The place behind some characters of a text. -/
def Location.behind (passed : List Char) (sourceName : Option String) : Location :=
  ⟨passed.count '\n', (passed.reverse.takeWhile (· != '\n')).length, sourceName⟩

/-- Rows and columns are read off the characters before the place. -/
theorem Mark.past_coordinates (text passed rest : List Char) :
    let mark := (⟨text, 0, 0, 0⟩ : Mark).past passed rest
    mark.row = passed.count '\n' ∧
      mark.lineStart + (passed.reverse.takeWhile (· != '\n')).length = passed.length := by
  induction passed using List.reverseRecOn generalizing rest with
  | nil => exact ⟨rfl, rfl⟩
  | append_singleton passed c ih =>
      obtain ⟨hrow, hstart⟩ := ih [c]
      have hoffset := (⟨text, 0, 0, 0⟩ : Mark).past_offset passed [c]
      simp only [← Mark.past_append _ passed [c], ← Mark.pass_eq_past]
      by_cases hc : c = '\n'
      · subst hc
        simp only [Mark.pass, if_true, hrow, hoffset]
        simp
      · simp only [Mark.pass, hc, if_false, hrow]
        simp [hc]
        omega

theorem Cursor.location_past_ofText (text : String) (sourceName : Option String)
    (passed rest : List Char) :
    ((ofText text sourceName).past passed rest).location = .behind passed sourceName := by
  obtain ⟨hrow, hstart⟩ := Mark.past_coordinates text.toList passed rest
  have hoffset := (ofText text sourceName).past_offset passed rest
  simp only [ofText, Nat.zero_add] at hoffset
  simp only [location, column, Location.behind, ofText, past, Location.mk.injEq, and_true]
  refine ⟨hrow, ?_⟩
  simp only [past] at hoffset
  omega

namespace Location

theorem eq_nil_of_behind_append {passed more : List Char} {sourceName : Option String}
    (h : behind (passed ++ more) sourceName = behind passed sourceName) : more = [] := by
  simp only [behind, List.count_append, mk.injEq, and_true, Nat.add_eq_left,
    List.count_eq_zero] at h
  obtain ⟨hrow, hcolumn⟩ := h
  have hall : ∀ c ∈ more.reverse, (c != '\n') = true :=
    bne_of_not_mem (by rwa [List.mem_reverse])
  rw [List.reverse_append, List.takeWhile_append_of_pos hall] at hcolumn
  simpa using hcolumn

theorem behind_take_injective {text : List Char} {sourceName : Option String} {p q : Nat}
    (hp : p ≤ text.length) (hq : q ≤ text.length)
    (h : behind (text.take p) sourceName = behind (text.take q) sourceName) : p = q := by
  wlog hle : p ≤ q generalizing p q
  · exact (this hq hp h.symm (by omega)).symm
  have hsplit : text.take q = text.take p ++ (text.take q).drop p := by
    rw [← List.take_append_drop p (text.take q), List.take_take, Nat.min_eq_left hle,
      List.drop_append]
    simp [hp]
  rw [hsplit] at h
  have hnil := congrArg List.length (eq_nil_of_behind_append h.symm)
  simp only [List.length_drop, List.length_take, List.length_nil] at hnil
  omega

/-- What stands before a place of a text is told by its coordinates. -/
theorem eq_of_behind {before after before' after' : List Char} {sourceName : Option String}
    (htext : before ++ after = before' ++ after')
    (h : behind before sourceName = behind before' sourceName) : before = before' := by
  have hbefore : before = (before ++ after).take before.length := by simp
  have hbefore' : before' = (before ++ after).take before'.length := by simp [htext]
  have hle : before.length ≤ (before ++ after).length := by simp
  have hle' : before'.length ≤ (before ++ after).length := by simp [htext]
  rw [hbefore, hbefore'] at h
  rw [hbefore, behind_take_injective hle hle' h, ← hbefore']

end Location
end MacroScript
