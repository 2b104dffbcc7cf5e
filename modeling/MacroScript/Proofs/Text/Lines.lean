import MacroScript.Proofs.Source.Position
import MacroScript.Text.Lines

/-!
# Rows and lines

The language counts rows and the editor counts lines. A row is ended by a newline
and by nothing else, a line by other characters too. As long as every character
that ends a line is a newline, or stands right before one, both count alike; the
first character that is neither makes the editor count ahead.
-/
namespace MacroScript.Text

variable {a b cs rows row rest run : List Char} {c : Char}

/-- Among the characters only newlines end a line, or carriage returns right before them. -/
def HasRowsAsLines (cs : List Char) : Prop :=
  ∀ a c b, cs = a ++ c :: b → isLineEnd c = true → c = '\n' ∨ c = '\r' ∧ b.head? = some '\n'

/-- The characters are rows with their newlines. -/
def CompleteRows (cs : List Char) : Prop := ∀ c ∈ cs.getLast?, c = '\n'

theorem CompleteRows.of_cons (h : CompleteRows (c :: cs)) : CompleteRows cs := by
  intro d hd
  apply h d
  rw [List.getLast?_cons, Option.mem_def.mp hd]
  rfl

namespace HasRowsAsLines

theorem nil : HasRowsAsLines [] := by
  intro a c b h
  simp at h

theorem of_append (h : HasRowsAsLines (a ++ b)) : HasRowsAsLines b := by
  rintro before c after rfl hc
  exact h (a ++ before) c after (List.append_assoc ..).symm hc

theorem of_cons (h : HasRowsAsLines (c :: cs)) : HasRowsAsLines cs := of_append (a := [c]) h

theorem newline (h : HasRowsAsLines cs) : HasRowsAsLines ('\n' :: cs) := by
  rintro (_ | ⟨d, a⟩) c b hsplit hc
  · exact .inl (List.cons.inj hsplit).1.symm
  · exact h a c b (List.cons.inj hsplit).2 hc

/-- A row has no carriage return before its newline that is not counted with the row. -/
theorem of_rows (h : HasRowsAsLines (rows ++ row)) (hrows : CompleteRows rows) :
    HasRowsAsLines rows := by
  rintro a c b rfl hc
  obtain rfl | ⟨rfl, hb⟩ := h a c (b ++ row) (by simp) hc
  · exact .inl rfl
  · cases b with
    | nil => exact .inl (hrows '\r' (by simp))
    | cons d b => exact .inr ⟨rfl, hb⟩

theorem row_clean (h : HasRowsAsLines (rows ++ row)) (hrow : '\n' ∉ row) :
    ∀ c ∈ row, isLineEnd c = false := by
  intro c hc
  obtain ⟨a, b, rfl⟩ := List.append_of_mem hc
  rw [Bool.eq_false_iff]
  intro hend
  obtain rfl | ⟨rfl, hb⟩ := h (rows ++ a) c b (by simp) hend
  · exact hrow hc
  · apply hrow
    apply List.mem_append_right
    exact List.mem_cons_of_mem _ (List.mem_of_mem_head? hb)

theorem append (h : HasRowsAsLines rows) (hrow : ∀ c ∈ row, isLineEnd c = false) :
    HasRowsAsLines (rows ++ row) := by
  intro a c b hsplit hc
  have hclean : c ∉ row := by
    intro hmem
    rw [hrow c hmem] at hc
    cases hc
  obtain ⟨tail, rfl, htail⟩ | ⟨begun, -, rfl⟩ := List.append_eq_append_iff.mp hsplit.symm
  · cases tail with
    | nil =>
        rw [List.nil_append] at htail
        simp [← htail] at hclean
    | cons d tail =>
        rw [List.cons_append] at htail
        obtain ⟨rfl, rfl⟩ := List.cons.inj htail
        refine (h a c tail rfl hc).imp_right fun ⟨hreturn, hhead⟩ => ⟨hreturn, ?_⟩
        rw [List.head?_append, hhead]
        rfl
  · simp at hclean

end HasRowsAsLines

theorem eq_nil_of_lines (h : lines cs = []) : cs = [] := by
  have hflat := lines_flatten cs
  rw [h] at hflat
  exact hflat.symm

theorem isLineEnd_newline : isLineEnd '\n' = true := by decide

/-- A character that ends a line, and no carriage return before a newline. -/
theorem lines_of_isLineEnd (hc : isLineEnd c = true) (h : c = '\r' → rest.head? ≠ some '\n') :
    lines (c :: rest) = [c] :: lines rest := by
  rw [lines, if_pos hc]
  rintro rest' rfl rfl
  exact h rfl rfl

theorem lines_of_not_isLineEnd (hc : isLineEnd c = false) :
    lines (c :: rest) = (c :: (lines rest).headD []) :: (lines rest).tail := by
  rw [lines, if_neg (Bool.eq_false_iff.mp hc)]
  · cases lines rest <;> rfl
  · rintro rest' rfl -
    cases hc

/-- Characters that end no line stand in front of the first line of what follows. -/
theorem lines_run (hrun : ∀ c ∈ run, isLineEnd c = false) (hne : run ≠ []) (rest : List Char) :
    lines (run ++ rest) = (run ++ (lines rest).headD []) :: (lines rest).tail := by
  induction run with
  | nil => exact absurd rfl hne
  | cons c run ih =>
      rw [List.forall_mem_cons] at hrun
      rw [List.cons_append, lines_of_not_isLineEnd hrun.1]
      by_cases hnil : run = []
      · rw [hnil]
        rfl
      · rw [ih hrun.2 hnil]
        rfl

theorem firstLine (hrun : ∀ c ∈ run, isLineEnd c = false) (hc : isLineEnd c = true)
    (h : c = '\r' → rest.head? ≠ some '\n') :
    (lines (run ++ c :: rest)).head? = some (run ++ [c]) := by
  by_cases hnil : run = []
  · rw [hnil, List.nil_append, lines_of_isLineEnd hc h]
    rfl
  · rw [lines_run hrun hnil, lines_of_isLineEnd hc h]
    rfl

theorem head?_firstLine (cs : List Char) : ((lines cs).headD []).head? = cs.head? := by
  fun_cases lines cs with
  | case1 => rfl
  | case2 rest => rfl
  | case3 c rest _ hc => rfl
  | case4 c rest _ hc h => rfl
  | case5 c rest _ hc line others h => rfl

/-- Complete rows are divided by themselves. -/
theorem lines_append (hrows : CompleteRows rows) (rest : List Char) :
    lines (rows ++ rest) = lines rows ++ lines rest := by
  fun_induction lines rows with
  | case1 => rfl
  | case2 rows ih =>
      rw [List.cons_append, List.cons_append, lines, ih hrows.of_cons.of_cons]
      rfl
  | case3 c rows hcrlf hc ih =>
      rw [List.cons_append, lines_of_isLineEnd hc, ih hrows.of_cons]
      · rfl
      · rintro rfl hhead
        cases rows with
        | nil => cases hrows '\r' rfl
        | cons d rows =>
            obtain rfl : d = '\n' := Option.some.inj hhead
            exact hcrlf rows rfl rfl
  | case4 c rows hcrlf hc hnil ih =>
      obtain rfl := eq_nil_of_lines hnil
      obtain rfl := hrows c rfl
      exact absurd isLineEnd_newline hc
  | case5 c rows hcrlf hc line others hcons ih =>
      rw [List.cons_append, lines_of_not_isLineEnd (Bool.eq_false_iff.mpr hc), ih hrows.of_cons,
        hcons]
      rfl

theorem length_lines (h : HasRowsAsLines rows) (hrows : CompleteRows rows) :
    (lines rows).length = rows.count '\n' := by
  fun_induction lines rows with
  | case1 => rfl
  | case2 rows ih =>
      have hlength := ih h.of_cons.of_cons hrows.of_cons.of_cons
      simp [hlength]
  | case3 c rows hcrlf hc ih =>
      have hlength := ih h.of_cons hrows.of_cons
      obtain rfl | ⟨rfl, hhead⟩ := h [] c rows rfl hc
      · simp [hlength]
      · obtain ⟨rest, rfl⟩ := List.head?_eq_some_iff.mp hhead
        exact (hcrlf rest rfl rfl).elim
  | case4 c rows hcrlf hc hnil ih =>
      obtain rfl := eq_nil_of_lines hnil
      obtain rfl := hrows c rfl
      exact absurd isLineEnd_newline hc
  | case5 c rows hcrlf hc line others hcons ih =>
      have hlength := ih h.of_cons hrows.of_cons
      have hne : c ≠ '\n' := by
        rintro rfl
        exact hc isLineEnd_newline
      rw [hcons, List.length_cons] at hlength
      simp [hne, ← hlength]

/-- The line that holds what is begun of a row. -/
theorem getElem?_lines (h : HasRowsAsLines rows) (hrows : CompleteRows rows) (rest : List Char) :
    (lines (rows ++ rest))[rows.count '\n']? = (lines rest).head? := by
  have hlength := length_lines h hrows
  rw [lines_append hrows, List.getElem?_append_right (by omega), hlength, Nat.sub_self,
    List.head?_eq_getElem?]

theorem exists_firstLineEnd (h : ∃ c ∈ cs, isLineEnd c = true) :
    ∃ run e tail, cs = run ++ e :: tail ∧ (∀ c ∈ run, isLineEnd c = false) ∧
      isLineEnd e = true := by
  obtain ⟨c, hc, hend⟩ := h
  obtain ⟨run, tail, rfl, hrun, hstop⟩ := exists_run (fun c => !isLineEnd c) cs
  have hclean : ∀ c ∈ run, isLineEnd c = false := fun c hc => by simpa using hrun c hc
  cases tail with
  | nil =>
      rw [List.append_nil] at hc
      rw [hclean c hc] at hend
      cases hend
  | cons e tail => exact ⟨run, e, tail, rfl, hclean, by simpa using hstop e rfl⟩

theorem exists_rows (cs : List Char) :
    ∃ rows row, cs = rows ++ row ∧ CompleteRows rows ∧ '\n' ∉ row := by
  induction cs using List.reverseRecOn with
  | nil => exact ⟨[], [], rfl, nofun, by simp⟩
  | append_singleton cs c ih =>
      by_cases hc : c = '\n'
      · refine ⟨cs ++ [c], [], (List.append_nil _).symm, ?_, by simp⟩
        simp [CompleteRows, hc]
      · obtain ⟨rows, row, rfl, hrows, hrow⟩ := ih
        refine ⟨rows, row ++ [c], List.append_assoc .., hrows, ?_⟩
        simp [hrow, Ne.symm hc]

theorem behind_rows (hrows : CompleteRows rows) (hrow : '\n' ∉ row) (sourceName : Option String) :
    Location.behind (rows ++ row) sourceName = ⟨rows.count '\n', row.length, sourceName⟩ := by
  have hall : ∀ c ∈ row.reverse, (c != '\n') = true :=
    bne_of_not_mem (by rwa [List.mem_reverse])
  have hstop : ∀ c ∈ rows.reverse.head?, (c != '\n') = false := by
    intro c hc
    rw [List.head?_reverse] at hc
    simp [hrows c hc]
  rw [Location.behind, List.reverse_append, takeWhile_run hall hstop, List.length_reverse,
    List.count_append, List.count_eq_zero.mpr hrow, Nat.add_zero]

end MacroScript.Text
