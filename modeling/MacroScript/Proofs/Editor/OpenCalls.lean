import MacroScript.Proofs.Editor.Walking
import Mathlib.Data.Finset.Card
import Mathlib.Data.Finset.Range

/-!
# The innermost open call

Which parentheses are open at the end of a text is found by a scan from left to
right with a stack: an opening parenthesis is pushed, a closing one takes the top
away, and a closing one is passed over where none is open. The editor scans from
right to left and counts the closing parentheses that are still to be matched. It
comes to the same: with so many of them the parenthesis that lies as deep in the
stack is found, and with none the one on top.
-/
namespace MacroScript

variable {cs : List Char} {paren i : Nat}

/-- The open parentheses, given by their offsets, behind one more character and its offset. -/
def parenStep (opened : List Nat) (entry : Char × Nat) : List Nat :=
  if entry.1 = '(' then entry.2 :: opened
  else if entry.1 = ')' then opened.tail
  else opened

/-- The offsets of the parentheses that are open at the end of a text, the innermost first. -/
def openParens (cs : List Char) : List Nat := cs.zipIdx.foldl parenStep []

theorem openParens_concat (cs : List Char) (c : Char) :
    openParens (cs ++ [c]) = parenStep (openParens cs) (c, cs.length) := by
  simp only [openParens, List.zipIdx_append, List.zipIdx_singleton, List.foldl_append,
    List.foldl_cons, List.foldl_nil, Nat.zero_add]

theorem getElem?_of_mem_openParens (h : i ∈ openParens cs) : cs[i]? = some '(' := by
  induction cs using List.reverseRecOn with
  | nil => cases h
  | append_singleton cs c ih =>
      have hold : ∀ h : i ∈ openParens cs, (cs ++ [c])[i]? = some '(' := by
        intro h
        have hget := ih h
        rw [List.getElem?_append_left (List.getElem?_eq_some_iff.mp hget).choose]
        exact hget
      rw [openParens_concat, parenStep] at h
      split_ifs at h with hopen hclose
      · cases h with
        | head => simpa using hopen
        | tail _ h => exact hold h
      · exact hold (List.mem_of_mem_tail h)
      · exact hold h

theorem lt_length_of_mem_openParens (h : i ∈ openParens cs) : i < cs.length :=
  (List.getElem?_eq_some_iff.mp (getElem?_of_mem_openParens h)).choose

/-- What stands before a parenthesis stays the same behind one more character. -/
theorem map_take_concat (c : Char) {found : Option Nat} (h : ∀ i ∈ found, i ∈ openParens cs) :
    found.map (fun i => ((cs ++ [c]).take i).reverse) = found.map fun i => (cs.take i).reverse := by
  apply Option.map_congr
  intro i hi
  rw [List.take_append_of_le_length (Nat.le_of_lt (lt_length_of_mem_openParens (h i hi)))]

/-- Scanning back with some parentheses still to be matched finds the one that lies as deep among
the open ones. -/
theorem beforeOpenParen_eq (cs : List Char) (closed : Nat) :
    beforeOpenParen closed cs.reverse =
      (openParens cs)[closed]?.map fun i => (cs.take i).reverse := by
  induction cs using List.reverseRecOn generalizing closed with
  | nil => rfl
  | append_singleton cs c ih =>
      have hmem : ∀ closed, ∀ i ∈ (openParens cs)[closed]?, i ∈ openParens cs :=
        fun _ _ hi => List.mem_of_getElem? hi
      -- The character that the stack takes in last is the one that the scan back meets first.
      rw [List.reverse_append, List.reverse_singleton, List.singleton_append,
        beforeOpenParen.eq_def, openParens_concat, parenStep]
      by_cases hclose : c = ')'
      · have hopen : ¬ c = '(' := by
          rw [hclose]
          decide
        simp only [if_pos hclose, if_neg hopen, List.getElem?_tail]
        rw [ih (closed + 1), map_take_concat c (hmem (closed + 1))]
      · by_cases hopen : c = '('
        · simp only [if_neg hclose, if_pos hopen]
          cases closed with
          | zero => simp
          | succ closed =>
              rw [List.getElem?_cons_succ, map_take_concat c (hmem closed)]
              exact ih closed
        · simp only [if_neg hclose, if_neg hopen]
          rw [ih closed, map_take_concat c (hmem closed)]

/-- The call that is found open is the innermost one: its name is the longest run of name characters
before the parenthesis on top of the stack. Nothing is found where the stack is empty or the
parenthesis has no name, and to walk over the text index by index never fails. -/
theorem openCallee_innermost (cs : List Char) :
    Walking.openCallee cs = .ok (openCallee cs) ∧
    match openParens cs with
    | [] => openCallee cs = none
    | paren :: _ => ∃ before name after, cs = before ++ name ++ '(' :: after ∧
        (before ++ name).length = paren ∧ (∀ c ∈ name, isNameChar c = true) ∧
        (∀ c ∈ before.getLast?, isNameChar c = false) ∧ openCallee cs = nonempty? name := by
  refine ⟨Walking.openCallee_eq cs, ?_⟩
  have hfound := beforeOpenParen_eq cs 0
  unfold openCallee
  rw [hfound]
  cases hopened : openParens cs with
  | nil => rfl
  | cons paren outer =>
      have hmem : paren ∈ openParens cs := hopened ▸ List.mem_cons_self
      have hlt := lt_length_of_mem_openParens hmem
      obtain ⟨before, name, right, after, hparts, hlength⟩ := exists_surrounds (Nat.le_of_lt hlt)
      have hdrop : cs.drop paren = '(' :: cs.drop (paren + 1) := by
        have hget := (List.getElem?_eq_some_iff.mp (getElem?_of_mem_openParens hmem)).choose_spec
        rw [List.drop_eq_getElem_cons hlt, hget]
      have htake : cs.take paren = before ++ name := by
        rw [← hlength]
        exact hparts.take_eq
      refine ⟨before, name, cs.drop (paren + 1), ?_, hlength, hparts.left, hparts.before, ?_⟩
      · rw [← htake, ← hdrop, List.take_append_drop]
      · have hname := hparts.trailingName_eq
        rw [hlength, trailingName] at hname
        change nonempty? ((cs.take paren).reverse.takeWhile isNameChar).reverse = _
        rw [hname]

/-- What closes nothing is passed over, and what is closed again is not open. -/
example : openParens ")f(1, g(2), (3)".toList = [2] ∧
    openCallee ")f(1, g(2), (3)".toList = some "f" := by
  decide

/-! ### Commas -/

def commas (cs : List Char) : Finset Nat :=
  (Finset.range cs.length).filter fun i => cs[i]? = some ','

/-- The commas behind a place. -/
def commasBehind (cs : List Char) (place : Nat) : Finset Nat :=
  (commas cs).filter fun i => place < i

/-- The commas directly inside a parenthesis: they stand behind it, and no parenthesis behind it is
open in front of them. -/
def commasInside (cs : List Char) (paren : Nat) : Finset Nat :=
  (commasBehind cs paren).filter fun i => ∀ j ∈ openParens (cs.take i), j ≤ paren

theorem commas_concat (cs : List Char) (c : Char) :
    commas (cs ++ [c]) = if c = ',' then insert cs.length (commas cs) else commas cs := by
  have hold : (Finset.range cs.length).filter (fun i => (cs ++ [c])[i]? = some ',') =
      commas cs := by
    apply Finset.filter_congr
    intro i hi
    rw [List.getElem?_append_left (Finset.mem_range.mp hi)]
  have hlast : (cs ++ [c])[cs.length]? = some c := by simp
  rw [commas, List.length_append, List.length_singleton, Finset.range_add_one,
    Finset.filter_insert, hold]
  simp only [hlast, Option.some_inj]

theorem card_commasBehind (before after : List Char) :
    (commasBehind (before ++ '(' :: after) before.length).card = after.count ',' := by
  induction after using List.reverseRecOn with
  | nil =>
      rw [List.count_nil, Finset.card_eq_zero, commasBehind, commas, Finset.filter_filter]
      apply Finset.filter_false_of_mem
      intro i hi
      rw [Finset.mem_range, List.length_append, List.length_singleton] at hi
      omega
  | append_singleton after c ih =>
      rw [← List.cons_append, ← List.append_assoc, List.count_append, ← ih, commasBehind,
        commas_concat]
      split_ifs with hcomma
      · have hbehind : before.length < (before ++ '(' :: after).length := by simp
        have hnew : (before ++ '(' :: after).length ∉
            (commas (before ++ '(' :: after)).filter fun i => before.length < i := by
          simp [commas]
        rw [Finset.filter_insert, if_pos hbehind, Finset.card_insert_of_notMem hnew, hcomma]
        rfl
      · rw [List.count_singleton, if_neg (by simpa using hcomma), Nat.add_zero]
        rfl

/-- The last opening parenthesis of a text. -/
structure IsLastParen (cs : List Char) (last : Nat) : Prop where
  opening : cs[last]? = some '('
  none_behind : ∀ i, last < i → cs[i]? ≠ some '('

theorem exists_isLastParen (h : cs[paren]? = some '(') :
    ∃ before after, cs = before ++ '(' :: after ∧ '(' ∉ after ∧ IsLastParen cs before.length := by
  -- The last one of a text is the first one of the text read backwards.
  have hmem : '(' ∈ cs.reverse := List.mem_reverse.mpr (List.mem_of_getElem? h)
  obtain ⟨run, before, hreverse, hnone⟩ := List.eq_append_cons_of_mem hmem
  have hcs : cs = before.reverse ++ '(' :: run.reverse := by
    rw [← List.reverse_reverse cs, hreverse]
    simp
  refine ⟨before.reverse, run.reverse, hcs, by simpa using hnone, ?_, ?_⟩
  · rw [hcs]
    simp
  · intro i hi hget
    rw [hcs, List.getElem?_append_right (Nat.le_of_lt hi)] at hget
    obtain ⟨k, hk⟩ := Nat.exists_eq_add_of_lt hi
    rw [hk, Nat.add_assoc, Nat.add_sub_cancel_left, List.getElem?_cons_succ] at hget
    exact hnone (List.mem_reverse.mp (List.mem_of_getElem? hget))

theorem argumentIndex_eq_count {before after : List Char} (h : '(' ∉ after) :
    argumentIndex (before ++ '(' :: after) = after.count ',' := by
  have hrun : ∀ c ∈ after.reverse, (c != '(') = true :=
    bne_of_not_mem (by rwa [List.mem_reverse])
  rw [argumentIndex, List.reverse_append, List.reverse_cons, List.append_assoc,
    takeWhile_run hrun (by simp), List.count_reverse]

theorem argumentIndex_eq_card (h : cs[paren]? = some '(') :
    ∃ last, IsLastParen cs last ∧ argumentIndex cs = (commasBehind cs last).card := by
  obtain ⟨before, after, rfl, hnone, hlast⟩ := exists_isLastParen h
  refine ⟨before.length, hlast, ?_⟩
  rw [argumentIndex_eq_count hnone, card_commasBehind]

/-- Nothing is opened behind the last opening parenthesis, so what stands there is directly inside. -/
theorem IsLastParen.commasInside_eq (h : IsLastParen cs paren) :
    commasInside cs paren = commasBehind cs paren := by
  apply Finset.filter_true_of_mem
  intro i _ j hj
  have hget := getElem?_of_mem_openParens hj
  rw [List.getElem?_take] at hget
  split_ifs at hget
  by_contra hlt
  exact h.none_behind j (Nat.lt_of_not_le hlt) hget

/-- The commas directly inside a parenthesis that are not behind the last one are before it. -/
theorem IsLastParen.commasInside_sdiff {last : Nat} (h : IsLastParen cs last) :
    commasInside cs paren \ commasBehind cs last = (commasInside cs paren).filter (· < last) := by
  ext i
  simp only [Finset.mem_sdiff, Finset.mem_filter, commasInside, commasBehind, commas]
  constructor
  · rintro ⟨hinside, hnot⟩
    have hne : i ≠ last := by
      intro he
      have hcomma := hinside.1.1.2
      rw [he, h.opening] at hcomma
      cases hcomma
    have hle : ¬ last < i := fun hlt => hnot ⟨hinside.1.1, hlt⟩
    exact ⟨hinside, by omega⟩
  · rintro ⟨hinside, hlt⟩
    exact ⟨hinside, fun hbehind => Nat.lt_asymm hlt hbehind.2⟩

end MacroScript
