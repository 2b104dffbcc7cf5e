import Mathlib.Data.List.Basic
import Mathlib.Data.List.TakeWhile
import Mathlib.Data.Nat.Digits.Defs
import MacroScript.Text.Numeral

/-!
# The grammar of spelled integers

Which texts spell an integer, and which one, said without reference to how they
are read: blanks, an optional sign, a row of digits of any scripts with single
underscores between them, and blanks again. The row has the value that its
digits have in base ten, so zeros at its front do not count.

Reading agrees with the grammar. A text without a spelling is not read, and one
with a spelling is read as the spelled integer, unless the row has more digits
than are read at all.
-/
namespace MacroScript.Text

/-- A row of digits, in which single underscores may stand between two digits, and the values of the
digits. -/
inductive DigitRow : List Char → List Nat → Prop
  | last {c : Char} {d : Nat} : digitValue? c = some d → DigitRow [c] [d]
  | next {c : Char} {cs : List Char} {d : Nat} {ds : List Nat} : digitValue? c = some d →
      DigitRow cs ds → DigitRow (c :: cs) (d :: ds)
  | underscore {c : Char} {cs : List Char} {d : Nat} {ds : List Nat} : digitValue? c = some d →
      DigitRow cs ds → DigitRow (c :: '_' :: cs) (d :: ds)

/-- What stands before the digits of an integer. -/
inductive Sign where
  | absent
  | plus
  | minus
  deriving DecidableEq, Repr

namespace Sign

def chars : Sign → List Char
  | absent => []
  | plus => ['+']
  | minus => ['-']

def apply : Sign → Nat → Int
  | absent, n | plus, n => n
  | minus, n => -(n : Int)

end Sign

/-- A text as the spelling of an integer. -/
structure Numeral (text : String) where
  before : List Char
  sign : Sign
  row : List Char
  digits : List Nat
  after : List Char
  toList_eq : text.toList = before ++ (sign.chars ++ row) ++ after
  before_blank : ∀ c ∈ before, isBlank c = true
  after_blank : ∀ c ∈ after, isBlank c = true
  row_digits : DigitRow row digits

/-- The spelled integer. -/
def Numeral.value {text : String} (numeral : Numeral text) : Int :=
  numeral.sign.apply (Nat.ofDigits 10 numeral.digits.reverse)

section Digits

variable {c : Char} {cs : List Char} {d : Nat} {ds : List Nat}

theorem isBlank_of_digitValue? (h : digitValue? c = some d) : isBlank c = false := by
  have hruns : ∀ start ∈ digitZeros, ∀ k < 10, isBlank (Char.ofNat (start + k)) = false := by
    decide +kernel
  obtain ⟨start, hfind, rfl⟩ := Option.map_eq_some_iff.mp h
  have hrange := List.find?_some hfind
  simp only [Bool.and_eq_true, decide_eq_true_eq] at hrange
  have hblank := hruns start (List.mem_of_find?_eq_some hfind) (c.toNat - start) (by omega)
  rwa [Nat.add_sub_cancel' hrange.1, Char.ofNat_toNat] at hblank

theorem ne_of_digitValue? {mark : Char} (h : digitValue? c = some d)
    (hmark : digitValue? mark = none) : c ≠ mark := by
  rintro rfl
  exact nomatch h.symm.trans hmark

theorem digitsAfter?_underscore (cs : List Char) : digitsAfter? ('_' :: cs) = digits? cs := by
  cases cs with
  | nil => decide
  | cons c cs => rw [digitsAfter?, digits?]

theorem digitsAfter?_of_ne_underscore (h : c ≠ '_') :
    digitsAfter? (c :: cs) = digits? (c :: cs) := by
  rw [digitsAfter?, digits?]
  exact fun _ _ hc => absurd hc h

theorem DigitRow.exists_head (h : DigitRow cs ds) :
    ∃ c rest d, cs = c :: rest ∧ digitValue? c = some d := by
  cases h with
  | last hc => exact ⟨_, _, _, rfl, hc⟩
  | next hc _ => exact ⟨_, _, _, rfl, hc⟩
  | underscore hc _ => exact ⟨_, _, _, rfl, hc⟩

theorem DigitRow.exists_last (h : DigitRow cs ds) :
    ∃ front c d, cs = front ++ [c] ∧ digitValue? c = some d := by
  induction h with
  | last hc => exact ⟨[], _, _, rfl, hc⟩
  | @next c cs d ds _ _ ih =>
      obtain ⟨front, last, value, rfl, hlast⟩ := ih
      exact ⟨c :: front, last, value, rfl, hlast⟩
  | @underscore c cs d ds _ _ ih =>
      obtain ⟨front, last, value, rfl, hlast⟩ := ih
      exact ⟨c :: '_' :: front, last, value, rfl, hlast⟩

theorem DigitRow.digits?_eq (h : DigitRow cs ds) : digits? cs = some ds := by
  induction h with
  | last hc => rw [digits?, hc]; rfl
  | next hc hrow ih =>
      obtain ⟨c', rest, d', rfl, hc'⟩ := hrow.exists_head
      rw [digits?, hc, digitsAfter?_of_ne_underscore (ne_of_digitValue? hc' (by decide)), ih]
      rfl
  | underscore hc _ ih =>
      rw [digits?, hc, digitsAfter?_underscore, ih]
      rfl

/-- What may follow a digit: nothing, another digit, or an underscore and another digit. -/
theorem DigitRow.of_digitsAfter? (hc : digitValue? c = some d) (h : digitsAfter? cs = some ds) :
    DigitRow (c :: cs) (d :: ds) := by
  induction cs using digitsAfter?.induct generalizing c d ds with
  | case1 =>
      obtain rfl := Option.some.inj h
      exact .last hc
  | case2 c' rest ih =>
      rw [digitsAfter?, Option.bind_eq_some_iff] at h
      obtain ⟨d', hc', h⟩ := h
      obtain ⟨ds', hrest, rfl⟩ := Option.map_eq_some_iff.mp h
      exact .underscore hc (ih hc' hrest)
  | case3 c' rest hmark ih =>
      rw [digitsAfter?.eq_3 c' rest hmark, Option.bind_eq_some_iff] at h
      obtain ⟨d', hc', h⟩ := h
      obtain ⟨ds', hrest, rfl⟩ := Option.map_eq_some_iff.mp h
      exact .next hc (ih hc' hrest)

theorem digits?_eq_some_iff : digits? cs = some ds ↔ DigitRow cs ds := by
  refine ⟨fun h => ?_, DigitRow.digits?_eq⟩
  cases cs with
  | nil => cases h
  | cons c cs =>
      obtain ⟨d, hc, h⟩ := Option.bind_eq_some_iff.mp h
      obtain ⟨ds', hcs, rfl⟩ := Option.map_eq_some_iff.mp h
      exact .of_digitsAfter? hc hcs

/-- The value of digits is the one that they have in base ten. -/
theorem valueOf_eq_ofDigits (ds : List Nat) : valueOf ds = Nat.ofDigits 10 ds.reverse := by
  rw [valueOf, Nat.ofDigits_eq_foldr, List.foldr_reverse]
  congr 1
  funext value d
  exact Nat.add_comm _ _

theorem DigitRow.natural?_eq (h : DigitRow cs ds) :
    natural? cs = if ds.length ≤ maxDigits then some (Nat.ofDigits 10 ds.reverse) else none := by
  rw [natural?, h.digits?_eq, Option.bind_some, valueOf_eq_ofDigits]

end Digits

section Blanks

variable {before core after cs : List Char}

theorem dropWhile_isBlank_of_head (h : ∀ c ∈ cs.head?, isBlank c = false) :
    cs.dropWhile isBlank = cs := by
  cases cs with
  | nil => rfl
  | cons c cs => exact List.dropWhile_cons_of_neg (Bool.eq_false_iff.mp (h c rfl))

theorem trimBlanks_eq_self (h : ∀ c ∈ cs, isBlank c = false) : trimBlanks cs = cs := by
  have hback : ∀ c ∈ cs.reverse, isBlank c = false := fun c hc => h c (List.mem_reverse.mp hc)
  rw [trimBlanks, dropWhile_isBlank_of_head fun c hc => h c (List.mem_of_mem_head? hc),
    dropWhile_isBlank_of_head fun c hc => hback c (List.mem_of_mem_head? hc), List.reverse_reverse]

theorem trimBlanks_between (hbefore : ∀ c ∈ before, isBlank c = true)
    (hafter : ∀ c ∈ after, isBlank c = true) (hne : core ≠ [])
    (hhead : ∀ c ∈ core.head?, isBlank c = false) (hlast : ∀ c ∈ core.getLast?, isBlank c = false) :
    trimBlanks (before ++ core ++ after) = core := by
  have hfront : (before ++ core ++ after).dropWhile isBlank = core ++ after := by
    rw [List.append_assoc, List.dropWhile_append_of_pos hbefore]
    refine dropWhile_isBlank_of_head ?_
    rwa [List.head?_append_of_ne_nil _ hne]
  have hback : (core ++ after).reverse.dropWhile isBlank = core.reverse := by
    rw [List.reverse_append,
      List.dropWhile_append_of_pos fun c hc => hafter c (List.mem_reverse.mp hc)]
    refine dropWhile_isBlank_of_head ?_
    rwa [List.head?_reverse]
  rw [trimBlanks, hfront, hback, List.reverse_reverse]

theorem exists_trimBlanks (cs : List Char) : ∃ before after,
    cs = before ++ trimBlanks cs ++ after ∧ (∀ c ∈ before, isBlank c = true) ∧
      ∀ c ∈ after, isBlank c = true := by
  have hcore : trimBlanks cs ++ ((cs.dropWhile isBlank).reverse.takeWhile isBlank).reverse =
      cs.dropWhile isBlank := by
    rw [trimBlanks, ← List.reverse_append, List.takeWhile_append_dropWhile, List.reverse_reverse]
  refine ⟨cs.takeWhile isBlank, ((cs.dropWhile isBlank).reverse.takeWhile isBlank).reverse, ?_,
    fun c hc => List.mem_takeWhile_imp hc,
    fun c hc => List.mem_takeWhile_imp (List.mem_reverse.mp hc)⟩
  rw [List.append_assoc, hcore, List.takeWhile_append_dropWhile]

end Blanks

section Integer

variable {text : String} {row : List Char}

/-- Only a sign that is there is taken for one. -/
theorem integer?_of_trimBlanks {sign : Sign} (h : trimBlanks text.toList = sign.chars ++ row)
    (hhead : row.head? ≠ some '-' ∧ row.head? ≠ some '+') :
    integer? text = (natural? row).map sign.apply := by
  unfold integer?
  rw [h]
  cases sign with
  | absent =>
      split
      next heq => exact absurd (congrArg List.head? heq) hhead.1
      next heq => exact absurd (congrArg List.head? heq) hhead.2
      next =>
        rw [Sign.chars, List.nil_append]
        cases natural? row <;> rfl
  | plus =>
      simp only [Sign.chars, List.cons_append, List.nil_append]
      cases natural? row <;> rfl
  | minus =>
      simp only [Sign.chars, List.cons_append, List.nil_append]
      cases natural? row <;> rfl

theorem exists_sign (text : String) : ∃ (sign : Sign) (row : List Char),
    trimBlanks text.toList = sign.chars ++ row ∧
      integer? text = (natural? row).map sign.apply := by
  unfold integer?
  split
  next rest heq => exact ⟨.minus, rest, heq, by cases natural? rest <;> rfl⟩
  next rest heq => exact ⟨.plus, rest, heq, by cases natural? rest <;> rfl⟩
  next =>
    exact ⟨.absent, trimBlanks text.toList, rfl,
      by cases natural? (trimBlanks text.toList) <;> rfl⟩

/-- A sign is no blank, and a row of digits neither begins nor ends with one. -/
theorem Numeral.trimBlanks_eq (numeral : Numeral text) :
    trimBlanks text.toList = numeral.sign.chars ++ numeral.row := by
  obtain ⟨first, rest, d, hfirst, hd⟩ := numeral.row_digits.exists_head
  obtain ⟨front, last, d', hlast, hd'⟩ := numeral.row_digits.exists_last
  rw [numeral.toList_eq]
  refine trimBlanks_between numeral.before_blank numeral.after_blank ?_ ?_ ?_
  · simp [hfirst]
  · intro c hc
    cases hsign : numeral.sign with
    | absent =>
        obtain rfl : first = c := by simpa [hsign, hfirst, Sign.chars] using hc
        exact isBlank_of_digitValue? hd
    | plus =>
        obtain rfl : '+' = c := by simpa [hsign, Sign.chars] using hc
        decide
    | minus =>
        obtain rfl : '-' = c := by simpa [hsign, Sign.chars] using hc
        decide
  · intro c hc
    obtain rfl : last = c := by simpa [hlast, ← List.append_assoc] using hc
    exact isBlank_of_digitValue? hd'

theorem Numeral.integer?_eq (numeral : Numeral text) :
    integer? text = if numeral.digits.length ≤ maxDigits then some numeral.value else none := by
  obtain ⟨first, rest, d, hfirst, hd⟩ := numeral.row_digits.exists_head
  have hhead : numeral.row.head? ≠ some '-' ∧ numeral.row.head? ≠ some '+' := by
    rw [hfirst]
    exact ⟨fun h => ne_of_digitValue? hd (by decide) (Option.some.inj h),
      fun h => ne_of_digitValue? hd (by decide) (Option.some.inj h)⟩
  rw [integer?_of_trimBlanks numeral.trimBlanks_eq hhead, numeral.row_digits.natural?_eq]
  split
  · rfl
  · rfl

theorem exists_numeral_of_integer? {n : Int} (h : integer? text = some n) :
    ∃ numeral : Numeral text, numeral.digits.length ≤ maxDigits ∧ numeral.value = n := by
  obtain ⟨sign, row, hcore, hread⟩ := exists_sign text
  obtain ⟨before, after, htext, hbefore, hafter⟩ := exists_trimBlanks text.toList
  obtain ⟨size, hsize, rfl⟩ := Option.map_eq_some_iff.mp (hread.symm.trans h)
  obtain ⟨digits, hdigits, _⟩ := Option.bind_eq_some_iff.mp hsize
  have hrow := digits?_eq_some_iff.mp hdigits
  rw [hrow.natural?_eq, Option.ite_none_right_eq_some] at hsize
  obtain ⟨hlength, hvalue⟩ := hsize
  rw [hcore] at htext
  exact ⟨⟨before, sign, row, digits, after, htext, hbefore, hafter, hrow⟩, hlength,
    congrArg sign.apply (Option.some.inj hvalue)⟩

/-- A row behind zeros, without a sign and without blanks. -/
def Numeral.behindZeros (zeros : Nat) {digits : List Nat} (h : DigitRow row digits) :
    Numeral (String.ofList (List.replicate zeros '0' ++ row)) where
  before := []
  sign := .absent
  row := List.replicate zeros '0' ++ row
  digits := List.replicate zeros 0 ++ digits
  after := []
  toList_eq := by
    rw [String.toList_ofList, Sign.chars, List.nil_append, List.nil_append, List.append_nil]
  before_blank := List.forall_mem_nil _
  after_blank := List.forall_mem_nil _
  row_digits := by
    induction zeros with
    | zero => exact h
    | succ zeros ih => exact .next (by decide) ih

theorem Numeral.length_digits_behindZeros (zeros : Nat) {digits : List Nat}
    (h : DigitRow row digits) :
    (Numeral.behindZeros zeros h).digits.length = zeros + digits.length := by
  rw [behindZeros, List.length_append, List.length_replicate]

theorem Numeral.value_behindZeros (zeros : Nat) {digits : List Nat} (h : DigitRow row digits) :
    (Numeral.behindZeros zeros h).value = (Nat.ofDigits 10 digits.reverse : Nat) := by
  rw [value, behindZeros, List.reverse_append, List.reverse_replicate,
    Nat.ofDigits_append_replicate_zero, Sign.apply]

end Integer

end MacroScript.Text
