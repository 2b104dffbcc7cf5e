import MacroScript.Expr.Painted
import MacroScript.Proofs.Reading.WrittenForm

/-!
# Painted text and source text

The painted text of a tree is its source text with colour sequences put in. They
are put around names and literals only, and nothing of the source text is left
out or changed, whichever groups are painted and whichever names are builtins.
So a tree that cannot be written cannot be painted either, for the same string.

A colour sequence begins with an escape character. If there is none in the names
and strings of the tree, there is none in the source text, and then every colour
sequence of the painted text is one that was put in.
-/
namespace MacroScript

namespace Paint

/-- The characters of the numbers in a colour sequence, and of the marks between them. -/
def isParameter (c : Char) : Bool := c.isDigit || c == ';'

/-- What stands behind a colour sequence, if the characters begin with one: an escape character, a
bracket, numbers and the letter `m`. -/
def behindSequence? : List Char → Option (List Char)
  | '\x1b' :: '[' :: cs =>
      match cs.dropWhile isParameter with
      | 'm' :: rest => some rest
      | _ => none
  | _ => none

theorem behindSequence?_lt {cs rest : List Char} (h : behindSequence? cs = some rest) :
    rest.length < cs.length := by
  unfold behindSequence? at h
  split at h
  next cs =>
    split at h
    next rest' hdrop =>
      obtain rfl := Option.some.inj h
      have hle := (List.dropWhile_suffix (l := cs) isParameter).length_le
      rw [hdrop] at hle
      simp only [List.length_cons] at hle ⊢
      omega
    next => cases h
  next => cases h

/-- The characters that are left when every colour sequence is deleted. -/
def uncoloured (cs : List Char) : List Char :=
  match h : behindSequence? cs with
  | some rest =>
      have := behindSequence?_lt h
      uncoloured rest
  | none =>
      match cs with
      | [] => []
      | c :: cs => c :: uncoloured cs
termination_by cs.length

theorem uncoloured_nil : uncoloured [] = [] := by
  rw [uncoloured]
  split
  next rest hrest => cases hrest
  next => rfl

theorem uncoloured_sequence {params cs : List Char} (h : ∀ c ∈ params, isParameter c = true) :
    uncoloured ('\x1b' :: '[' :: (params ++ 'm' :: cs)) = uncoloured cs := by
  have hbehind : behindSequence? ('\x1b' :: '[' :: (params ++ 'm' :: cs)) = some cs := by
    rw [behindSequence?, List.dropWhile_append_of_pos h]
    rfl
  rw [uncoloured]
  split
  next rest hrest =>
    obtain rfl := Option.some.inj (hbehind.symm.trans hrest)
    rfl
  next hnone => cases hbehind.symm.trans hnone

theorem uncoloured_cons {c : Char} {cs : List Char} (h : c ≠ '\x1b') :
    uncoloured (c :: cs) = c :: uncoloured cs := by
  have hbehind : behindSequence? (c :: cs) = none := by
    unfold behindSequence?
    split
    next heq =>
      injection heq with hc
      exact absurd hc h
    next => rfl
  rw [uncoloured]
  split
  next rest hrest => cases hbehind.symm.trans hrest
  next => rfl

/-- The second text is the first one with colour sequences put in. -/
inductive Colours : List Char → List Char → Prop
  | nil : Colours [] []
  | char {cs coloured : List Char} (c : Char) : Colours cs coloured →
      Colours (c :: cs) (c :: coloured)
  | sequence {params cs coloured : List Char} : (∀ c ∈ params, isParameter c = true) →
      Colours cs coloured → Colours cs ('\x1b' :: '[' :: (params ++ 'm' :: coloured))

namespace Colours

variable {cs ds coloured coloured' : List Char}

theorem refl (cs : List Char) : Colours cs cs := by
  induction cs with
  | nil => exact .nil
  | cons c cs ih => exact .char c ih

theorem append (h : Colours cs coloured) (h' : Colours ds coloured') :
    Colours (cs ++ ds) (coloured ++ coloured') := by
  induction h with
  | nil => exact h'
  | char c _ ih => exact .char c ih
  | @sequence params cs coloured hparams _ ih =>
      rw [List.cons_append, List.cons_append, List.append_assoc]
      exact .sequence hparams ih

/-- What was put in is all that is deleted again, if the text itself begins no sequence. -/
theorem uncoloured_eq (h : Colours cs coloured) (hescape : '\x1b' ∉ cs) :
    uncoloured coloured = cs := by
  induction h with
  | nil => exact uncoloured_nil
  | char c _ ih =>
      rw [List.mem_cons, not_or] at hescape
      rw [uncoloured_cons (Ne.symm hescape.1), ih hescape.2]
  | sequence hparams _ ih => rw [uncoloured_sequence hparams, ih hescape]

end Colours

theorem isParameter_code (paint : Paint) : ∀ c ∈ paint.code.toList, isParameter c = true := by
  cases paint <;> simp [code, isParameter, Char.isDigit]

theorem toList_start (paint : Paint) :
    paint.start.toList = '\x1b' :: '[' :: (paint.code.toList ++ ['m']) := by
  cases paint <;> rfl

theorem colours_apply (paint : Paint) (enabled : Bool) (text : String) :
    Colours text.toList (paint.apply enabled text).toList := by
  unfold apply
  split
  · have hreset : Colours [] reset.toList :=
      @Colours.sequence ['0'] [] [] (by simp [isParameter, Char.isDigit]) .nil
    have hbehind := (Colours.refl text.toList).append hreset
    have hstart := Colours.sequence paint.isParameter_code hbehind
    rw [List.append_nil] at hstart
    rw [String.toList_append, String.toList_append, toList_start]
    simpa using hstart
  · exact .refl _

/-- The same problem, or a text and the same text with colour sequences put in. -/
inductive InStep : Except Unwritable String → Except Unwritable String → Prop
  | text {plain coloured : String} : Colours plain.toList coloured.toList →
      InStep (.ok plain) (.ok coloured)
  | problem (problem : Unwritable) : InStep (.error problem) (.error problem)

namespace InStep

variable {plain coloured : Except Unwritable String} {problem : Unwritable}

theorem error_iff (h : InStep plain coloured) :
    coloured = .error problem ↔ plain = .error problem := by
  cases h with
  | text => exact ⟨nofun, nofun⟩
  | problem => exact Iff.rfl

theorem map {f g : String → String} (h : InStep plain coloured)
    (hfg : ∀ {plain coloured : String}, Colours plain.toList coloured.toList →
      Colours (f plain).toList (g coloured).toList) :
    InStep (plain.map f) (coloured.map g) := by
  cases h with
  | text hcolours => exact .text (hfg hcolours)
  | problem problem => exact .problem problem

theorem bind {f g : String → Except Unwritable String} (h : InStep plain coloured)
    (hfg : ∀ {plain coloured : String}, Colours plain.toList coloured.toList →
      InStep (f plain) (g coloured)) :
    InStep (plain.bind f) (coloured.bind g) := by
  cases h with
  | text hcolours => exact hfg hcolours
  | problem problem => exact .problem problem

/-- Deleting the colour sequences gives the plain text back, if that has no escape character. -/
theorem map_uncoloured (h : InStep plain coloured)
    (hescape : ∀ text, plain = .ok text → '\x1b' ∉ text.toList) :
    (coloured.map fun text => String.ofList (uncoloured text.toList)) = plain := by
  cases h with
  | @text plain coloured hcolours =>
      rw [Except.map, hcolours.uncoloured_eq (hescape _ rfl), String.ofList_toList]
  | problem => rfl

end InStep

end Paint

namespace Expr

open Paint

section
variable (builtins : List String) (options : PaintOptions)

theorem colours_paintedHead (name : String) :
    Colours name.toList (paintedHead builtins options name).toList := by
  unfold paintedHead
  split
  · exact colours_apply _ _ _
  · exact colours_apply _ _ _

mutual

theorem painted_inStep : (e : Expr) → InStep e.written (e.painted builtins options)
  | void | int _ | var _ => .text (colours_apply _ _ _)
  | string text => by
      unfold written painted
      cases writtenString text with
      | error problem => exact .problem problem
      | ok quoted => exact .text (colours_apply _ _ _)
  | call name args => by
      unfold written painted
      refine (paintedAll_inStep args).map fun hinside => ?_
      simpa [toString] using (colours_paintedHead builtins options name).append
        ((Colours.char '(' hinside).append (.refl [')']))

theorem paintedAll_inStep :
    (es : List Expr) → InStep (writtenAll es) (paintedAll builtins options es)
  | [] => .text (.refl _)
  | [e] => by
      unfold writtenAll paintedAll
      exact painted_inStep e
  | e :: e' :: es => by
      unfold writtenAll paintedAll
      refine (painted_inStep e).bind fun hfirst => ?_
      refine (paintedAll_inStep (e' :: es)).map fun hothers => ?_
      simpa [toString] using hfirst.append (.char ',' (.char ' ' hothers))

end

end

mutual

theorem painted_plain (builtins : List String) : (e : Expr) →
    e.painted builtins ⟨false, false, false, false⟩ = e.written
  | void | int _ | var _ => rfl
  | string text => by
      unfold written painted
      cases writtenString text <;> rfl
  | call name args => by
      have hhead : paintedHead builtins ⟨false, false, false, false⟩ name = name := by
        unfold paintedHead
        split <;> rfl
      rw [written, painted, paintedAll_plain builtins args, hhead]

theorem paintedAll_plain (builtins : List String) : (es : List Expr) →
    paintedAll builtins ⟨false, false, false, false⟩ es = writtenAll es
  | [] => rfl
  | [e] => by rw [writtenAll, paintedAll, painted_plain builtins e]
  | e :: e' :: es => by
      rw [writtenAll, paintedAll, painted_plain builtins e, paintedAll_plain builtins (e' :: es)]
      · exact nofun
      · exact nofun

end

/-- A name or a string contains no escape character. -/
def Escapeless : Expr → Prop
  | string text | var text | call text _ => '\x1b' ∉ text.toList
  | void | int _ => True

theorem escape_notMem_writtenString {text quoted : String} (h : '\x1b' ∉ text.toList)
    (hquoted : writtenString text = .ok quoted) : '\x1b' ∉ quoted.toList := by
  unfold writtenString at hquoted
  split at hquoted
  · simpa [← Except.ok.inj hquoted, toString] using h
  · split at hquoted
    · simpa [← Except.ok.inj hquoted, toString] using h
    · cases hquoted

mutual

theorem escape_notMem_written : (e : Expr) → e.Every Escapeless → (text : String) →
    e.written = .ok text → '\x1b' ∉ text.toList
  | void, _, _, hwritten => by
      rw [← Except.ok.inj hwritten]
      decide
  | int value, _, _, hwritten => by
      rw [← Except.ok.inj hwritten, Nat.toString_eq_ofList_toDigits, String.toList_ofList]
      intro hmem
      exact absurd (Nat.isDigit_of_mem_toDigits (by decide) (by decide) hmem) (by decide)
  | string _, hname, _, hwritten => escape_notMem_writtenString hname hwritten
  | var _, hname, _, hwritten => Except.ok.inj hwritten ▸ hname
  | call name args, h, _, hwritten => by
      obtain ⟨inside, hinside, htext⟩ := toList_written_call hwritten
      have hargs := escape_notMem_writtenAll args h.2 inside hinside
      have hname : '\x1b' ∉ name.toList := h.1
      simp [htext, hname, hargs]

theorem escape_notMem_writtenAll : (es : List Expr) → EveryIn Escapeless es → (text : String) →
    writtenAll es = .ok text → '\x1b' ∉ text.toList
  | [], _, _, hwritten => by
      rw [← Except.ok.inj hwritten]
      exact List.not_mem_nil
  | [e], h, text, hwritten => escape_notMem_written e h.1 text (by rwa [writtenAll] at hwritten)
  | e :: e' :: es, h, _, hwritten => by
      obtain ⟨first, others, hfirst, hothers, htext⟩ := toList_writtenAll hwritten
      have hfirst := escape_notMem_written e h.1 first hfirst
      have hothers := escape_notMem_writtenAll (e' :: es) h.2 others hothers
      simp [htext, hfirst, hothers]

end

mutual

/-- The strings of a tree in the order in which they are written. -/
def strings : Expr → List String
  | string text => [text]
  | call _ args => stringsIn args
  | void | int _ | var _ => []

def stringsIn : List Expr → List String
  | [] => []
  | e :: es => e.strings ++ stringsIn es

end

def bothQuotes (text : String) : Bool := text.toList.contains '"' && text.toList.contains '\''

def problem? : Except Unwritable String → Option Unwritable
  | .ok _ => none
  | .error problem => some problem

theorem problem?_eq_some_iff {outcome : Except Unwritable String} {problem : Unwritable} :
    problem? outcome = some problem ↔ outcome = .error problem := by
  cases outcome <;> simp [problem?]

theorem problem?_map {outcome : Except Unwritable String} {f : String → String} :
    problem? (outcome.map f) = problem? outcome := by
  cases outcome <;> rfl

theorem problem?_bind_map (first others : Except Unwritable String) (f : String → String → String) :
    problem? (first.bind fun x => others.map (f x)) = (problem? first).or (problem? others) := by
  cases first with
  | error problem => rfl
  | ok x => exact problem?_map

theorem problem?_writtenString (text : String) :
    problem? (writtenString text) = ([text].find? bothQuotes).map Unwritable.mk := by
  unfold writtenString bothQuotes
  split_ifs with hdouble hsingle <;> simp_all [problem?]

mutual

theorem problem?_written : (e : Expr) →
    problem? e.written = (e.strings.find? bothQuotes).map Unwritable.mk
  | void | int _ | var _ => rfl
  | string text => problem?_writtenString text
  | call _ args => by rw [written, problem?_map, problem?_writtenAll args, strings]

theorem problem?_writtenAll : (es : List Expr) →
    problem? (writtenAll es) = ((stringsIn es).find? bothQuotes).map Unwritable.mk
  | [] => rfl
  | [e] => by rw [writtenAll, problem?_written e, stringsIn, stringsIn, List.append_nil]
  | e :: e' :: es => by
      have hpair := problem?_bind_map e.written (writtenAll (e' :: es)) fun first others =>
        s!"{first}, {others}"
      rw [problem?_written e, problem?_writtenAll (e' :: es), ← Option.map_or,
        ← List.find?_append] at hpair
      rw [stringsIn, ← hpair, writtenAll]
      exact nofun

end

/-- A string is the first one of a tree with both kinds of quote. -/
theorem written_eq_error_iff {e : Expr} {problem : Unwritable} :
    e.written = .error problem ↔ e.strings.find? bothQuotes = some problem.text := by
  rw [← problem?_eq_some_iff, problem?_written, Option.map_eq_some_iff]
  exact ⟨fun ⟨_, hfind, hproblem⟩ => hproblem ▸ hfind, fun hfind => ⟨_, hfind, rfl⟩⟩

/-- A tree can be painted exactly if it can be written, and otherwise fails at the same string,
which is the first one with both kinds of quote. Without colours the painted text is the source
text, and if no name or string contains an escape character, then it is the source text again as
soon as the colour sequences are deleted. -/
theorem painted_matches_written (builtins : List String) (options : PaintOptions) (e : Expr) :
    (∀ problem, e.painted builtins options = .error problem ↔ e.written = .error problem) ∧
    (∀ problem, e.written = .error problem ↔
      e.strings.find? bothQuotes = some problem.text) ∧
    (options = ⟨false, false, false, false⟩ → e.painted builtins options = e.written) ∧
    (e.Every Escapeless →
      ((e.painted builtins options).map fun text => String.ofList (uncoloured text.toList)) =
        e.written) := by
  refine ⟨fun problem => (painted_inStep builtins options e).error_iff,
    fun problem => written_eq_error_iff, ?_, fun hescape => ?_⟩
  · rintro rfl
    exact painted_plain builtins e
  · exact (painted_inStep builtins options e).map_uncoloured (escape_notMem_written e hescape)

/-- A call of a builtin with a call of another function inside, in all colours and in none. -/
theorem painted_matches_written_echo :
    (call "echo" [string "a", call "f" [var "x", int 7], void]).Every Escapeless ∧
    (call "echo" [string "a", call "f" [var "x", int 7], void]).painted ["echo"] {} =
      .ok ("\x1b[90mecho\x1b[0m(\x1b[93m\"a\"\x1b[0m, \x1b[92mf\x1b[0m(\x1b[94mx\x1b[0m, "
        ++ "\x1b[95m7\x1b[0m), \x1b[36mdo()\x1b[0m)") ∧
    ((call "echo" [string "a", call "f" [var "x", int 7], void]).painted ["echo"] {}).map
      (fun text => String.ofList (uncoloured text.toList)) =
      .ok "echo(\"a\", f(x, 7), do())" ∧
    (call "echo" [string "a", call "f" [var "x", int 7], void]).painted ["echo"]
      ⟨false, false, false, false⟩ = .ok "echo(\"a\", f(x, 7), do())" := by
  have hescape : (call "echo" [string "a", call "f" [var "x", int 7], void]).Every Escapeless := by
    simp [Every, EveryIn, Escapeless]
  have hwritten : (call "echo" [string "a", call "f" [var "x", int 7], void]).written =
      .ok "echo(\"a\", f(x, 7), do())" := by decide +kernel
  have hpainted := painted_matches_written ["echo"] {}
    (call "echo" [string "a", call "f" [var "x", int 7], void])
  have hplain := painted_matches_written ["echo"] ⟨false, false, false, false⟩
    (call "echo" [string "a", call "f" [var "x", int 7], void])
  exact ⟨hescape, by decide +kernel, (hpainted.2.2.2 hescape).trans hwritten,
    (hplain.2.2.1 rfl).trans hwritten⟩

end Expr

end MacroScript
