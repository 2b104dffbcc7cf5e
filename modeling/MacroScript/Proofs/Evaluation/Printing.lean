import MacroScript.Proofs.Evaluation.Buffers
import MacroScript.Proofs.Evaluation.DepthBudget

/-!
# What is printed

`echo` and `log` evaluate their arguments from left to right and hold the texts
in a buffer of the scratch scope. What the arguments print themselves is emitted
at once. The texts that are held come out as one text behind all of that, if
every argument gave one and there was room for it, and otherwise not at all. The
scratch scope is as it was in either case.
-/
namespace MacroScript

open MacroScript.Action Session

/-- How arguments are printed one after another on top of a scope, where some texts are held
already: the fault that puts an end to it, if there is one, the texts that are held then, and the
session. No argument is evaluated behind a fault. -/
inductive Prints (scope : Scope) : List Expr → List String → Session →
    Option Fault → List String → Session → Prop
  | done (held : List String) (t : Session) : Prints scope [] held t none held t
  | failed {arg : Expr} {args : List Expr} {held : List String} {t u : Session} {fault : Fault} :
      evaluate arg t = .error fault u → Prints scope (arg :: args) held t (some fault) held u
  | unprintable {arg : Expr} {args : List Expr} {held : List String} {t u : Session}
      {v : HostValue} : evaluate arg t = .ok v u → Builtin.printed? v = none →
      Prints scope (arg :: args) held t (some (.eval (.notPrintable v))) held u
  | full {arg : Expr} {args : List Expr} {held : List String} {t u : Session} {v : HostValue}
      {text : String} : evaluate arg t = .ok v u → Builtin.printed? v = some text →
      ¬ scope.allows (scope.used + (String.join held).length + text.length) = true →
      Prints scope (arg :: args) held t
        (some (scope.exhausted (scope.used + (String.join held).length + text.length))) held u
  | next {arg : Expr} {args : List Expr} {held texts : List String} {t u w : Session}
      {v : HostValue} {text : String} {stop : Option Fault} : evaluate arg t = .ok v u →
      Builtin.printed? v = some text →
      scope.allows (scope.used + (String.join held).length + text.length) = true →
      Prints scope args (held ++ [text])
        { u with scratch := scope.collecting (held ++ [text]).reverse } stop texts w →
      Prints scope (arg :: args) held t stop texts w

namespace Builtin

/-- What `echo` does while it has a buffer. -/
def printInto (ev : Evaluator) (args : List Expr) (id : BufferId) : Action Session String := do
  printAll ev id args
  onScratch (Scope.contents id)

theorem callEcho_eq (ev : Evaluator) (args : List Expr) : callEcho ev args = (do
    let text ← withBuffer (printInto ev args)
    emit text
    return .expr .void : Action Session HostValue) := rfl

variable {ev : Evaluator} {id : BufferId} {arg : Expr} {args : List Expr} {t u : Session}
  {v : HostValue} {text : String}

theorem printAll_of_printed (hev : ev arg t = .ok v u) (hprinted : printed? v = some text) :
    printAll ev id (arg :: args) t =
      (do onScratch (Scope.write id text); printAll ev id args : Action Session Unit) u := by
  refine (bind_of_ok hev).trans ?_
  rw [hprinted]

theorem printAll_of_unprintable (hev : ev arg t = .ok v u) (hprinted : printed? v = none) :
    printAll ev id (arg :: args) t = .error (.eval (.notPrintable v)) u := by
  refine (bind_of_ok hev).trans ?_
  rw [hprinted]
  rfl

end Builtin

namespace Prints

variable {scope : Scope} {args : List Expr} {held texts : List String} {s t u : Session}
  {stop : Option Fault}

theorem exists_prints (scope : Scope) (args : List Expr) (held : List String) (t : Session) :
    ∃ stop texts u, Prints scope args held t stop texts u := by
  induction args generalizing held t with
  | nil => exact ⟨none, held, t, .done held t⟩
  | cons arg args ih =>
      cases hev : evaluate arg t with
      | error fault u => exact ⟨_, _, _, .failed hev⟩
      | ok v u =>
          cases hprinted : Builtin.printed? v with
          | none => exact ⟨_, _, _, .unprintable hev hprinted⟩
          | some text =>
              by_cases hroom :
                  scope.allows (scope.used + (String.join held).length + text.length) = true
              · obtain ⟨stop, texts, w, hrest⟩ := ih (held ++ [text])
                  { u with scratch := scope.collecting (held ++ [text]).reverse }
                exact ⟨stop, texts, w, .next hev hprinted hroom hrest⟩
              · exact ⟨_, _, _, .full hev hprinted hroom⟩

theorem text_holding (held : List String) :
    (Scope.holding held.reverse).text = String.join held := by
  rw [Scope.holding, Buffer.text, List.reverse_reverse]

theorem write_held (hheld : u.scratch = scope.collecting held.reverse) (text : String) :
    onScratch (Scope.write scope.buffers.length text) u =
      if scope.allows (scope.used + (String.join held).length + text.length) then
        .ok () { u with scratch := scope.collecting (held ++ [text]).reverse }
      else
        .error (scope.exhausted (scope.used + (String.join held).length + text.length)) u := by
  have hwrite := @Scope.write_collecting scope held.reverse text
  rw [Buffer.size_eq, text_holding, ← hheld] at hwrite
  split_ifs at hwrite ⊢ with hroom
  · rw [onScratch_ok hwrite, List.reverse_append]
    rfl
  · exact onScratch_error hwrite

theorem contents_held (hheld : u.scratch = scope.collecting held.reverse) :
    onScratch (Scope.contents scope.buffers.length) u = .ok (String.join held) u := by
  have hcontents := @Scope.contents_collecting scope held.reverse
  rw [text_holding, ← hheld] at hcontents
  exact onScratch_ok hcontents

theorem restored {arg : Expr} (hsound : scope.Sound) (hf : t.Follows .selfContained)
    (hscratch : t.scratch = scope.collecting held.reverse) (hu : (evaluate arg).final t = u) :
    u.Follows .selfContained ∧
      u.surroundings = ⟨t.maxDepth, t.depth, scope.collecting held.reverse⟩ ∧
      t.emitted <:+ u.emitted := by
  have hsound' : t.scratch.Sound := hscratch ▸ hsound.collecting
  obtain ⟨hf', hsame, hemitted⟩ := evaluateWith_restores hf hsound' t.levels arg
  rw [← hu, ← hscratch]
  exact ⟨hf', hsame, hemitted⟩

/-- The buffer is filled in the same way, and nothing that was emitted is lost. -/
theorem printAll (h : Prints scope args held t stop texts u) (hsound : scope.Sound)
    (hf : t.Follows .selfContained) (hscratch : t.scratch = scope.collecting held.reverse)
    {levels : Nat} (hlevels : (t.maxDepth - t.depth).toNat ≤ levels) :
    (Builtin.printAll (evaluateWith levels) scope.buffers.length args).result t =
        stop.elim (.ok ()) .error ∧
      (Builtin.printAll (evaluateWith levels) scope.buffers.length args).final t = u ∧
      u.surroundings = ⟨t.maxDepth, t.depth, scope.collecting texts.reverse⟩ ∧
      t.emitted <:+ u.emitted := by
  have henough : ∀ {t : Session}, t.Follows .selfContained →
      (t.maxDepth - t.depth).toNat ≤ levels → ∀ arg, evaluateWith levels arg t = evaluate arg t :=
    fun hf hlevels => evaluateWith_of_enough (hf.of_not_hosts id _) hlevels
  rw [← and_assoc]
  induction h with
  | done held t =>
      refine ⟨⟨rfl, rfl⟩, ?_, List.suffix_refl _⟩
      rw [surroundings, hscratch]
  | @failed arg args held t u fault hev =>
      obtain ⟨-, hrestored⟩ := restored hsound hf hscratch (eq_error_iff.mp hev).2
      have hev' := (henough hf hlevels arg).trans hev
      exact ⟨eq_error_iff.mp (bind_of_error hev'), hrestored⟩
  | @unprintable arg args held t u v hev hprinted =>
      obtain ⟨-, hrestored⟩ := restored hsound hf hscratch (eq_ok_iff.mp hev).2
      have hev' := (henough hf hlevels arg).trans hev
      exact ⟨eq_error_iff.mp (Builtin.printAll_of_unprintable hev' hprinted), hrestored⟩
  | @full arg args held t u v text hev hprinted hroom =>
      obtain ⟨-, hsame, hemitted⟩ := restored hsound hf hscratch (eq_ok_iff.mp hev).2
      have hev' := (henough hf hlevels arg).trans hev
      have hwrite := write_held (congrArg Surroundings.scratch hsame) text
      rw [if_neg hroom] at hwrite
      rw [result, final, Builtin.printAll_of_printed hev' hprinted, bind_of_error hwrite]
      exact ⟨⟨rfl, rfl⟩, hsame, hemitted⟩
  | @next arg args held texts t u w v text stop hev hprinted hroom _ ih =>
      obtain ⟨hf', hsame, hemitted⟩ := restored hsound hf hscratch (eq_ok_iff.mp hev).2
      have hev' := (henough hf hlevels arg).trans hev
      obtain ⟨hmaxDepth, hdepth, hheld⟩ := surroundings_eq_iff.mp hsame
      have hwrite := write_held hheld text
      rw [if_pos hroom] at hwrite
      rw [← hmaxDepth, ← hdepth] at hlevels ⊢
      obtain ⟨hends, hsame', hemitted'⟩ := ih hf' rfl hlevels
      rw [result, final, Builtin.printAll_of_printed hev' hprinted, bind_of_ok hwrite]
      exact ⟨hends, hsame', hemitted.trans hemitted'⟩

theorem printInto (h : Prints scope args held t stop texts u) (hsound : scope.Sound)
    (hf : t.Follows .selfContained) (hscratch : t.scratch = scope.collecting held.reverse)
    {levels : Nat} (hlevels : (t.maxDepth - t.depth).toNat ≤ levels) :
    (Builtin.printInto (evaluateWith levels) args scope.buffers.length).result t =
        stop.elim (.ok (String.join texts)) .error ∧
      (Builtin.printInto (evaluateWith levels) args scope.buffers.length).final t = u := by
  obtain ⟨hr, hfinal, hsame, -⟩ := h.printAll hsound hf hscratch hlevels
  unfold Builtin.printInto
  cases stop with
  | some fault => exact ⟨result_bind_error hr, (final_bind_error hr).trans hfinal⟩
  | none =>
      rw [result_bind_ok hr, final_bind_ok hr, hfinal]
      exact eq_ok_iff.mp (contents_held (congrArg Surroundings.scratch hsame))

theorem callEcho (hsound : s.scratch.Sound) (hf : s.Follows .selfContained)
    (hroom : s.scratch.allows s.scratch.used = true) {levels : Nat}
    (hlevels : (s.maxDepth - s.depth).toNat ≤ levels)
    (h : Prints s.scratch args [] { s with scratch := s.scratch.collecting [] } stop texts t) :
    (Builtin.callEcho (evaluateWith levels) args).result s =
        stop.elim (.ok (.expr .void)) .error ∧
      (Builtin.callEcho (evaluateWith levels) args).final s =
        { t with
          scratch := s.scratch
          emitted := stop.elim (String.join texts :: t.emitted) fun _ => t.emitted } ∧
      t.depth = s.depth ∧ s.emitted <:+ t.emitted := by
  obtain ⟨-, -, hsame, hemitted⟩ := h.printAll hsound hf rfl hlevels
  obtain ⟨hr, hfinal⟩ := h.printInto hsound hf rfl hlevels
  obtain ⟨hr', hfinal'⟩ := Builtin.withBuffer_of_room hsound hroom
    ((congrArg Session.scratch hfinal).trans (congrArg Surroundings.scratch hsame))
  rw [hr] at hr'
  rw [hfinal] at hfinal'
  rw [Builtin.callEcho_eq]
  refine ⟨?_, ?_, congrArg Surroundings.depth hsame, hemitted⟩
  · cases stop with
    | some fault => exact result_bind_error hr'
    | none => exact result_bind_ok hr'
  · cases stop with
    | some fault => exact (final_bind_error hr').trans hfinal'
    | none =>
        rw [final_bind_ok hr', hfinal']
        rfl

end Prints

namespace Session

variable {s : Session} {b : Builtin} {name : String} {args : List Expr}

theorem evaluate_echo_of_room (hfind : s.functions.find? name = some (.ofBuiltin b))
    (hb : b = .echo ∨ b = .log) (hargs : args ≠ []) (hroom : s.depth < s.maxDepth) :
    ∃ levels, (s.maxDepth - (s.depth + 1)).toNat ≤ levels ∧ evaluate (.call name args) s =
      Action.ensuring (Builtin.callEcho (evaluateWith levels) args) leave
        { s with depth := s.depth + 1 } := by
  obtain ⟨arg, rest, rfl⟩ := List.exists_cons_of_ne_nil hargs
  refine ⟨({ s with depth := s.depth + 1 } : Session).levels, Nat.le_add_right .., ?_⟩
  obtain rfl | rfl := hb
  · exact evaluate_builtin_of_room hfind hroom
  · exact evaluate_builtin_of_room hfind hroom

/-- A call of `echo` or `log` with arguments emits one text of its own or none. If it cannot begin,
because of the depth or because the scratch scope counts too much already, nothing happens.
Otherwise its arguments are printed from left to right, up to the first fault. What they emitted
themselves stays. If all of them are printed, the texts that were held are emitted behind that as
one; if not, the fault is raised. The scratch scope is as it was. -/
theorem evaluate_echo (hf : s.Follows .selfContained) (hsound : s.scratch.Sound)
    (hfind : s.functions.find? name = some (.ofBuiltin b)) (hb : b = .echo ∨ b = .log)
    (hargs : args ≠ []) :
    (s.maxDepth ≤ s.depth ∧
      evaluate (.call name args) s = .error (.eval (.recursionLimit s.maxDepth)) s) ∨
    (s.depth < s.maxDepth ∧ ¬ s.scratch.allows s.scratch.used = true ∧
      evaluate (.call name args) s = .error (s.scratch.exhausted s.scratch.used) s) ∨
    (s.depth < s.maxDepth ∧ s.scratch.allows s.scratch.used = true ∧
      let begun : Session :=
        { s with depth := s.depth + 1, scratch := s.scratch.collecting [] }
      (∃ stop texts t, Prints s.scratch args [] begun stop texts t) ∧
      ∀ stop texts t, Prints s.scratch args [] begun stop texts t →
        s.emitted <:+ t.emitted ∧
        match stop with
        | none => evaluate (.call name args) s = .ok (.expr .void)
            { t with
              depth := s.depth
              scratch := s.scratch
              emitted := String.join texts :: t.emitted }
        | some fault => evaluate (.call name args) s = .error fault
            { t with depth := s.depth, scratch := s.scratch }) := by
  obtain hfull | hdepth := le_or_gt s.maxDepth s.depth
  · exact .inl ⟨hfull, evaluate_of_no_room hfull⟩
  · obtain ⟨levels, hlevels, hcall⟩ := evaluate_echo_of_room hfind hb hargs hdepth
    by_cases hroom : s.scratch.allows s.scratch.used = true
    · refine .inr (.inr ⟨hdepth, hroom, Prints.exists_prints .., fun stop texts t h => ?_⟩)
      obtain ⟨hr, hfinal, hdepth', hemitted⟩ :=
        h.callEcho (s := { s with depth := s.depth + 1 }) hsound hf hroom hlevels
      have hback : t.depth - 1 = s.depth := by
        change t.depth = s.depth + 1 at hdepth'
        omega
      refine ⟨hemitted, ?_⟩
      rw [hcall]
      cases stop with
      | none =>
          refine ensuring_leave_ok.mpr ⟨_, eq_ok_iff.mpr ⟨hr, hfinal⟩, ?_⟩
          simp only [hback, Option.elim]
      | some fault =>
          refine ensuring_leave_error.mpr ⟨_, eq_error_iff.mpr ⟨hr, hfinal⟩, ?_⟩
          simp only [hback, Option.elim]
    · have hrefused : Builtin.withBuffer (Builtin.printInto (evaluateWith levels) args)
          { s with depth := s.depth + 1 } = _ := Builtin.withBuffer_of_no_room hroom
      refine .inr (.inl ⟨hdepth, hroom, hcall.trans ?_⟩)
      refine ensuring_leave_error.mpr ⟨_, bind_of_error hrefused, ?_⟩
      rw [Int.add_sub_cancel]

/-- A session whose scratch scope has room for three characters. -/
def roomForThree : Session := (fresh ⟨5, 200, some 3, none⟩).installBuiltins

/-- What an argument prints itself comes first, and stays when there is no room for a fourth
character. -/
theorem evaluate_echo_roomForThree :
    let seven : Expr := .call "if" [.call "eql" [.call "log" [.string "c"], .int 1], .int 1, .int 7]
    evaluate (.call "echo" [.string "ab", seven]) roomForThree =
        .ok (.expr .void) { roomForThree with emitted := ["ab7", "c"] } ∧
      evaluate (.call "echo" [.string "ab", seven, .string "d"]) roomForThree =
        .error (.scopeExhausted "scratch" 4 3) { roomForThree with emitted := ["c"] } := by
  intro seven
  have hf : roomForThree.Follows .selfContained := Follows.installBuiltins (.fresh _)
  let holding (texts : List String) (emitted : List String) : Session :=
    { roomForThree with
      depth := 1
      scratch := roomForThree.scratch.collecting texts.reverse
      emitted := emitted }
  have hfirst : evaluate (.string "ab") (holding [] []) =
      .ok (.expr (.string "ab")) (holding [] []) := by cbv
  have hsecond : evaluate seven (holding ["ab"] []) =
      .ok (.expr (.int 7)) (holding ["ab"] ["c"]) := by cbv
  have hthird : evaluate (.string "d") (holding ["ab", "7"] ["c"]) =
      .ok (.expr (.string "d")) (holding ["ab", "7"] ["c"]) := by cbv
  have hfind : roomForThree.functions.find? "echo" = some (.ofBuiltin .echo) := rfl
  have hcall (arg : Expr) (args : List Expr) :=
    evaluate_echo hf (Scope.sound_of_kept rfl) hfind (.inl rfl) (List.cons_ne_nil arg args)
  constructor
  · obtain ⟨hfull, -⟩ | ⟨-, hnone, -⟩ | ⟨-, -, -, hprints⟩ := hcall (.string "ab") [seven]
    · exact absurd hfull (by decide)
    · exact absurd rfl hnone
    · exact (hprints none ["ab", "7"] (holding ["ab", "7"] ["c"]) (.next hfirst rfl (by cbv)
        (.next hsecond (by cbv) (by cbv) (.done _ _)))).2
  · obtain ⟨hfull, -⟩ | ⟨-, hnone, -⟩ | ⟨-, -, -, hprints⟩ :=
      hcall (.string "ab") [seven, .string "d"]
    · exact absurd hfull (by decide)
    · exact absurd rfl hnone
    · exact (hprints _ _ _ (.next hfirst rfl (by cbv)
        (.next hsecond (by cbv) (by cbv) (.full hthird rfl (Bool.eq_false_iff.mp (by cbv)))))).2

end Session

end MacroScript
