import Mathlib
import MacroScript.Proofs.Evaluation.Definitions
import MacroScript.Proofs.Session.Idle

/-!
# What the arena keeps

The arena scope keeps the functions that definitions make, and nothing else. It
has counted the sizes of all that it keeps, so a function that is replaced in the
table stays on the account until the session is closed. The tables are filled by
different steps: a function is kept before it is installed, a host may install
functions that are not kept, and a session may be closed by a host in the midst
of an evaluation. What all of them preserve is that the defined functions in the
table are among those that are kept.
-/
namespace MacroScript

open MacroScript.Action

namespace Scope

/-- The scope keeps defined functions, has counted the size of each of them, and stays within its
limit. A limit below zero leaves no more room than zero does. -/
structure KeepsDefined (scope : Scope) : Prop where
  counted : ∃ fns : List DefinedFn,
    scope.kept = fns.map .defined ∧ scope.used = (fns.map DefinedFn.size).sum
  within : ∀ limit, scope.limit = some limit → scope.used ≤ max limit 0

namespace KeepsDefined

variable {scope : Scope}

theorem fresh (name : String) (limit : Option Int) : (Scope.fresh name limit).KeepsDefined where
  counted := ⟨[], rfl, rfl⟩
  within limit _ := Int.le_max_right limit 0

theorem reset (scope : Scope) : scope.reset.KeepsDefined where
  counted := ⟨[], rfl, rfl⟩
  within limit _ := Int.le_max_right limit 0

theorem keep (h : scope.KeepsDefined) {fn : DefinedFn} (hroom : scope.allows (scope.used + fn.size)) :
    KeepsDefined { scope with
      used := scope.used + fn.size
      kept := scope.kept ++ [.defined fn] } where
  counted := by
    obtain ⟨fns, hkept, hused⟩ := h.counted
    refine ⟨fns ++ [fn], ?_, ?_⟩
    · simp only [hkept, List.map_append, List.map_cons, List.map_nil]
    · simp only [hused, List.map_append, List.map_cons, List.map_nil, List.sum_append_nat,
        List.sum_singleton, Nat.cast_add]
  within limit hlimit := by
    unfold allows at hroom
    rw [hlimit] at hroom
    have hle : scope.used + fn.size ≤ limit := of_decide_eq_true hroom
    dsimp only
    omega

end KeepsDefined

end Scope

namespace Session

/-- The arena keeps defined functions, and all that can be called are among them. -/
structure ArenaBacks (s : Session) : Prop where
  arena : s.arena.KeepsDefined
  installed : ∀ name fn d, s.functions.find? name = some fn → fn.body = .defined d →
    .defined d ∈ s.arena.kept

namespace ArenaBacks

variable {s : Session} {d : DefinedFn}

theorem fresh (settings : Settings) : (fresh settings).ArenaBacks :=
  ⟨.fresh "arena" settings.arenaLimit, nofun⟩

theorem closed (s : Session) : s.closed.ArenaBacks :=
  ⟨.reset s.arena, nofun⟩

theorem defining (h : s.ArenaBacks) (hroom : s.arena.allows (s.arena.used + d.size)) :
    (s.defining d).ArenaBacks where
  arena := h.arena.keep hroom
  installed name fn d' hfind hbody := by
    apply List.mem_append.mpr
    obtain ⟨-, rfl⟩ | hfind := of_findFunction_defining hfind
    · cases hbody
      exact .inr (List.mem_singleton.mpr rfl)
    · exact .inl (h.installed name fn d' hfind hbody)

theorem install {name : String} {fn : Function} (h : s.ArenaBacks)
    (hfn : ∀ d, fn.body ≠ .defined d) : (s.install name fn).ArenaBacks where
  arena := h.arena
  installed other found d hfind hbody := by
    obtain ⟨-, rfl⟩ | hfind := Table.of_find?_insert hfind
    · exact absurd hbody (hfn d)
    · exact h.installed other found d hfind hbody

theorem installBuiltins (h : s.ArenaBacks) : s.installBuiltins.ArenaBacks := by
  unfold Session.installBuiltins
  induction Builtin.all generalizing s with
  | nil => exact h
  | cons b builtins ih => exact ih (h.install nofun)

end ArenaBacks

end Session

/-- Nothing that a host program can do is against rules that leave everything free. -/
theorem HostProgram.obeys_free (p : HostProgram) {ends : Except Fault HostValue → Prop}
    (h : ∀ e, ends e) : p.Obeys (.free True) ends := by
  induction p with
  | done result => exact h _
  | fail fault => exact h _
  | evaluate e next ih => exact fun answer _ => ih answer
  | evaluateTop e next ih => exact ⟨trivial, fun answer _ => ih answer⟩
  | run text sourceName next ih => exact ⟨trivial, fun answer _ => ih answer⟩
  | execute text sourceName next ih => exact ⟨trivial, fun answer _ => ih answer⟩
  | resetScratch next ih => exact ⟨trivial, ih⟩
  | close next ih => exact ⟨trivial, ih⟩
  | observe next ih => exact fun view => ih view
  | setVar name value next ih => exact ⟨trivial, ih⟩
  | bindVar name value next ih => exact ⟨trivial, ih _, ih _⟩
  | unbindVar name next ih => exact ⟨trivial, ih _, ih _⟩

theorem Session.Use.follows_free (use : Use) : use.Follows (.free True) := by
  cases use with
  | register name isHost fn =>
      refine ⟨trivial, fun number args => (fn number args).obeys_free fun e => ?_⟩
      cases Function.seen ⟨name, isHost, .hosted 0 fn⟩ e <;> trivial
  | _ => trivial

namespace Discipline

open Session

/-- The arena backs the defined functions and loses none of them, unless hosts may close the
session. -/
def arenaBacking (closes : Prop) : Discipline where
  holds s := s.Follows (.free closes) ∧ s.ArenaBacks
  allows s t := t.arena.limit = s.arena.limit ∧ (closes ∨ s.arena.kept <+: t.arena.kept)
  refl s := ⟨rfl, .inr (List.prefix_refl _)⟩
  trans := by
    rintro s t u ⟨hlimit, hkept⟩ ⟨hlimit', hkept'⟩
    refine ⟨hlimit'.trans hlimit, ?_⟩
    rcases hkept with hcloses | hkept
    · exact .inl hcloses
    · exact hkept'.imp_right hkept.trans

variable {closes : Prop}

theorem arenaBacking_ignoresScratch : (arenaBacking closes).IgnoresScratch :=
  ⟨fun _ _ h => ⟨h.1, h.2.arena, h.2.installed⟩, fun s _ => (arenaBacking closes).refl s⟩

theorem arenaBacking_ignoresDepth : (arenaBacking closes).IgnoresDepth :=
  ⟨fun _ _ h => ⟨h.1, h.2.arena, h.2.installed⟩, fun s _ => (arenaBacking closes).refl s⟩

theorem arenaBacking_withVars {s : Session} (vars : Table HostValue)
    (hs : (arenaBacking closes).holds s) :
    (arenaBacking closes).holds { s with vars := vars } ∧
      (arenaBacking closes).allows s { s with vars := vars } :=
  ⟨⟨hs.1, hs.2.arena, hs.2.installed⟩, (arenaBacking closes).refl s⟩

theorem arenaBacking_bindVar (name : String) (e : Expr) :
    (arenaBacking closes).Permits (bindVar name (.expr e)) := by
  refine .of_final fun s hs => ?_
  unfold Action.final
  rw [bindVar_eq]
  split_ifs
  · exact ⟨hs, (arenaBacking closes).refl s⟩
  · exact arenaBacking_withVars _ hs

theorem arenaBacking_unbindVar (name : String) :
    (arenaBacking closes).Permits (unbindVar name) := by
  refine .of_final fun s hs => ?_
  unfold Action.final
  rw [unbindVar_eq]
  split_ifs
  · exact arenaBacking_withVars _ hs
  · exact ⟨hs, (arenaBacking closes).refl s⟩

/-- The function is kept and installed in one go, so nothing can come between. -/
theorem arenaBacking_define (target params body : Expr) :
    (arenaBacking closes).Keeps (.free closes) (fun _ => True)
      (Builtin.callDefine target params body) := by
  intro s hs
  have hunchanged : ∀ fault, Builtin.callDefine target params body s = .error fault s →
      (arenaBacking closes).holds ((Builtin.callDefine target params body).final s) ∧
        (arenaBacking closes).allows s ((Builtin.callDefine target params body).final s) ∧
          (HostRules.free closes).Answers (fun _ => True)
            ((Builtin.callDefine target params body).result s) := by
    intro fault hcall
    obtain ⟨hr, hf⟩ := eq_error_iff.mp hcall
    rw [hr, hf]
    exact ⟨hs, (arenaBacking closes).refl s, trivial⟩
  cases hmade : Builtin.definition target params body with
  | error fault => exact hunchanged fault (callDefine_error hmade)
  | ok d =>
      have hcall := @callDefine_eq s _ _ _ _ hmade
      split_ifs at hcall with hroom
      · obtain ⟨hr, hf⟩ := eq_ok_iff.mp hcall
        rw [hr, hf]
        exact ⟨⟨hs.1.install trivial, hs.2.defining hroom⟩,
          ⟨rfl, .inr (List.prefix_append _ _)⟩, trivial⟩
      · exact hunchanged _ hcall

theorem arenaBacking_lawful :
    (arenaBacking closes).Lawful (.free closes) fun _ => arenaBacking closes where
  literal _ _ := trivial
  ownError _ _ := trivial
  malformed _ _ := trivial
  accessor _ _ _ _ := trivial
  notBindable _ _ _ _ := trivial
  guarded _ _ _ := trivial
  bound _ _ _ _ _ _ := trivial
  follows _ hs := hs.1
  nested _ := arenaBacking_ignoresDepth.nested fun _ => trivial
  setVar _ _ _ := .of_final fun _ hs => arenaBacking_withVars _ hs
  define := arenaBacking_define
  emit _ := .of_final fun s hs =>
    ⟨⟨hs.1, hs.2.arena, hs.2.installed⟩, (arenaBacking closes).refl s⟩
  countCall _ := .of_final fun s hs =>
    ⟨⟨hs.1, hs.2.arena, hs.2.installed⟩, (arenaBacking closes).refl s⟩
  callDefined _ hev fn args := callDefined_keeps (fun _ _ => trivial) (fun _ => trivial)
    arenaBacking_bindVar arenaBacking_unbindVar hev fn args
  withBuffer _ _ := arenaBacking_ignoresScratch.withBuffer
    (HostRules.free_lenient closes).allowsScopeFaults
  evaluatesInside _ hev _ := hev
  write id text := arenaBacking_ignoresScratch.onScratch fun scope =>
    (HostRules.free_lenient closes).allowsScopeFaults.answers_write scope id text
  contents id := arenaBacking_ignoresScratch.onScratch fun scope =>
    (HostRules.free_lenient closes).allowsScopeFaults.answers_contents scope id
  top _ _ := arenaBacking_ignoresScratch.atTop
  resetScratch _ := arenaBacking_ignoresScratch.resetScratch
  close hcloses := .of_final fun _ _ =>
    ⟨⟨nofun, ArenaBacks.closed _⟩, Scope.limit_reset _, .inl hcloses⟩
  bindVar _ := arenaBacking_bindVar
  unbindVar _ := arenaBacking_unbindVar

theorem arenaBacking_evaluateTop (e : Expr) :
    (arenaBacking closes).Keeps (.free closes) (fun _ => True)
      (Evaluator.evaluateTop evaluate e) :=
  arenaBacking_ignoresScratch.atTop (arenaBacking_lawful.evaluate e)

end Discipline

namespace Session

variable {closes : Prop} {s : Session}

theorem arena_installBuiltins (s : Session) : s.installBuiltins.arena = s.arena := by
  unfold installBuiltins
  induction Builtin.all generalizing s with
  | nil => rfl
  | cons b builtins ih => exact ih (s.install b.name (.ofBuiltin b))

/-- One use of the session. Only closing it loses what is kept. -/
theorem Use.final_arenaBacking {use : Use} (huse : use.Follows (.free closes))
    (hs : (Discipline.arenaBacking closes).holds s) :
    (Discipline.arenaBacking closes).holds (use.final s) ∧
      (use.final s).arena.limit = s.arena.limit ∧
      (closes ∨ use = .close ∨ s.arena.kept <+: (use.final s).arena.kept) := by
  have hsame : ∀ t : Session, t.arena = s.arena → t.arena.limit = s.arena.limit ∧
      (closes ∨ use = .close ∨ s.arena.kept <+: t.arena.kept) := by
    intro t ht
    rw [ht]
    exact ⟨rfl, .inr (.inr (List.prefix_refl _))⟩
  have hallowed : ∀ t : Session, (Discipline.arenaBacking closes).allows s t →
      t.arena.limit = s.arena.limit ∧ (closes ∨ use = .close ∨ s.arena.kept <+: t.arena.kept) :=
    fun t ht => ⟨ht.1, ht.2.imp_right .inr⟩
  cases use with
  | installBuiltins =>
      exact ⟨⟨hs.1.installBuiltins, hs.2.installBuiltins⟩, hsame _ (arena_installBuiltins s)⟩
  | register name isHost fn =>
      have hinstalled : (s.install name ⟨name, isHost, .hosted s.calls.length fn⟩).ArenaBacks :=
        hs.2.install nofun
      exact ⟨⟨hs.1.install huse, hinstalled.arena, hinstalled.installed⟩, hsame _ rfl⟩
  | setVar name value =>
      obtain ⟨vars, hfinal⟩ := final_setHostVar s name value
      have hfinal' : (Use.setVar name value).final s = { s with vars := vars } := hfinal
      rw [hfinal']
      exact ⟨(Discipline.arenaBacking_withVars vars hs).1, hsame _ rfl⟩
  | evaluate e =>
      obtain ⟨hholds, hallows, -⟩ := Discipline.arenaBacking_evaluateTop e s hs
      exact ⟨hholds, hallowed _ hallows⟩
  | run text sourceName =>
      obtain ⟨hholds, hallows, -⟩ := Discipline.run_keeps Discipline.arenaBacking_evaluateTop
        (fun _ => trivial) text sourceName s hs
      exact ⟨hholds, hallowed _ hallows⟩
  | execute text sourceName =>
      obtain ⟨hholds, hallows, -⟩ := Discipline.execute_ends Discipline.arenaBacking_evaluateTop
        (fun _ => trivial) text sourceName s hs
      exact ⟨hholds, hallowed _ hallows⟩
  | resetScratch => exact ⟨⟨hs.1, hs.2.arena, hs.2.installed⟩, hsame _ rfl⟩
  | close => exact ⟨⟨nofun, ArenaBacks.closed _⟩, s.arena.limit_reset, .inr (.inl rfl)⟩

theorem after_arenaBacking {uses : List Use} (huses : ∀ use ∈ uses, use.Follows (.free closes))
    (hs : (Discipline.arenaBacking closes).holds s) :
    (Discipline.arenaBacking closes).holds (s.after uses) ∧
      (s.after uses).arena.limit = s.arena.limit ∧
      (closes ∨ .close ∈ uses ∨ s.arena.kept <+: (s.after uses).arena.kept) := by
  induction uses generalizing s with
  | nil => exact ⟨hs, rfl, .inr (.inr (List.prefix_refl _))⟩
  | cons use uses ih =>
      rw [List.forall_mem_cons] at huses
      obtain ⟨hholds, hlimit, hkept⟩ := Use.final_arenaBacking huses.1 hs
      obtain ⟨hholds', hlimit', hkept'⟩ := ih huses.2 hholds
      refine ⟨hholds', hlimit'.trans hlimit, ?_⟩
      rcases hkept with hcloses | rfl | hkept
      · exact .inl hcloses
      · exact .inr (.inl List.mem_cons_self)
      · exact hkept'.imp_right (Or.imp (List.mem_cons_of_mem use) hkept.trans)

/-- The builtin for definitions makes the function that its arguments spell, or changes nothing. -/
theorem callBuiltin_define (ev : Evaluator) (args : List Expr) (s : Session) :
    (∃ d : DefinedFn, args = [.var d.name, .call "args" (d.formals.map .var), d.body] ∧
      Builtin.call ev .define args s = .ok (.expr .void) (s.defining d)) ∨
    ∃ fault, Builtin.call ev .define args s = .error fault s := by
  rcases args with _ | ⟨target, _ | ⟨params, _ | ⟨body, _ | ⟨arg, args⟩⟩⟩⟩
  · exact .inr ⟨_, rfl⟩
  · exact .inr ⟨_, rfl⟩
  · exact .inr ⟨_, rfl⟩
  · change (∃ d : DefinedFn, _ ∧ Builtin.callDefine target params body s = _) ∨
      ∃ fault, Builtin.callDefine target params body s = _
    cases hmade : Builtin.definition target params body with
    | error fault => exact .inr ⟨fault, callDefine_error hmade⟩
    | ok d =>
        rw [callDefine_eq hmade]
        split_ifs
        · obtain ⟨rfl, rfl, -, rfl⟩ := Builtin.definition_eq_ok_iff.mp hmade
          exact .inl ⟨d, rfl, rfl⟩
        · exact .inr ⟨_, rfl⟩
  · exact .inr ⟨_, rfl⟩

theorem evaluateWith_define {name : String}
    (hfind : s.functions.find? name = some (.ofBuiltin .define)) (levels : Nat)
    (args : List Expr) :
    (∃ d : DefinedFn, args = [.var d.name, .call "args" (d.formals.map .var), d.body] ∧
      evaluateWith levels (.call name args) s = .ok (.expr .void) (s.defining d)) ∨
    ∃ fault, evaluateWith levels (.call name args) s = .error fault s := by
  cases levels with
  | zero => exact .inr ⟨_, rfl⟩
  | succ levels =>
      rw [evaluateWith]
      by_cases hroom : s.depth < s.maxDepth
      · obtain ⟨hr, hf⟩ := eq_ok_iff.mp (enter_of_room hroom)
        have hstep := evaluateStep_call (s := { s with depth := s.depth + 1 }) hfind
          (evaluateWith levels) args
        rw [bind_ok hr, hf]
        obtain ⟨d, hargs, hcall⟩ | ⟨fault, hcall⟩ :=
          callBuiltin_define (evaluateWith levels) args { s with depth := s.depth + 1 }
        · refine .inl ⟨d, hargs, ensuring_leave_ok.mpr ⟨_, hstep.trans hcall, ?_⟩⟩
          simp [defining]
        · refine .inr ⟨fault, ensuring_leave_error.mpr ⟨_, hstep.trans hcall, ?_⟩⟩
          simp
      · obtain ⟨hr, hf⟩ := eq_error_iff.mp (enter_of_no_room (Int.not_lt.mp hroom))
        rw [bind_error hr, hf]
        exact .inr ⟨_, rfl⟩

/-- The arena backs exactly the functions that definitions make. Whatever is done with a session
that was fresh once, and whatever its host functions do, the defined functions that can be called
are kept in the arena, which has counted the size of each function it keeps and has not gone past
its limit, in particular past one that its surroundings have set. It loses none of them before the
session is closed. A call of the builtin for definitions that fails, at any depth, leaves the
session as it was. -/
theorem arena_backs_definitions :
    (∀ (settings : Settings) (uses : List Use), ((fresh settings).after uses).ArenaBacks ∧
      ((fresh settings).after uses).arena.limit = settings.arenaLimit) ∧
    (∀ (texts : SettingTexts) (uses : List Use) (limit : Int),
      ((fresh (.ofTexts texts)).after uses).arena.limit = some limit →
        ((fresh (.ofTexts texts)).after uses).arena.used ≤ limit) ∧
    (∀ (settings : Settings) (uses more : List Use),
      (∀ use ∈ uses ++ more, use.Follows (.free False)) → .close ∉ more →
        ((fresh settings).after uses).arena.kept <+:
          (((fresh settings).after uses).after more).arena.kept) ∧
    ∀ (s t : Session) (levels : Nat) (name : String) (args : List Expr) (fault : Fault),
      s.functions.find? name = some (.ofBuiltin .define) →
        evaluateWith levels (.call name args) s = .error fault t → t = s := by
  have hbacks (settings : Settings) (uses : List Use) : ((fresh settings).after uses).ArenaBacks ∧
      ((fresh settings).after uses).arena.limit = settings.arenaLimit := by
    have hfollows : ∀ use ∈ uses, use.Follows (.free True) := fun use _ => use.follows_free
    obtain ⟨hholds, hlimit, -⟩ := after_arenaBacking hfollows ⟨.fresh settings, .fresh settings⟩
    exact ⟨hholds.2, hlimit⟩
  refine ⟨hbacks, fun texts uses limit hlimit => ?_,
    fun settings uses more huses hclose => ?_, ?_⟩
  · obtain ⟨hholds, hset⟩ := hbacks (.ofTexts texts) uses
    have hpos : 0 < limit := Settings.limit_pos (by decide) texts _ (hset.symm.trans hlimit)
    have hwithin := hholds.arena.within limit hlimit
    rwa [max_eq_left hpos.le] at hwithin
  · rw [List.forall_mem_append] at huses
    obtain ⟨hholds, -, -⟩ := after_arenaBacking huses.1 ⟨.fresh settings, .fresh settings⟩
    obtain ⟨-, -, hkept⟩ := after_arenaBacking huses.2 hholds
    exact (hkept.resolve_left not_false).resolve_left hclose
  · intro s t levels name args fault hfind herror
    obtain ⟨d, -, hok⟩ | ⟨fault', herror'⟩ := evaluateWith_define hfind levels args
    · rw [hok] at herror
      cases herror
    · rw [herror'] at herror
      cases herror
      rfl

/-- A function without parameters is defined. -/
def Use.definingOnce : List Use := [.installBuiltins, .run "define(f, args(), 1)" none]

/-- A second definition of the function, which has a parameter. -/
def redefinition : Expr := .call "define" [.var "f", .call "args" [.var "x"], .int 2]

/-- The arena has no room for the second definition. The function of the first one stays. -/
theorem arena_backs_definitions_refused :
    let s := (fresh ⟨150, 200, none, some 2⟩).after Use.definingOnce
    .defined ⟨"f", [], .int 1⟩ ∈ s.arena.kept ∧
      s.arena.kept <+: (s.after [.evaluate redefinition]).arena.kept ∧
      evaluateWith 5 redefinition s = .error (.scopeExhausted "arena" 3 2) s := by
  obtain ⟨hbacks, -, hkeeps, hfails⟩ := arena_backs_definitions
  have hresult : (evaluateWith 5 redefinition).result
      ((fresh ⟨150, 200, none, some 2⟩).after Use.definingOnce) =
        .error (.scopeExhausted "arena" 3 2) := by
    cbv
  refine ⟨?_, ?_, ?_⟩
  · refine (hbacks _ Use.definingOnce).1.installed "f" (.ofDefined ⟨"f", [], .int 1⟩) _ ?_ rfl
    cbv
  · apply hkeeps
    · simp [Use.definingOnce, Use.Follows]
    · simp
  · have hfinal := hfails _ _ 5 "define" _ _ (by cbv) (eq_error_iff.mpr ⟨hresult, rfl⟩)
    exact eq_error_iff.mpr ⟨hresult, hfinal⟩

end Session

end MacroScript
