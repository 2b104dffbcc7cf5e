import MacroScript.Evaluation.Basic
import MacroScript.Proofs.Table

/-!
# What host functions may do

Statements about evaluation are made for sessions whose host functions keep to
rules. The rules name the requests that a host may make and the ends that an
evaluation may have. They bind both sides: a host is only asked to comply as
long as the evaluations it requests end as the rules say, and in turn the call
of the host has to end that way, as its caller sees it. A host that passes on
whatever an evaluation gave it therefore follows all rules about ends.
-/
namespace MacroScript

/-- The ends that calls and evaluations may have, and the requests that a host may make. -/
structure HostRules where
  /-- There may be host functions at all. -/
  hosts : Prop
  value : HostValue → Prop
  fault : Fault → Prop
  /-- Evaluate at the top, and run texts. -/
  atTop : Prop
  resets : Prop
  closes : Prop
  /-- Bind names that are free, and set any. -/
  binds : Prop
  unbinds : Prop

/-- A fault that the rules allow, or a value of the given kind. -/
def HostRules.Answers {α : Type} (rules : HostRules) (kind : α → Prop) : Except Fault α → Prop
  | .ok a => kind a
  | .error fault => rules.fault fault

/-- The result of a run whose evaluations follow the rules. -/
def HostRules.RunValue (rules : HostRules) (value : HostValue) : Prop :=
  ∃ values, (∀ v ∈ values, rules.value v) ∧ value = Evaluator.combined values

/-- A host program that makes no request against the rules and ends as demanded, as long as its
requests are answered by the rules. -/
def HostProgram.Obeys (rules : HostRules) (ends : Except Fault HostValue → Prop) :
    HostProgram → Prop
  | .done result => ends (.ok result)
  | .fail fault => ends (.error fault)
  | .evaluate _ next =>
      ∀ answer, rules.Answers rules.value answer → (next answer).Obeys rules ends
  | .evaluateTop _ next =>
      rules.atTop ∧ ∀ answer, rules.Answers rules.value answer → (next answer).Obeys rules ends
  | .run _ _ next =>
      rules.atTop ∧ ∀ answer, rules.Answers rules.RunValue answer → (next answer).Obeys rules ends
  | .execute _ _ next =>
      rules.atTop ∧
        ∀ answer, rules.Answers (fun _ => True) answer → (next answer).Obeys rules ends
  | .resetScratch next => rules.resets ∧ next.Obeys rules ends
  | .close next => rules.closes ∧ next.Obeys rules ends
  | .observe next => ∀ view, (next view).Obeys rules ends
  | .setVar _ _ next => rules.binds ∧ next.Obeys rules ends
  | .bindVar name _ next =>
      rules.binds ∧ (next (.ok ())).Obeys rules ends ∧
        (next (.error (.eval (.shadowing name)))).Obeys rules ends
  | .unbindVar name next =>
      rules.unbinds ∧ (next (.ok ())).Obeys rules ends ∧
        (next (.error (.foreign (.bindingVanished name)))).Obeys rules ends

namespace Function

/-- The end of a call as the caller sees it. -/
def seen (fn : Function) : Except Fault HostValue → Except Fault HostValue
  | .ok value => if fn.isHost then guardedResult fn.name value else .ok value
  | .error fault => .error (if fn.isHost then guardedFault fn.name fault else fault)

/-- A function of the host follows the rules if it does so on every call; the others do. -/
def Follows (rules : HostRules) (fn : Function) : Prop :=
  match fn.body with
  | .hosted _ host =>
      rules.hosts ∧ ∀ number args,
        (host number args).Obeys rules fun e => rules.Answers rules.value (fn.seen e)
  | _ => True

/-- The function runs programs of the host. -/
def IsHosted (fn : Function) : Prop := ∃ registration host, fn.body = .hosted registration host

theorem Follows.hosts {rules : HostRules} {fn : Function} (h : fn.Follows rules)
    (hosted : fn.IsHosted) : rules.hosts := by
  obtain ⟨registration, host, hbody⟩ := hosted
  unfold Follows at h
  rw [hbody] at h
  exact h.1

theorem Follows.obeys {rules : HostRules} {fn : Function} {registration : Nat} {host : HostFunction}
    (h : fn.Follows rules) (hbody : fn.body = .hosted registration host) (number : Nat)
    (args : List Expr) :
    (host number args).Obeys rules fun e => rules.Answers rules.value (fn.seen e) := by
  unfold Follows at h
  rw [hbody] at h
  exact h.2 number args

theorem follows_ofBuiltin (rules : HostRules) (b : Builtin) : (ofBuiltin b).Follows rules := trivial

end Function

/-- Every function of the session follows the rules. -/
def Session.Follows (rules : HostRules) (session : Session) : Prop :=
  ∀ name fn, session.functions.find? name = some fn → fn.Follows rules

/-- The plain values that variables are bound to are among the given ones. -/
def Session.BindsPlain (plain : HostValue → Prop) (s : Session) : Prop :=
  ∀ name v, s.vars.find? name = some v → v.asExpr? = none → plain v

theorem Session.BindsPlain.insert {plain : HostValue → Prop} {s : Session} (h : s.BindsPlain plain)
    (name : String) (e : Expr) :
    Session.BindsPlain plain { s with vars := s.vars.insert name (.expr e) } := by
  intro other v hfind hv
  obtain ⟨-, rfl⟩ | hfind := Table.of_find?_insert hfind
  · cases hv
  · exact h other v hfind hv

theorem Session.BindsPlain.erase {plain : HostValue → Prop} {s : Session} (h : s.BindsPlain plain)
    (name : String) : Session.BindsPlain plain { s with vars := s.vars.erase name } :=
  fun other v hfind => h other v (Table.of_find?_erase hfind)

theorem Session.BindsPlain.eraseAll {plain : HostValue → Prop} {s : Session}
    (h : s.BindsPlain plain) (names : List String) :
    Session.BindsPlain plain { s with vars := s.vars.eraseAll names } := by
  induction names generalizing s with
  | nil => exact h
  | cons name names ih => exact ih (h.erase name)

/-- A fresh session with the builtins and one function of the host. -/
def Session.withHost (settings : Settings) (name : String) (host : HostFunction) : Session :=
  ((fresh settings).installBuiltins.registerHost name true host).2

theorem Session.calls_installBuiltins (s : Session) : s.installBuiltins.calls = s.calls := by
  unfold installBuiltins
  induction Builtin.all generalizing s with
  | nil => rfl
  | cons b builtins ih => exact ih (s.install b.name (.ofBuiltin b))

namespace Session.Follows

variable {rules : HostRules} {s : Session}

theorem fresh (settings : Settings) : (Session.fresh settings).Follows rules := nofun

theorem of_not_hosts (h : s.Follows rules) (hhosts : ¬ rules.hosts) (other : HostRules) :
    s.Follows other := by
  intro name fn hfind
  have hfn := h name fn hfind
  unfold Function.Follows at hfn ⊢
  cases hbody : fn.body with
  | hosted registration host =>
      rw [hbody] at hfn
      exact absurd hfn.1 hhosts
  | _ => trivial

theorem install {name : String} {fn : Function} (h : s.Follows rules) (hfn : fn.Follows rules) :
    (s.install name fn).Follows rules := by
  intro other found hfound
  obtain ⟨-, rfl⟩ | hfound := Table.of_find?_insert hfound
  · exact hfn
  · exact h other found hfound

theorem installBuiltins (h : s.Follows rules) : s.installBuiltins.Follows rules := by
  unfold Session.installBuiltins
  induction Builtin.all generalizing s with
  | nil => exact h
  | cons b builtins ih => exact ih (h.install (Function.follows_ofBuiltin rules b))

theorem withHost {settings : Settings} {name : String} {host : HostFunction}
    (h : (⟨name, true, .hosted 0 host⟩ : Function).Follows rules) :
    (Session.withHost settings name host).Follows rules := by
  have hinstall := @install rules _ name _ (fresh settings).installBuiltins h
  unfold Session.withHost registerHost
  rw [calls_installBuiltins]
  exact fun other => hinstall other

end Session.Follows

end MacroScript
