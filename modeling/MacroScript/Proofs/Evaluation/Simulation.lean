import MacroScript.Proofs.Action.Row
import MacroScript.Proofs.Evaluation.Bindings
import MacroScript.Proofs.Evaluation.Values

/-!
# Simulations

Two programs without functions of the host run side by side, from states that
correspond. Which states and trees correspond is left open here, and so is
whether faults do: a simulation may be told to follow the first run only as long
as it does not fail. The two runs come to the same values.

A tree need not correspond to a tree of the same shape. What is shown for one
step is shown for trees with the same head; where the heads differ, the step has
to be gone through by whoever says that such trees correspond.
-/
namespace MacroScript

open MacroScript.Action Session

/-- What corresponds in two runs. -/
structure Simulation where
  states : Session → Session → Prop
  trees : Expr → Expr → Prop
  /-- The names that are bound and removed in both runs alike. -/
  names : String → Prop
  /-- Names that are bound throughout, so that no call binds them as parameters or removes them. -/
  kept : String → Prop := fun _ => False
  /-- The buffers that are looked at in both runs alike. -/
  buffers : BufferId → Prop := fun _ => True
  /-- The argument lists of two calls of a builtin. -/
  fits : Builtin → List Expr → List Expr → Prop
  faults : Fault → Fault → Prop
  /-- The first run is not followed once it has failed. -/
  cut : Prop

namespace Simulation

variable {S : Simulation} {α β : Type} {kind : α → Prop} {kind' : β → Prop} {s s' : Session}

/-- The same value of a kind, or faults that correspond. -/
inductive Ends (S : Simulation) (kind : α → Prop) : Except Fault α → Except Fault α → Prop
  | ok {v : α} : kind v → Ends S kind (.ok v) (.ok v)
  | error {fault fault' : Fault} : S.faults fault fault' → Ends S kind (.error fault) (.error fault')

/-- The two end alike in states that correspond, or the first is not followed. -/
def Meets (S : Simulation) (kind : α → Prop) (a b : Action Session α) (s s' : Session) : Prop :=
  (S.cut ∧ ∃ fault, a.result s = .error fault) ∨
    S.Ends kind (a.result s) (b.result s') ∧ S.states (a.final s) (b.final s')

/-- Actions that meet from all states that correspond. -/
def relation (S : Simulation) : ActionRelation where
  Relates kind a b := ∀ s s', S.states s s' → S.Meets kind a b s s'

/-- What corresponds in the same way, between states that are told otherwise. -/
def between (S : Simulation) (states : Session → Session → Prop) : Simulation :=
  { S with states := states }

/-- What two variables that correspond are bound to. -/
def Bound (S : Simulation) : HostValue → HostValue → Prop
  | .expr e, .expr e' => S.trees e e'
  | v, v' => v' = v

inductive Heads (S : Simulation) : Expr → Expr → Prop
  | literal (e : Expr) : e.isLiteral = true → Heads S e e
  | var (name : String) : Heads S (.var name) (.var name)
  | call (name : String) {args args' : List Expr} : List.Forall₂ S.trees args args' →
      Heads S (.call name args) (.call name args')

/-- Defined functions that bind the same parameters and have bodies that correspond. -/
structure Definitions (S : Simulation) (d d' : DefinedFn) : Prop where
  name : d'.name = d.name
  formals : d'.formals = d.formals
  names : ∀ name ∈ d.formals, S.names name
  body : S.trees d.body d'.body

/-- Functions that correspond as far as two calls of them go. -/
def Callables (S : Simulation) (s : Session) (args args' : List Expr) :
    FunctionBody → FunctionBody → Prop
  | .builtin b, .builtin b' => b' = b ∧ S.fits b args args'
  | .defined d, .defined d' => S.Definitions d d' ∨
      S.cut ∧ ∀ ev : Evaluator, ∃ fault, (d.call ev args).result s = .error fault
  | _, _ => False

theorem Ends.eq {end_ end' : Except Fault α} (h : S.Ends kind end_ end')
    (hfaults : ∀ {fault fault'}, S.faults fault fault' → fault' = fault) : end' = end_ := by
  cases h with
  | ok _ => rfl
  | error hf => rw [hfaults hf]

section Combinators

variable {a b : Action Session α} {f g : α → Action Session β}
  {cleanup cleanup' : Action Session Unit}

theorem Meets.bind (h : S.Meets kind a b s s')
    (hnext : ∀ v, kind v → a.result s = .ok v → S.states (a.final s) (b.final s') →
      S.Meets kind' (f v) (g v) (a.final s) (b.final s')) :
    S.Meets kind' (a >>= f) (b >>= g) s s' := by
  obtain ⟨hcut, fault, hr⟩ | ⟨hends, hstates⟩ := h
  · exact .inl ⟨hcut, fault, result_bind_error hr⟩
  · generalize hr : a.result s = r at hends
    generalize hr' : b.result s' = r' at hends
    unfold Meets
    cases hends with
    | ok hv =>
        rw [result_bind_ok hr, final_bind_ok hr, result_bind_ok hr', final_bind_ok hr']
        exact hnext _ hv hr hstates
    | error hfaults =>
        rw [result_bind_error hr, final_bind_error hr, result_bind_error hr', final_bind_error hr']
        exact .inr ⟨.error hfaults, hstates⟩

theorem Meets.ensuring (h : S.Meets kind a b s s')
    (hcleanup : S.relation.Relates (fun _ => True) cleanup cleanup') :
    S.Meets kind (a.ensuring cleanup) (b.ensuring cleanup') s s' := by
  obtain ⟨hcut, fault, hr⟩ | ⟨hends, hstates⟩ := h
  · refine .inl ⟨hcut, ?_⟩
    cases hc : cleanup.result (a.final s) with
    | ok _ => exact ⟨fault, (result_ensuring_ok hc).trans hr⟩
    | error later => exact ⟨later, result_ensuring_error hc⟩
  · unfold Meets
    obtain ⟨hcut, later, hc⟩ | ⟨hends', hstates'⟩ := hcleanup _ _ hstates
    · exact .inl ⟨hcut, later, result_ensuring_error hc⟩
    · rw [final_ensuring, final_ensuring]
      generalize hc : cleanup.result (a.final s) = r at hends'
      generalize hc' : cleanup'.result (b.final s') = r' at hends'
      cases hends' with
      | ok _ =>
          rw [result_ensuring_ok hc, result_ensuring_ok hc']
          exact .inr ⟨hends, hstates'⟩
      | error hfaults =>
          rw [result_ensuring_error hc, result_ensuring_error hc']
          exact .inr ⟨.error hfaults, hstates'⟩

theorem Meets.of_ok {v : α} {t t' : Session} (hv : kind v) (h : S.states t t')
    (ha : a s = .ok v t) (hb : b s' = .ok v t') : S.Meets kind a b s s' := by
  obtain ⟨hr, hf⟩ := eq_ok_iff.mp ha
  obtain ⟨hr', hf'⟩ := eq_ok_iff.mp hb
  unfold Meets
  rw [hr, hf, hr', hf']
  exact .inr ⟨.ok hv, h⟩

theorem Meets.of_error {fault : Fault} {t t' : Session}
    (hsame : S.cut ∨ ∀ fault, S.faults fault fault) (h : S.states t t')
    (ha : a s = .error fault t) (hb : b s' = .error fault t') : S.Meets kind a b s s' := by
  obtain ⟨hr, hf⟩ := eq_error_iff.mp ha
  obtain ⟨hr', hf'⟩ := eq_error_iff.mp hb
  unfold Meets
  rw [hr, hf, hr', hf']
  obtain hcut | hfaults := hsame
  · exact .inl ⟨hcut, fault, rfl⟩
  · exact .inr ⟨.error (hfaults fault), h⟩

theorem Meets.pure {v : α} (hv : kind v) (h : S.states s s') :
    S.Meets kind (pure v) (pure v) s s' :=
  .of_ok hv h rfl rfl

theorem Meets.throw {fault : Fault} (hsame : S.cut ∨ ∀ fault, S.faults fault fault)
    (h : S.states s s') : S.Meets kind (throw fault) (throw fault) s s' :=
  .of_error hsame h rfl rfl

theorem Meets.congr {a' b' : Action Session α} (h : S.Meets kind a' b' s s') (ha : a s = a' s)
    (hb : b s' = b' s') : S.Meets kind a b s s' := by
  unfold Meets result final at h ⊢
  rw [ha, hb]
  exact h

theorem Meets.ok {v : α} {t : Session} (h : S.Meets kind a b s s') (ha : a s = .ok v t) :
    ∃ t', b s' = .ok v t' ∧ S.states t t' := by
  obtain ⟨hr, rfl⟩ := eq_ok_iff.mp ha
  obtain ⟨-, fault, herror⟩ | ⟨hends, hstates⟩ := h
  · rw [hr] at herror
    cases herror
  · generalize hr' : b.result s' = r' at hends
    rw [hr] at hends
    cases hends
    exact ⟨_, eq_ok_iff.mpr ⟨hr', rfl⟩, hstates⟩

theorem Meets.between {states : Session → Session → Prop} (h : S.Meets kind a b s s')
    (hstates : S.states (a.final s) (b.final s') → states (a.final s) (b.final s')) :
    (S.between states).Meets kind a b s s' := by
  obtain hcut | ⟨hends, hfinal⟩ := h
  · exact .inl hcut
  · refine .inr ⟨?_, hstates hfinal⟩
    generalize a.result s = r at hends ⊢
    generalize b.result s' = r' at hends ⊢
    cases hends with
    | ok hv => exact .ok hv
    | error hfaults => exact .error hfaults

/-- Rows of actions that correspond one by one get equally far. -/
theorem Meets.inTurn {actions actions' : List (Action Session α)} (hcut : ¬ S.cut)
    (hrow : List.Forall₂ (S.relation.Relates kind) actions actions') (h : S.states s s') :
    S.Meets (fun _ => True) (inTurn actions) (inTurn actions') s s' ∧
      completed actions s = completed actions' s' := by
  induction hrow generalizing s s' with
  | nil => exact ⟨.pure trivial h, rfl⟩
  | @cons action action' actions actions' hfirst hrest ih =>
      refine ⟨(hfirst s s' h).bind fun _ _ _ hstates => (ih hstates).1, ?_⟩
      obtain ⟨hc, -⟩ | ⟨hends, hstates⟩ := hfirst s s' h
      · exact absurd hc hcut
      · generalize hr : action.result s = r at hends
        generalize hr' : action'.result s' = r' at hends
        cases hends with
        | ok _ => rw [completed_cons_ok hr, completed_cons_ok hr', (ih hstates).2]
        | error _ => rw [completed_cons_error hr, completed_cons_error hr']

end Combinators

theorem Heads.of_self {e : Expr}
    (h : ∀ name args, e = .call name args → ∀ arg ∈ args, S.trees arg arg) : S.Heads e e := by
  cases e with
  | void | int _ | string _ => exact .literal _ rfl
  | var name => exact .var name
  | call name args => exact .call name (List.forall₂_same.mpr (h name args rfl))

theorem bound_self {found : Option HostValue} (h : ∀ e, found = some (.expr e) → S.trees e e) :
    Option.Rel S.Bound found found := by
  cases found with
  | none => exact .none
  | some v =>
      refine .some ?_
      cases v with
      | expr e => exact h e rfl
      | _ => rfl

theorem callables_self {fn : Function} {args args' : List Expr}
    (hbuiltin : ∀ b, fn.body = .builtin b → S.fits b args args')
    (hdefined : ∀ d, fn.body = .defined d → (∀ name ∈ d.formals, S.names name) ∧ S.trees d.body d.body)
    (hhosted : ¬ fn.IsHosted) : S.Callables s args args' fn.body fn.body := by
  cases hbody : fn.body with
  | builtin b => exact ⟨rfl, hbuiltin b hbody⟩
  | defined d => exact .inl ⟨rfl, rfl, (hdefined d hbody).1, (hdefined d hbody).2⟩
  | hosted registration host => exact hhosted ⟨registration, host, hbody⟩

theorem relates_expectVar {e : Expr} (hsame : S.cut ∨ ∀ fault, S.faults fault fault)
    (hname : ∀ name, e = .var name → S.names name) :
    S.relation.Relates S.names (Action.ofExcept e.expectVar) (Action.ofExcept e.expectVar) := by
  intro s s' hstates
  cases e with
  | var name => exact .pure (hname name rfl) hstates
  | _ => exact .throw hsame hstates

/-- What is done with buffers of the scratch scope that may be looked at. -/
structure Scratch (S : Simulation) : Prop where
  newBuffer : S.relation.Relates S.buffers (onScratch Scope.newBuffer) (onScratch Scope.newBuffer)
  discard : ∀ {id}, S.buffers id →
    S.relation.Relates (fun _ => True) (Builtin.discard id) (Builtin.discard id)
  write : ∀ {id} text, S.buffers id → S.relation.Relates (fun _ => True)
    (onScratch (Scope.write id text)) (onScratch (Scope.write id text))
  contents : ∀ {id}, S.buffers id → S.relation.Relates (fun _ => True)
    (onScratch (Scope.contents id)) (onScratch (Scope.contents id))
  size : ∀ {s s' id}, S.buffers id → S.states s s' →
    (s'.scratch.buffer id).size = (s.scratch.buffer id).size

theorem Scratch.of_same (hsame : S.cut ∨ ∀ fault, S.faults fault fault)
    (hbuffers : ∀ id, S.buffers id) (hscratch : ∀ {s s'}, S.states s s' → s'.scratch = s.scratch)
    (hwith : ∀ {s s'} scratch, S.states s s' →
      S.states { s with scratch := scratch } { s' with scratch := scratch }) : S.Scratch := by
  have honScratch : ∀ {α : Type} {kind : α → Prop} (action : Action Scope α), (∀ v, kind v) →
      S.relation.Relates kind (onScratch action) (onScratch action) := by
    intro α kind action hkind s s' hstates
    have hafter := hwith (action.final s.scratch) hstates
    unfold Meets
    rw [result_onScratch, final_onScratch, result_onScratch, final_onScratch, hscratch hstates]
    cases action.result s.scratch with
    | ok v => exact .inr ⟨.ok (hkind v), hafter⟩
    | error fault =>
        obtain hcut | hfaults := hsame
        · exact .inl ⟨hcut, fault, rfl⟩
        · exact .inr ⟨.error (hfaults fault), hafter⟩
  exact {
    newBuffer := honScratch _ hbuffers
    discard := fun _ => honScratch _ fun _ => trivial
    write := fun _ _ => honScratch _ fun _ => trivial
    contents := fun _ => honScratch _ fun _ => trivial
    size := fun _ hstates => by rw [hscratch hstates] }

/-- What has to be shown of a simulation. -/
structure Lawful (S : Simulation) : Prop where
  same : S.cut ∨ ∀ fault, S.faults fault fault
  guarded : ∀ name {fault fault'}, S.faults fault fault' →
    S.faults (Function.guardedFault name fault) (Function.guardedFault name fault')
  literal : ∀ {e : Expr}, e.isLiteral = true → S.trees e e
  enter : S.relation.Relates (fun _ => True) enter enter
  leave : S.relation.Relates (fun _ => True) leave leave
  emit : ∀ text, S.relation.Relates (fun _ => True) (emit text) (emit text)
  scratch : S.Scratch
  contains : ∀ {s s' name}, S.names name → S.states s s' →
    s'.vars.contains name = s.vars.contains name
  keeps : ∀ {s s' name}, S.kept name → S.states s s' → s.vars.contains name = true
  insert : ∀ {s s' name e e'}, S.names name → (S.kept name → e' = e) → S.trees e e' →
    S.states s s' → S.states { s with vars := s.vars.insert name (.expr e) }
      { s' with vars := s'.vars.insert name (.expr e') }
  erase : ∀ {s s' name}, S.names name → ¬ S.kept name → S.states s s' →
    S.states { s with vars := s.vars.erase name } { s' with vars := s'.vars.erase name }
  lookupVar : ∀ {s s' name}, S.trees (.var name) (.var name) → S.states s s' →
    Option.Rel S.Bound (s.vars.find? name) (s'.vars.find? name)
  lookupFunction : ∀ {s s' name args args'}, S.trees (.call name args) (.call name args') →
    S.states s s' → Option.Rel (fun fn fn' : Function => fn'.name = fn.name ∧
      fn'.isHost = fn.isHost ∧ S.Callables s args args' fn.body fn'.body)
      (s.functions.find? name) (s'.functions.find? name)
  each : ∀ {b args args'}, S.fits b args args' → List.Forall₂ S.trees args args'
  target : ∀ {target target' e e'}, S.fits .letVar [target, e] [target', e'] →
    S.relation.Relates S.names (Action.ofExcept target.expectVar)
      (Action.ofExcept target'.expectVar)
  define : ∀ {target params body target' params' body'},
    S.fits .define [target, params, body] [target', params', body'] →
    S.relation.Relates (HostValue.IsValue fun _ => True)
      (Builtin.callDefine target params body) (Builtin.callDefine target' params' body')

/-- Two runs that are at the same depth and have emitted the same, where what corresponds does not
depend on any of it. -/
structure InStep (S : Simulation) : Prop where
  same : S.cut ∨ ∀ fault, S.faults fault fault
  maxDepth : ∀ {s s'}, S.states s s' → s'.maxDepth = s.maxDepth
  depth : ∀ {s s'}, S.states s s' → s'.depth = s.depth
  emitted : ∀ {s s'}, S.states s s' → s'.emitted = s.emitted
  withDepth : ∀ {s s'} depth, S.states s s' →
    S.states { s with depth := depth } { s' with depth := depth }
  withEmitted : ∀ {s s'} emitted, S.states s s' →
    S.states { s with emitted := emitted } { s' with emitted := emitted }

namespace InStep

variable (I : S.InStep)
include I

theorem enter : S.relation.Relates (fun _ => True) enter enter := by
  intro s s' hstates
  by_cases hroom : s.depth < s.maxDepth
  · have hroom' : s'.depth < s'.maxDepth := by
      rw [I.depth hstates, I.maxDepth hstates]
      exact hroom
    have henter := enter_of_room hroom'
    rw [I.depth hstates] at henter
    exact .of_ok trivial (I.withDepth _ hstates) (enter_of_room hroom) henter
  · have hfull : s'.maxDepth ≤ s'.depth := by
      rw [I.depth hstates, I.maxDepth hstates]
      exact Int.not_lt.mp hroom
    have hrefused := enter_of_no_room hfull
    rw [I.maxDepth hstates] at hrefused
    exact .of_error I.same hstates (enter_of_no_room (Int.not_lt.mp hroom)) hrefused

theorem leave : S.relation.Relates (fun _ => True) leave leave := by
  intro s s' hstates
  refine .of_ok trivial (I.withDepth (s.depth - 1) hstates) rfl ?_
  rw [← I.depth hstates]
  rfl

theorem emit (text : String) : S.relation.Relates (fun _ => True) (emit text) (emit text) := by
  intro s s' hstates
  refine .of_ok trivial (I.withEmitted (text :: s.emitted) hstates) rfl ?_
  rw [← I.emitted hstates]
  rfl

end InStep

namespace Lawful

variable (L : S.Lawful)
include L

theorem closed (rules : HostRules) : S.relation.Closed rules where
  pure hv _ _ hstates := .pure hv hstates
  throw _ _ _ hstates := .throw L.same hstates
  bind hab hnext _ _ hstates := (hab _ _ hstates).bind fun v hv _ => hnext v hv _ _

theorem setValue {name : String} {v : HostValue} (hname : S.names name)
    (hv : v.IsValue fun _ => True) :
    S.relation.Relates (fun _ => True) (setValue name v) (setValue name v) := by
  obtain ⟨e, he, rfl⟩ | ⟨hplain, -⟩ := hv
  · exact fun _ _ hstates =>
      .inr ⟨.ok trivial, L.insert hname (fun _ => rfl) (L.literal he) hstates⟩
  · intro _ _ hstates
    cases v with
    | expr e => cases hplain
    | _ => exact .throw L.same hstates

/-- What is done within a buffer concerns a buffer that may be looked at. -/
theorem congruence : S.relation.Congruence
    (fun id => { Relates := fun kind a b => S.buffers id → S.relation.Relates kind a b })
    .selfContained S.trees S.fits S.names where
  ownEnds := HostRules.selfContained_lenient.ownEnds
  closed := L.closed _
  closedInside _ := {
    pure := fun hv _ => (L.closed .selfContained).pure hv
    throw := fun hfault _ => (L.closed .selfContained).throw hfault
    bind := fun hab hnext hid => (L.closed .selfContained).bind (hab hid) fun v hv => hnext v hv hid }
  inner _ h _ := h
  each := L.each
  target := L.target
  setValue := L.setValue
  define := L.define
  emit := L.emit
  withBuffer h _ _ hstates := (L.scratch.newBuffer _ _ hstates).bind fun id hid _ hstates' =>
    (h id hid _ _ hstates').ensuring (L.scratch.discard hid)
  write _ text hid := L.scratch.write text hid
  contents _ hid := L.scratch.contents hid
  size id use h hid s s' hstates := by
    have hsize := L.scratch.size hid hstates
    have hmeet := h (s.scratch.buffer id).size hid s s' hstates
    unfold Meets result final at hmeet ⊢
    rw [get_bind, get_bind, hsize]
    exact hmeet

/-- Two functions with the same name hand on corresponding ends in the same way. -/
theorem ends_seen {fn fn' : Function} (hname : fn'.name = fn.name) (hhost : fn'.isHost = fn.isHost)
    {end_ end' : Except Fault HostValue} (h : S.Ends (HostValue.IsValue fun _ => True) end_ end') :
    (S.cut ∧ ∃ fault, fn.seen end_ = .error fault) ∨
      S.Ends (HostValue.IsValue fun _ => True) (fn.seen end_) (fn'.seen end') := by
  cases h with
  | @ok v hv =>
      have hsame : fn'.seen (.ok v) = fn.seen (.ok v) := by
        unfold Function.seen
        rw [hname, hhost]
      have hvalue := HostRules.selfContained_lenient.ownEnds.answers_seen (e := .ok v) fn hv
      rw [hsame]
      cases hseen : fn.seen (.ok v) with
      | ok w =>
          rw [hseen] at hvalue
          exact .inr (.ok hvalue)
      | error fault =>
          obtain hcut | hfaults := L.same
          · exact .inl ⟨hcut, fault, rfl⟩
          · exact .inr (.error (hfaults fault))
  | @error fault fault' hfaults =>
      unfold Function.seen
      rw [hname, hhost]
      refine .inr (.error ?_)
      split_ifs
      · exact L.guarded fn.name hfaults
      · exact hfaults

theorem nested {a b : Action Session α} (h : S.relation.Relates kind a b) :
    S.relation.Relates kind (do Session.enter; a.ensuring Session.leave)
      (do Session.enter; b.ensuring Session.leave) :=
  fun _ _ hstates => (L.enter _ _ hstates).bind fun _ _ _ hstates' =>
    (h _ _ hstates').ensuring L.leave

section Calls

variable {ev ev' : Evaluator} {args args' : List Expr}
  (hev : ∀ {e e'}, S.trees e e' →
    S.relation.Relates (HostValue.IsValue fun _ => True) (ev e) (ev' e'))

/-- Each parameter is free in both runs, or bound in both. -/
theorem bindFormals {formals : List String} (hnames : ∀ name ∈ formals, S.names name)
    (h : List.Forall₂ S.trees args args') :
    S.relation.Relates (fun answer => ∀ name ∈ answer.1, S.names name ∧ ¬ S.kept name)
      (DefinedFn.bindFormals (formals.zip args)) (DefinedFn.bindFormals (formals.zip args')) := by
  induction formals generalizing args args' with
  | nil => exact fun _ _ hstates => .pure nofun hstates
  | cons formal formals ih =>
      cases h with
      | nil => exact fun _ _ hstates => .pure nofun hstates
      | @cons actual actual' args args' hactual hrest =>
          rw [List.forall_mem_cons] at hnames
          intro s s' hstates
          have hcontains := L.contains hnames.1 hstates
          have hbind := @bindVar_eq s formal (.expr actual)
          have hbind' := @bindVar_eq s' formal (.expr actual')
          rw [hcontains] at hbind'
          have hattempt : S.Meets (fun answer => ∀ bound, answer = .ok bound → ¬ S.kept formal)
              (bindVar formal (.expr actual)).attempt (bindVar formal (.expr actual')).attempt
              s s' := by
            split_ifs at hbind hbind' with hbound
            · refine .of_ok ?_ hstates (attempt_error hbind) (attempt_error hbind')
              exact fun _ => nofun
            · have hfresh : ¬ S.kept formal := fun hkept => hbound (L.keeps hkept hstates)
              exact .of_ok (fun _ _ => hfresh)
                (L.insert hnames.1 (fun hkept => (hfresh hkept).elim) hactual hstates)
                (attempt_ok hbind) (attempt_ok hbind')
          refine hattempt.bind fun answer hfresh _ hstates' => ?_
          cases answer with
          | error fault => exact .pure nofun hstates'
          | ok bound =>
              refine (ih hnames.2 hrest _ _ hstates').bind fun answer hanswer _ hstates'' => ?_
              exact .pure (List.forall_mem_cons.mpr ⟨⟨hnames.1, hfresh bound rfl⟩, hanswer⟩) hstates''

theorem unbindFormals {names : List String}
    (hnames : ∀ name ∈ names, S.names name ∧ ¬ S.kept name) :
    S.relation.Relates (fun _ => True) (DefinedFn.unbindFormals names)
      (DefinedFn.unbindFormals names) := by
  induction names with
  | nil => exact fun _ _ hstates => .pure trivial hstates
  | cons name names ih =>
      rw [List.forall_mem_cons] at hnames
      intro s s' hstates
      have hunbind := @unbindVar_eq s name
      have hunbind' := @unbindVar_eq s' name
      rw [L.contains hnames.1.1 hstates] at hunbind'
      have hfirst : S.Meets (fun _ => True) (unbindVar name) (unbindVar name) s s' := by
        split_ifs at hunbind hunbind'
        · exact .of_ok trivial (L.erase hnames.1.1 hnames.1.2 hstates) hunbind hunbind'
        · exact .of_error L.same hstates hunbind hunbind'
      exact hfirst.bind fun _ _ _ hstates' => ih hnames.2 _ _ hstates'

include hev

theorem callDefined {d d' : DefinedFn} (hd : S.Definitions d d')
    (h : List.Forall₂ S.trees args args') :
    S.relation.Relates (HostValue.IsValue fun _ => True) (d.call ev args) (d'.call ev' args') := by
  intro s s' hstates
  by_cases hlen : args.length = d.formals.length
  · unfold DefinedFn.call
    rw [hd.name, hd.formals, ← h.length_eq, if_neg fun hne => hne hlen, if_neg fun hne => hne hlen]
    refine (L.bindFormals hd.names h _ _ hstates).bind fun answer hanswer _ hstates' => ?_
    refine Meets.ensuring ?_ (L.unbindFormals hanswer)
    cases answer.2 with
    | some fault => exact .throw L.same hstates'
    | none => exact hev hd.body _ _ hstates'
  · have hlen' : args'.length ≠ d'.formals.length := by
      rw [hd.formals, ← h.length_eq]
      exact hlen
    have hrefused := @DefinedFn.call_arity d' args' s' hlen' ev'
    rw [hd.name, hd.formals, ← h.length_eq] at hrefused
    exact .of_error L.same hstates (DefinedFn.call_arity hlen ev) hrefused

theorem call {fn fn' : Function} (hname : fn'.name = fn.name) (hhost : fn'.isHost = fn.isHost)
    (hstates : S.states s s') (h : S.Callables s args args' fn.body fn'.body)
    (hargs : List.Forall₂ S.trees args args') :
    S.Meets (HostValue.IsValue fun _ => True) (fn.call ev args) (fn'.call ev' args') s s' := by
  have hraw : S.Meets (HostValue.IsValue fun _ => True) (fn.callRaw ev args) (fn'.callRaw ev' args')
      s s' := by
    unfold Function.callRaw
    cases hbody : fn.body with
    | builtin b =>
        cases hbody' : fn'.body with
        | builtin b' =>
            rw [hbody, hbody'] at h
            obtain ⟨rfl, hfits⟩ := h
            exact L.congruence.callBuiltin hev _ hfits _ _ hstates
        | _ =>
            rw [hbody, hbody'] at h
            exact h.elim
    | defined d =>
        cases hbody' : fn'.body with
        | defined d' =>
            rw [hbody, hbody'] at h
            obtain hd | ⟨hcut, hrefused⟩ := h
            · exact L.callDefined hev hd hargs _ _ hstates
            · exact .inl ⟨hcut, hrefused ev⟩
        | _ =>
            rw [hbody, hbody'] at h
            exact h.elim
    | hosted registration host =>
        rw [hbody] at h
        exact h.elim
  unfold Meets at hraw ⊢
  rw [Function.result_call, Function.final_call, Function.result_call, Function.final_call]
  obtain ⟨hcut, fault, hr⟩ | ⟨hends, hstates'⟩ := hraw
  · rw [hr]
    exact .inl ⟨hcut, _, rfl⟩
  · obtain hcut | hends' := L.ends_seen hname hhost hends
    · exact .inl hcut
    · exact .inr ⟨hends', hstates'⟩

theorem evaluateBound {v v' : HostValue} (h : S.Bound v v') :
    S.relation.Relates (HostValue.IsValue fun _ => True) (evaluateBound ev v)
      (MacroScript.evaluateBound ev' v') := by
  have hplain : ∀ v : HostValue, v.asExpr? = none →
      S.relation.Relates (HostValue.IsValue fun _ => True)
        (do Session.enter; Session.leave; return v) (do Session.enter; Session.leave; return v) :=
    fun v hv _ _ hstates => (L.enter _ _ hstates).bind fun _ _ _ hstates' =>
      (L.leave _ _ hstates').bind fun _ _ _ hstates'' => .pure (.inr ⟨hv, trivial⟩) hstates''
  cases v with
  | expr e =>
      cases v' with
      | expr e' => exact hev h
      | _ => cases h
  | _ =>
      cases h
      exact hplain _ rfl

theorem evaluateStep {e e' : Expr} (h : S.trees e e') (hheads : S.Heads e e') :
    S.relation.Relates (HostValue.IsValue fun _ => True) (evaluateStep ev e)
      (MacroScript.evaluateStep ev' e') := by
  intro s s' hstates
  cases hheads with
  | literal e he =>
      cases e with
      | void | int _ | string _ => exact .pure (.inl ⟨_, he, rfl⟩) hstates
      | _ => cases he
  | var name =>
      have hfound := L.lookupVar h hstates
      generalize hfind : s.vars.find? name = found at hfound
      generalize hfind' : s'.vars.find? name = found' at hfound
      cases hfound with
      | some hbound =>
          exact .congr (L.evaluateBound hev hbound _ _ hstates) (evaluateStep_var hfind ev)
            (evaluateStep_var hfind' ev')
      | none =>
          exact .of_error L.same hstates (evaluateStep_unknownVariable hfind ev)
            (evaluateStep_unknownVariable hfind' ev')
  | call name hargs =>
      have hfound := L.lookupFunction h hstates
      generalize hfind : s.functions.find? name = found at hfound
      generalize hfind' : s'.functions.find? name = found' at hfound
      cases hfound with
      | some hfn =>
          obtain ⟨hname, hhost, hcallables⟩ := hfn
          exact .congr (L.call hev hname hhost hstates hcallables hargs)
            (evaluateStep_call hfind ev _) (evaluateStep_call hfind' ev' _)
      | none =>
          exact .of_error L.same hstates (evaluateStep_unknownFunction hfind ev _)
            (evaluateStep_unknownFunction hfind' ev' _)

end Calls

section Runs

variable (I : S.InStep)
  (hstep : ∀ {ev ev' : Evaluator},
    (∀ {e e'}, S.trees e e' → S.relation.Relates (HostValue.IsValue fun _ => True) (ev e) (ev' e')) →
    ∀ {e e'}, S.trees e e' → S.relation.Relates (HostValue.IsValue fun _ => True)
      (MacroScript.evaluateStep ev e) (MacroScript.evaluateStep ev' e'))
include I hstep

/-- Where single steps correspond and the runs are in step, evaluations correspond. -/
theorem evaluateWith (levels : Nat) {e e' : Expr} (h : S.trees e e') :
    S.relation.Relates (HostValue.IsValue fun _ => True) (evaluateWith levels e)
      (MacroScript.evaluateWith levels e') := by
  induction levels generalizing e e' with
  | zero =>
      intro s s' hstates
      have hlimit := I.maxDepth hstates
      have hfull : MacroScript.evaluateWith 0 e' s' =
          .error (.eval (.recursionLimit s'.maxDepth)) s' := rfl
      rw [hlimit] at hfull
      exact .of_error L.same hstates rfl hfull
  | succ levels ih => exact L.nested (hstep ih h)

theorem evaluate {e e' : Expr} (h : S.trees e e') :
    S.relation.Relates (HostValue.IsValue fun _ => True) (evaluate e) (MacroScript.evaluate e') := by
  intro s s' hstates
  have hlevels : s'.levels = s.levels := by
    unfold Session.levels
    rw [I.maxDepth hstates, I.depth hstates]
  refine (L.evaluateWith I hstep s.levels h _ _ hstates).congr rfl ?_
  rw [← hlevels]
  rfl

end Runs

end Lawful

end Simulation

end MacroScript
