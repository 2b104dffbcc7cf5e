import MacroScript.Proofs.Evaluation.Bindings
import MacroScript.Proofs.Evaluation.Values
import MacroScript.Proofs.Table

/-!
# What evaluations leave bound

Without functions of the host there are two ways to bind a name: `let` binds it
to a value, and the call of a defined function binds parameters to unevaluated
arguments, which it takes back. So what is bound after an evaluation was bound
before it, or is a value.
-/
namespace MacroScript

/-- Every name is still bound, and to what it was bound to before or to a value. -/
structure Session.BindsValues (s t : Session) : Prop where
  names : ∀ name, s.vars.contains name = true → t.vars.contains name = true
  bound : ∀ name v, t.vars.find? name = some v →
    s.vars.find? name = some v ∨ v.IsValue fun _ => True

namespace Session.BindsValues

variable {s t u : Session}

theorem refl (s : Session) : BindsValues s s := ⟨fun _ h => h, fun _ _ => .inl⟩

theorem trans (hst : BindsValues s t) (htu : BindsValues t u) : BindsValues s u where
  names name h := htu.names name (hst.names name h)
  bound name v h := by
    obtain hfind | hv := htu.bound name v h
    · exact hst.bound name v hfind
    · exact .inr hv

theorem insert {name : String} {e : Expr} (he : (HostValue.expr e).IsValue fun _ => True) :
    BindsValues s { s with vars := s.vars.insert name (.expr e) } where
  names _ h := (Table.contains_insert ..).mpr (.inr h)
  bound other v h := by
    obtain ⟨-, rfl⟩ | h := Table.of_find?_insert h
    · exact .inr he
    · exact .inl h

theorem eraseAll {pairs : List (String × Expr)} {names : List String} {refusal : Option Fault}
    {after : Table HostValue} (hparams : DefinedFn.Bound s.vars pairs names refusal after)
    (h : BindsValues { s with vars := after } t) :
    BindsValues s { t with vars := t.vars.eraseAll names } where
  names := hparams.kept h.names
  bound name v hfind := by
    rw [Table.find?_eraseAll] at hfind
    split at hfind
    case isTrue => cases hfind
    case isFalse hname =>
      obtain hfind | hv := h.bound name v hfind
      · rw [hparams.found, if_neg hname] at hfind
        exact .inl hfind
      · exact .inr hv

end Session.BindsValues

namespace Discipline

def bindingValues : Discipline where
  holds s := s.Follows .selfContained
  allows := Session.BindsValues
  refl := .refl
  trans := .trans

theorem bindingValues_ignoresScratch : bindingValues.IgnoresScratch :=
  ⟨fun _ _ h => h, fun _ _ => ⟨fun _ h => h, fun _ _ => .inl⟩⟩

theorem bindingValues_ignoresArena : bindingValues.IgnoresArena :=
  ⟨fun _ _ h => h, fun _ _ => ⟨fun _ h => h, fun _ _ => .inl⟩⟩

theorem bindingValues_ignoresDepth : bindingValues.IgnoresDepth :=
  ⟨fun _ _ h => h, fun _ _ => ⟨fun _ h => h, fun _ _ => .inl⟩⟩

theorem bindingValues_lawful : bindingValues.Lawful .selfContained fun _ => bindingValues where
  literal := HostRules.selfContained_lenient.literal
  ownError _ _ := trivial
  malformed := nofun
  accessor _ _ _ _ := trivial
  notBindable _ _ _ _ := trivial
  guarded _ _ _ := trivial
  bound _ _ _ _ _ hv := .inr ⟨hv, trivial⟩
  follows _ hs := hs
  nested _ := bindingValues_ignoresDepth.nested fun _ => trivial
  setVar _ _ h := .of_final fun _ hs => ⟨hs, .insert (h.resolve_left id)⟩
  define := define_of_steps HostRules.selfContained_lenient.ownEnds
    (fun fn => bindingValues_ignoresArena.keep (fun _ _ _ => trivial) (.defined fn) fn.size)
    fun _ => .of_final fun _ hs => ⟨hs.install trivial, fun _ h => h, fun _ _ => .inl⟩
  emit _ := .of_final fun _ hs => ⟨hs, fun _ h => h, fun _ _ => .inl⟩
  countCall _ := .of_final fun _ hs => ⟨hs, fun _ h => h, fun _ _ => .inl⟩
  callDefined _ := callDefined_of_kept (fun _ _ => trivial) (fun _ _ => Session.BindsValues.names)
    (fun _ _ _ _ hs _ => hs)
    fun _ _ _ _ _ hparams hholds h => ⟨hholds, Session.BindsValues.eraseAll hparams h⟩
  withBuffer _ _ := bindingValues_ignoresScratch.withBuffer
    HostRules.selfContained_lenient.allowsScopeFaults
  evaluatesInside _ hev _ := hev
  write id text := bindingValues_ignoresScratch.onScratch fun scope =>
    HostRules.selfContained_lenient.allowsScopeFaults.answers_write scope id text
  contents id := bindingValues_ignoresScratch.onScratch fun scope =>
    HostRules.selfContained_lenient.allowsScopeFaults.answers_contents scope id
  top := nofun
  resetScratch := nofun
  close := nofun
  bindVar := nofun
  unbindVar := nofun

end Discipline

end MacroScript
