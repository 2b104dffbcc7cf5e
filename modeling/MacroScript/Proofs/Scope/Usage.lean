import MacroScript.Proofs.Scope.Limits
import MacroScript.Proofs.Scope.Restored
import Mathlib

/-!
# What a scope has to account for

The owner of a scope may use it and its buffers in any order, also buffers that
are closed, released, dropped by a reset or never kept, and may go on after a
use that failed. Through all of this the count of the scope covers the text of
the buffers that it keeps and the sizes of the other objects that it was given
since its last reset, and it stays within the limit. It may be higher than that:
a write to a closed buffer and the text of a buffer that is not kept are counted
as well, and stay counted up to the next reset.

The scope does not remember the sizes of the objects that it keeps. An account
does, beside the scope, and nothing that the scope does depends on it.
-/
namespace MacroScript

namespace Scope

open MacroScript.Action

/-- What the owner of a scope can do with it and with its buffers. A number that no buffer of the
scope has stands for the buffer of another scope. -/
inductive Use where
  | charge (amount : Int)
  | keep (object : Kept) (amount : Int)
  | newBuffer
  | looseBuffer
  | write (id : BufferId) (text : String)
  | close (id : BufferId)
  | release (id : BufferId)
  | reset

namespace Use

/-- The operation that is used. -/
def action : Use → Action Scope Unit
  | charge amount => Scope.charge amount
  | keep object amount => Scope.keep object amount
  | newBuffer => do
      let _ ← Scope.newBuffer
  | looseBuffer => do
      let _ ← Scope.looseBuffer
  | write id text => Scope.write id text
  | close id => Scope.close id
  | release id => Scope.release id
  | reset => modify Scope.reset

/-- No amount is negative, and a buffer is only kept by its making. -/
def Regular : Use → Prop
  | charge amount => 0 ≤ amount
  | keep object amount => 0 ≤ amount ∧ ∀ id, object ≠ .buffer id
  | _ => True

/-- The use takes back what a buffer was charged. -/
def Refunds (scope : Scope) (id : BufferId) : Use → Prop
  | release other => other = id ∧ .buffer id ∈ scope.kept
  | reset => id < scope.buffers.length
  | _ => False

end Use

/-- The characters that a kept object holds, if it is a buffer. -/
def held (scope : Scope) : Kept → Nat
  | .buffer id => (scope.buffer id).size
  | _ => 0

def keptText (scope : Scope) : Nat := (scope.kept.map scope.held).sum

/-- A scope and the sizes of the objects that it was given to keep since its last reset. -/
structure Account where
  scope : Scope
  objects : Int

namespace Account

def fresh (name : String) (limit : Option Int) : Account := ⟨.fresh name limit, 0⟩

/-- The account behind a use, whether or not the use failed. An object counts if it was kept. -/
def step (account : Account) (use : Use) : Account where
  scope := use.action.final account.scope
  objects :=
    match use with
    | .keep object amount =>
        if ((keep object amount).result account.scope).isOk then account.objects + amount
        else account.objects
    | .reset => 0
    | _ => account.objects

/-- The account behind one use after another. -/
def after (account : Account) (uses : List Use) : Account := uses.foldl step account

end Account

/-- The count covers the text that is kept and objects of this size, and is within the limit. A
buffer that is kept was made, and is kept once. -/
structure Covered (scope : Scope) (objects : Int) : Prop where
  sound : scope.Sound
  once : ∀ id, scope.kept.count (.buffer id) ≤ 1
  nonneg : 0 ≤ objects
  covers : scope.keptText + objects ≤ scope.used
  within : ∀ limit, scope.limit = some limit → scope.used ≤ limit

variable {scope : Scope} {id : BufferId} {text : String} {amount objects : Int} {object : Kept}

theorem isOk_keep :
    ((keep object amount).result scope).isOk = scope.allows (scope.used + amount) := by
  rw [result, keep_eq]
  split_ifs with hroom
  · exact hroom.symm
  · exact (Bool.eq_false_iff.mpr hroom).symm

theorem allows_iff {used : Int} :
    scope.allows used = true ↔ ∀ limit, scope.limit = some limit → used ≤ limit := by
  unfold allows
  cases scope.limit with
  | none => simp
  | some limit => simp

theorem lt_of_isOpen (h : (scope.buffer id).isClosed = false) : id < scope.buffers.length := by
  by_contra hnot
  rw [buffer, List.getElem?_eq_none (Nat.le_of_not_lt hnot)] at h
  cases h

theorem held_of_ne (h : ∀ id, object ≠ .buffer id) : scope.held object = 0 := by
  cases object with
  | buffer id => exact absurd rfl (h id)
  | _ => rfl

theorem held_made (h : ∀ id, object = .buffer id → id < scope.buffers.length) :
    held { scope with buffers := scope.buffers ++ [Buffer.empty] } object = scope.held object := by
  cases object with
  | buffer id => simp only [held, buffer, List.getElem?_append_left (h id rfl)]
  | _ => rfl

theorem held_close : (scope.update id Buffer.close).held object = scope.held object := by
  cases object with
  | buffer other =>
      have hsize : ∀ buffer : Option Buffer,
          ((buffer.map Buffer.close).getD Buffer.empty.close).size =
            (buffer.getD Buffer.empty.close).size := by
        rintro (_ | _) <;> rfl
      simp only [held, buffer, update, List.getElem?_modify]
      split_ifs
      · exact hsize _
      · simp
  | _ => rfl

theorem held_written (h : id < scope.buffers.length) :
    (scope.written id text).held object =
      scope.held object + if object = .buffer id then text.length else 0 := by
  cases object with
  | buffer other =>
      by_cases hother : id = other
      · subst hother
        simp [held, buffer, written, update, h]
      · have hne : ¬ other = id := fun he => hother he.symm
        simp [held, buffer, written, update, hother, hne]
  | _ => simp [held]

/-- What is written is held as often as its buffer is kept. -/
theorem keptText_written (h : id < scope.buffers.length) :
    (scope.written id text).keptText =
      scope.keptText + scope.kept.count (.buffer id) * text.length := by
  have hkept : ∀ kept : List Kept, (kept.map (scope.written id text).held).sum =
      (kept.map scope.held).sum + kept.count (.buffer id) * text.length := by
    intro kept
    induction kept with
    | nil => simp
    | cons object kept ih =>
        simp only [List.map_cons, List.sum_cons, ih, held_written h, List.count_cons, beq_iff_eq]
        split_ifs
        · rw [Nat.add_mul, Nat.one_mul]
          omega
        · rw [Nat.add_zero, Nat.add_zero]
          omega
  exact hkept scope.kept

namespace Covered

theorem fresh {limit : Option Int} (name : String) (h : ∀ l, limit = some l → 0 ≤ l) :
    (Scope.fresh name limit).Covered 0 where
  sound := nofun
  once _ := Nat.zero_le 1
  nonneg := Int.le_refl 0
  covers := Int.le_refl 0
  within := h

theorem counted (h : scope.Covered objects) (hamount : 0 ≤ amount)
    (hroom : scope.allows (scope.used + amount) = true) :
    Covered { scope with used := scope.used + amount } objects where
  sound := h.sound
  once := h.once
  nonneg := h.nonneg
  covers := by
    have hcovers := h.covers
    change (scope.keptText : Int) + objects ≤ scope.used + amount
    omega
  within := allows_iff.mp hroom

theorem keep (h : scope.Covered objects) (hamount : 0 ≤ amount)
    (hobject : ∀ id, object ≠ .buffer id) (hroom : scope.allows (scope.used + amount) = true) :
    Covered { scope with used := scope.used + amount, kept := scope.kept ++ [object] }
      (objects + amount) where
  sound id hid := by
    rcases List.mem_append.mp hid with hid | hid
    · exact h.sound id hid
    · exact absurd (List.mem_singleton.mp hid).symm (hobject id)
  once id := by
    rw [List.count_append, List.count_singleton, if_neg (by simpa using hobject id), Nat.add_zero]
    exact h.once id
  nonneg := Int.add_nonneg h.nonneg hamount
  covers := by
    have hcovers := h.covers
    have htext : ((scope.kept ++ [object]).map scope.held).sum = scope.keptText := by
      rw [List.map_append, List.sum_append, List.map_singleton, List.sum_singleton,
        held_of_ne hobject, Nat.add_zero, keptText]
    change (((scope.kept ++ [object]).map scope.held).sum : Int) + _ ≤ scope.used + amount
    omega
  within := allows_iff.mp hroom

theorem looseBuffer (h : scope.Covered objects) :
    Covered { scope with buffers := scope.buffers ++ [Buffer.empty] } objects where
  sound id hid := by
    rw [List.length_append]
    exact Nat.lt_add_right _ (h.sound id hid)
  once := h.once
  nonneg := h.nonneg
  covers := by
    have htext : keptText { scope with buffers := scope.buffers ++ [Buffer.empty] } =
        scope.keptText := by
      refine congrArg List.sum (List.map_congr_left fun object hobject => held_made ?_)
      rintro id rfl
      exact h.sound id hobject
    rw [htext]
    exact h.covers
  within := h.within

theorem newBuffer (h : scope.Covered objects) : scope.opened.Covered objects where
  sound := sound_opened h.sound
  once id := by
    have hnew : scope.kept.count (.buffer scope.buffers.length) = 0 :=
      List.count_eq_zero.mpr fun hmem => Nat.lt_irrefl _ (h.sound _ hmem)
    simp only [opened, List.count_append, List.count_singleton, beq_iff_eq, Kept.buffer.injEq]
    split_ifs with hid
    · exact Nat.le_of_eq (by rw [← hid, hnew])
    · exact h.once id
  nonneg := h.nonneg
  covers := by
    have hnew : scope.opened.held (.buffer scope.buffers.length) = 0 := by
      rw [held, buffer_opened]
      rfl
    have htext : scope.opened.keptText = (scope.kept.map scope.opened.held).sum := by
      rw [keptText, opened, List.map_append, List.sum_append, List.map_singleton,
        List.sum_singleton]
      exact (congrArg _ hnew).trans (Nat.add_zero _)
    rw [htext]
    exact h.looseBuffer.covers
  within := h.within

/-- What is written is counted, and held once at most. -/
theorem written (h : scope.Covered objects) (hopen : (scope.buffer id).isClosed = false)
    (hroom : scope.allows (scope.used + text.length) = true) :
    (scope.written id text).Covered objects where
  sound other hother := by
    simpa [Scope.written, update] using h.sound other hother
  once := h.once
  nonneg := h.nonneg
  covers := by
    have hcovers := h.covers
    have honce : scope.kept.count (.buffer id) * text.length ≤ 1 * text.length :=
      Nat.mul_le_mul_right _ (h.once id)
    rw [keptText_written (lt_of_isOpen hopen)]
    change _ ≤ scope.used + text.length
    push_cast
    omega
  within := allows_iff.mp hroom

theorem close (h : scope.Covered objects) (id : BufferId) :
    (scope.update id Buffer.close).Covered objects where
  sound other hother := by
    simpa [update] using h.sound other hother
  once := h.once
  nonneg := h.nonneg
  covers := by
    have htext : (scope.update id Buffer.close).keptText = scope.keptText :=
      congrArg List.sum (List.map_congr_left fun _ _ => held_close)
    rw [htext]
    exact h.covers
  within := h.within

/-- What a released buffer held is neither covered any more nor counted. -/
theorem release (h : scope.Covered objects) (hkept : .buffer id ∈ scope.kept) :
    Covered { scope with
      kept := scope.kept.erase (.buffer id)
      used := scope.used - (scope.buffer id).size } objects where
  sound other hother := h.sound other (List.mem_of_mem_erase hother)
  once other := Nat.le_trans (List.erase_sublist.count_le (Kept.buffer other)) (h.once other)
  nonneg := h.nonneg
  covers := by
    have hcovers := h.covers
    have hsplit : (scope.buffer id).size + ((scope.kept.erase (.buffer id)).map scope.held).sum =
        scope.keptText := List.sum_map_erase scope.held hkept
    change (((scope.kept.erase (.buffer id)).map scope.held).sum : Int) + objects ≤
      scope.used - (scope.buffer id).size
    omega
  within limit hlimit := by
    have hwithin := h.within limit hlimit
    change scope.used - (scope.buffer id).size ≤ limit
    omega

theorem reset (hlimit : ∀ limit, scope.limit = some limit → 0 ≤ limit) :
    scope.reset.Covered 0 where
  sound := nofun
  once _ := Nat.zero_le 1
  nonneg := Int.le_refl 0
  covers := Int.le_refl 0
  within := by
    rw [limit_reset]
    exact hlimit

end Covered

/-- What each use leaves of the scope, whether or not it fails. -/
theorem Use.final_action (use : Use) (scope : Scope) : use.action.final scope =
    match use with
    | charge amount =>
        if scope.allows (scope.used + amount) then { scope with used := scope.used + amount }
        else scope
    | keep object amount =>
        if scope.allows (scope.used + amount) then
          { scope with used := scope.used + amount, kept := scope.kept ++ [object] }
        else scope
    | newBuffer => if scope.allows scope.used then scope.opened else scope
    | looseBuffer => { scope with buffers := scope.buffers ++ [Buffer.empty] }
    | write id text =>
        if scope.allows (scope.used + text.length) then
          if (scope.buffer id).isClosed then { scope with used := scope.used + text.length }
          else scope.written id text
        else scope
    | close id => scope.update id Buffer.close
    | release id =>
        if .buffer id ∈ scope.kept then
          ({ scope with
            kept := scope.kept.erase (.buffer id)
            used := scope.used - (scope.buffer id).size } : Scope).update id Buffer.close
        else scope
    | reset => scope.reset := by
  cases use with
  | charge amount =>
      rw [action, final, charge_eq]
      dsimp only
      split_ifs <;> rfl
  | keep object amount =>
      rw [action, final, keep_eq]
      dsimp only
      split_ifs <;> rfl
  | newBuffer =>
      rw [action, final_bind_of_final fun _ _ => rfl, final, newBuffer_eq]
      dsimp only
      split_ifs <;> rfl
  | looseBuffer => rfl
  | write id text =>
      rw [action, final, write_eq]
      dsimp only
      split_ifs <;> rfl
  | close id => rfl
  | release id =>
      rw [action, final, release_eq]
      simp only [List.contains_iff_mem]
      split_ifs <;> rfl
  | reset => rfl

theorem Account.step_covered {account : Account} {use : Use} (huse : use.Regular)
    (h : account.scope.Covered account.objects)
    (hlimit : ∀ limit, account.scope.limit = some limit → 0 ≤ limit) :
    (account.step use).scope.Covered (account.step use).objects ∧
      (account.step use).scope.limit = account.scope.limit := by
  obtain ⟨scope, objects⟩ := account
  simp only [step, Use.final_action, isOk_keep]
  cases use with
  | charge amount =>
      dsimp only
      split_ifs with hroom
      · exact ⟨h.counted huse hroom, rfl⟩
      · exact ⟨h, rfl⟩
  | keep object amount =>
      dsimp only
      split_ifs with hroom
      · exact ⟨h.keep huse.1 huse.2 hroom, rfl⟩
      · exact ⟨h, rfl⟩
  | newBuffer =>
      dsimp only
      split_ifs
      · exact ⟨h.newBuffer, rfl⟩
      · exact ⟨h, rfl⟩
  | looseBuffer => exact ⟨h.looseBuffer, rfl⟩
  | write id text =>
      dsimp only
      split_ifs with hroom hclosed
      · exact ⟨h.counted (Int.natCast_nonneg _) hroom, rfl⟩
      · exact ⟨h.written (Bool.eq_false_iff.mpr hclosed) hroom, rfl⟩
      · exact ⟨h, rfl⟩
  | close id => exact ⟨h.close id, rfl⟩
  | release id =>
      dsimp only
      split_ifs with hkept
      · exact ⟨(h.release hkept).close id, rfl⟩
      · exact ⟨h, rfl⟩
  | reset => exact ⟨.reset hlimit, limit_reset scope⟩

theorem Account.after_covered {account : Account} {uses : List Use}
    (huses : ∀ use ∈ uses, use.Regular) (h : account.scope.Covered account.objects)
    (hlimit : ∀ limit, account.scope.limit = some limit → 0 ≤ limit) :
    (account.after uses).scope.Covered (account.after uses).objects ∧
      (account.after uses).scope.limit = account.scope.limit := by
  induction uses generalizing account with
  | nil => exact ⟨h, rfl⟩
  | cons use uses ih =>
      rw [List.forall_mem_cons] at huses
      obtain ⟨hcovered, hsame⟩ := step_covered huses.1 h hlimit
      obtain ⟨hcovered', hsame'⟩ := ih huses.2 hcovered (hsame ▸ hlimit)
      exact ⟨hcovered', hsame'.trans hsame⟩

theorem length_reset (scope : Scope) : scope.reset.buffers.length = scope.buffers.length := by
  have hfold : ∀ (kept : List Kept) (scope : Scope),
      (kept.foldl closeKept scope).buffers.length = scope.buffers.length := by
    intro kept
    induction kept with
    | nil => exact fun _ => rfl
    | cons object kept ih =>
        intro scope
        rw [List.foldl_cons, ih]
        cases object <;> simp [closeKept, update]
  exact hfold scope.kept scope

/-- The buffer was made, and is not kept. -/
def Gone (id : BufferId) (scope : Scope) : Prop :=
  id < scope.buffers.length ∧ .buffer id ∉ scope.kept

theorem Use.gone {use : Use} (huse : use.Regular) (h : scope.Gone id) :
    (use.action.final scope).Gone id := by
  obtain ⟨hmade, hnot⟩ := h
  rw [final_action]
  cases use with
  | charge amount =>
      dsimp only
      split_ifs <;> exact ⟨hmade, hnot⟩
  | keep object amount =>
      dsimp only
      split_ifs
      · refine ⟨hmade, fun hmem => ?_⟩
        rcases List.mem_append.mp hmem with hmem | hmem
        · exact hnot hmem
        · exact huse.2 id (List.mem_singleton.mp hmem).symm
      · exact ⟨hmade, hnot⟩
  | newBuffer =>
      dsimp only
      split_ifs
      · refine ⟨?_, fun hmem => ?_⟩
        · rw [opened, List.length_append]
          exact Nat.lt_add_right _ hmade
        · rcases List.mem_append.mp hmem with hmem | hmem
          · exact hnot hmem
          · cases List.mem_singleton.mp hmem
            exact Nat.lt_irrefl _ hmade
      · exact ⟨hmade, hnot⟩
  | looseBuffer =>
      refine ⟨?_, hnot⟩
      rw [List.length_append]
      exact Nat.lt_add_right _ hmade
  | write other text =>
      dsimp only
      split_ifs
      · exact ⟨hmade, hnot⟩
      · exact ⟨by simpa [written, update] using hmade, hnot⟩
      · exact ⟨hmade, hnot⟩
  | close other => exact ⟨by simpa [update] using hmade, hnot⟩
  | release other =>
      dsimp only
      split_ifs
      · refine ⟨by simpa [update] using hmade, fun hmem => hnot ?_⟩
        exact List.mem_of_mem_erase hmem
      · exact ⟨hmade, hnot⟩
  | reset =>
      refine ⟨?_, List.not_mem_nil⟩
      rw [length_reset]
      exact hmade

theorem Use.gone_of_refunds {use : Use} (h : scope.Covered objects)
    (hrefunds : use.Refunds scope id) : (use.action.final scope).Gone id := by
  rw [final_action]
  cases use with
  | release other =>
      obtain ⟨rfl, hkept⟩ := hrefunds
      dsimp only
      rw [if_pos hkept]
      refine ⟨by simpa [update] using h.sound other hkept, fun hmem => ?_⟩
      have hagain : 0 < (scope.kept.erase (.buffer other)).count (.buffer other) :=
        List.count_pos_iff.mpr hmem
      have honce := h.once other
      rw [List.count_erase_self] at hagain
      omega
  | reset =>
      refine ⟨?_, List.not_mem_nil⟩
      rw [length_reset]
      exact hrefunds
  | _ => exact hrefunds.elim

theorem Account.gone_after {account : Account} {uses : List Use}
    (huses : ∀ use ∈ uses, use.Regular) (h : account.scope.Gone id) :
    (account.after uses).scope.Gone id := by
  induction uses generalizing account with
  | nil => exact h
  | cons use uses ih =>
      rw [List.forall_mem_cons] at huses
      exact ih huses.2 (Use.gone huses.1 h)

theorem release_of_gone (h : scope.Gone id) :
    release id scope = .error (.foreign .notKept) scope := by
  rw [release_eq, if_neg]
  simpa using h.2

/-- Whatever the uses of a scope, and whichever of them fail, the count covers the text of all kept
buffers and the sizes of all other objects kept since the last reset, and is within the limit. What
a buffer was charged is taken back once at most: behind its release, or behind a reset, every
release of it fails and changes nothing. -/
theorem usage_covered (name : String) (limit : Option Int)
    (hlimit : ∀ l, limit = some l → 0 ≤ l) (uses : List Use) (huses : ∀ use ∈ uses, use.Regular) :
    let account := (Account.fresh name limit).after uses
    account.scope.keptText + account.objects ≤ account.scope.used ∧
      0 ≤ account.scope.used ∧
      (∀ l, limit = some l → account.scope.used ≤ l) ∧
      ∀ (id : BufferId) (before later : List Use) (use : Use), uses = before ++ use :: later →
        use.Refunds ((Account.fresh name limit).after before).scope id →
        release id account.scope = .error (.foreign .notKept) account.scope := by
  have hfresh : (Account.fresh name limit).scope.Covered (Account.fresh name limit).objects :=
    .fresh name hlimit
  obtain ⟨hcovered, hsame⟩ := Account.after_covered huses hfresh hlimit
  refine ⟨hcovered.covers, ?_, fun l hl => hcovered.within l (hsame.trans hl), ?_⟩
  · have hcovers := hcovered.covers
    have hnonneg := hcovered.nonneg
    omega
  · rintro id before later use rfl hrefunds
    rw [List.forall_mem_append, List.forall_mem_cons] at huses
    obtain ⟨hbefore, -⟩ := Account.after_covered huses.1 hfresh hlimit
    have hgone : (((Account.fresh name limit).after before).step use).scope.Gone id :=
      Use.gone_of_refunds hbefore hrefunds
    have hsplit : (Account.fresh name limit).after (before ++ use :: later) =
        (((Account.fresh name limit).after before).step use).after later := by
      simp only [Account.after, List.foldl_append, List.foldl_cons]
    rw [hsplit]
    exact release_of_gone (Account.gone_after huses.2.2 hgone)

/-- A buffer that is filled, refused more text, closed, and written to again. -/
def Use.closingEarly : List Use :=
  [.newBuffer, .write 0 "ab", .keep (.text "x") 1, .looseBuffer, .write 1 "c", .write 0 "de",
    .close 0, .write 0 "f"]

/-- What was written to the closed buffer stays counted when the buffer is released, which it can be
only once. -/
theorem usage_covered_closingEarly :
    let account := (Account.fresh "scratch" (some 5)).after
      (Use.closingEarly ++ [.release 0, .release 0])
    account.scope.used = 3 ∧ account.objects = 1 ∧
      account.scope.keptText + account.objects ≤ account.scope.used ∧
      account.scope.used ≤ 5 ∧
      release 0 account.scope = .error (.foreign .notKept) account.scope := by
  have huses : ∀ use ∈ Use.closingEarly ++ [.release 0, .release 0], use.Regular := by
    unfold Use.closingEarly
    simp [Use.Regular]
  have hlimit : ∀ l, some (5 : Int) = some l → 0 ≤ l := by
    rintro _ ⟨⟩
    decide
  obtain ⟨hcovers, -, hwithin, honce⟩ := usage_covered "scratch" (some 5) hlimit _ huses
  refine ⟨by decide, by decide, hcovers, hwithin 5 rfl, ?_⟩
  exact honce 0 Use.closingEarly [.release 0] (.release 0) rfl ⟨rfl, by decide⟩

end Scope

end MacroScript
