import MacroScript.Proofs.Scope.Steps

/-!
# Scopes that are given back as they were

While the latest buffer of a scope is being filled, the scope differs from what
it was by the text of that buffer alone. Releasing the buffer and forgetting it
then leaves the scope exactly as it was before the buffer was made.

A scope of a running program only keeps buffers that were made. Without that the
buffers kept are the same in the end, but their order may not be.
-/
namespace MacroScript

namespace Scope

variable {a b c : Scope} {id : BufferId} {text : String}

/-- All buffers that are kept have been made. -/
def Sound (scope : Scope) : Prop := ∀ id, .buffer id ∈ scope.kept → id < scope.buffers.length

/-- Scopes that agree on everything but what their buffers hold. -/
structure Alike (a b : Scope) : Prop where
  name : b.name = a.name
  limit : b.limit = a.limit
  count : b.buffers.length = a.buffers.length
  kept : b.kept.Perm a.kept
  order : a.Sound → b.kept = a.kept

/-- Scopes that agree on everything, but for the order of what an unsound one keeps. -/
structure Restored (a b : Scope) : Prop extends Alike a b where
  used : b.used = a.used
  buffers : b.buffers = a.buffers

/-- Scopes that agree on everything but what one buffer holds, and what that costs. -/
structure Filled (id : BufferId) (a b : Scope) : Prop extends Alike a b where
  charge : b.used - (b.buffer id).size = a.used - (a.buffer id).size
  before : b.buffers.take id = a.buffers.take id

/-- The buffer is the latest one, and it is kept and open. -/
structure Holding (id : BufferId) (scope : Scope) : Prop where
  latest : scope.buffers.length = id + 1
  kept : .buffer id ∈ scope.kept
  isOpen : (scope.buffer id).isClosed = false

theorem sound_of_kept (h : a.kept = []) : a.Sound := by
  intro id hid
  rw [h] at hid
  cases hid

namespace Alike

theorem refl (a : Scope) : Alike a a := ⟨rfl, rfl, rfl, .refl _, fun _ => rfl⟩

theorem sound (h : Alike a b) (ha : a.Sound) : b.Sound := by
  intro id hid
  rw [h.order ha] at hid
  rw [h.count]
  exact ha id hid

theorem trans (hab : Alike a b) (hbc : Alike b c) : Alike a c where
  name := hbc.name.trans hab.name
  limit := hbc.limit.trans hab.limit
  count := hbc.count.trans hab.count
  kept := hbc.kept.trans hab.kept
  order ha := (hbc.order (hab.sound ha)).trans (hab.order ha)

end Alike

theorem Restored.refl (a : Scope) : Restored a a := ⟨.refl a, rfl, rfl⟩

theorem Restored.trans (hab : Restored a b) (hbc : Restored b c) : Restored a c :=
  ⟨hab.toAlike.trans hbc.toAlike, hbc.used.trans hab.used, hbc.buffers.trans hab.buffers⟩

theorem Filled.refl (id : BufferId) (a : Scope) : Filled id a a := ⟨.refl a, rfl, rfl⟩

theorem Filled.trans (hab : Filled id a b) (hbc : Filled id b c) : Filled id a c :=
  ⟨hab.toAlike.trans hbc.toAlike, hbc.charge.trans hab.charge, hbc.before.trans hab.before⟩

theorem Restored.buffer (h : Restored a b) (id : BufferId) : b.buffer id = a.buffer id := by
  unfold Scope.buffer
  rw [h.buffers]

theorem Restored.filled (h : Restored a b) (id : BufferId) : Filled id a b := by
  refine ⟨h.toAlike, ?_, ?_⟩
  · rw [h.used, h.buffer]
  · rw [h.buffers]

theorem Restored.holding (h : Restored a b) (ha : Holding id a) : Holding id b where
  latest := h.count.trans ha.latest
  kept := h.kept.mem_iff.mpr ha.kept
  isOpen := by
    rw [h.buffer]
    exact ha.isOpen

/-- The scope after a buffer has been made. -/
def opened (scope : Scope) : Scope :=
  { scope with
    kept := scope.kept ++ [.buffer scope.buffers.length]
    buffers := scope.buffers ++ [Buffer.empty] }

theorem newBuffer_of_allows (h : a.allows a.used = true) :
    newBuffer a = .ok a.buffers.length a.opened := by
  rw [newBuffer_eq, if_pos h]
  rfl

theorem newBuffer_of_not_allows (h : ¬ a.allows a.used = true) :
    newBuffer a = .error (a.exhausted a.used) a := by
  rw [newBuffer_eq, if_neg h]

theorem buffer_opened (scope : Scope) :
    scope.opened.buffer scope.buffers.length = Buffer.empty := by
  simp [opened, Scope.buffer]

theorem holding_opened (scope : Scope) : Holding scope.buffers.length scope.opened where
  latest := by simp [opened]
  kept := by simp [opened]
  isOpen := by
    rw [buffer_opened]
    rfl

theorem sound_opened (h : a.Sound) : a.opened.Sound := by
  intro id hid
  simp only [opened, List.mem_append, List.mem_singleton, Kept.buffer.injEq, List.length_append,
    List.length_singleton] at hid ⊢
  rcases hid with hid | rfl
  · exact Nat.lt_succ_of_lt (h id hid)
  · exact Nat.lt_succ_self _

def written (scope : Scope) (id : BufferId) (text : String) : Scope :=
  { scope with used := scope.used + text.length }.update id (·.append text)

theorem buffer_written (h : Holding id a) :
    (a.written id text).buffer id = (a.buffer id).append text := by
  have hid : id < a.buffers.length := by
    rw [h.latest]
    exact Nat.lt_succ_self id
  simp [written, update, Scope.buffer, List.getElem?_eq_getElem hid]

theorem holding_written (h : Holding id a) : Holding id (a.written id text) where
  latest := by simpa [written, update] using h.latest
  kept := h.kept
  isOpen := by
    rw [buffer_written h]
    exact h.isOpen

theorem filled_written (h : Holding id a) : Filled id a (a.written id text) := by
  refine ⟨⟨rfl, rfl, by simp [written, update], .refl _, fun _ => rfl⟩, ?_, ?_⟩
  · rw [buffer_written h, Buffer.size_append]
    simp only [written, update]
    omega
  · simp only [written, update, List.take_modify]
    exact List.modify_eq_self (List.length_take_le _ _)

/-- The scope after a kept buffer has been released and forgotten. -/
def discarded (scope : Scope) (id : BufferId) : Scope :=
  { scope with
    kept := scope.kept.erase (.buffer id)
    used := scope.used - (scope.buffer id).size
    buffers := scope.buffers.take id }

theorem releaseForget_eq (h : Holding id a) :
    (release id).ensuring (forget id) a = .ok () (a.discarded id) := by
  have hrelease := @release_eq a id
  rw [if_pos (List.contains_iff_mem.mpr h.kept)] at hrelease
  have hforget : ∀ s, forget id s = .ok () { s with buffers := s.buffers.take id } := fun _ => rfl
  rw [Action.ensuring_ok hrelease (hforget _)]
  simp only [discarded, update, List.take_modify]
  rw [List.modify_eq_self (List.length_take_le _ _)]

theorem restored_discarded (h : Filled a.buffers.length a.opened b) :
    Restored a (b.discarded a.buffers.length) where
  name := h.name
  limit := h.limit
  count := by
    have hbefore := congrArg List.length h.before
    simpa [discarded, opened] using hbefore
  kept := by
    refine (h.kept.erase (.buffer a.buffers.length)).trans ?_
    have hperm := (List.perm_append_singleton (Kept.buffer a.buffers.length) a.kept).erase
      (Kept.buffer a.buffers.length)
    rwa [List.erase_cons_head] at hperm
  order ha := by
    have hnot : Kept.buffer a.buffers.length ∉ a.kept := fun hmem => Nat.lt_irrefl _ (ha _ hmem)
    simp only [discarded]
    rw [h.order (sound_opened ha)]
    simp [opened, List.erase_append_right _ hnot]
  used := by
    have hcharge := h.charge
    rw [buffer_opened] at hcharge
    simpa [discarded, opened] using hcharge
  buffers := by
    have hbefore := h.before
    simpa [discarded, opened] using hbefore

end Scope

end MacroScript
