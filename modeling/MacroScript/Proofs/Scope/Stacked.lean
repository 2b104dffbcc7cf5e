import MacroScript.Proofs.Scope.Restored
import Mathlib.Algebra.GroupWithZero.Nat

/-!
# Scopes as stacks

Buffers that are being filled lie on top of what a scope held before. Each of
them is kept and open, and what the scope has counted beyond its former count is
their text and nothing else. What lies below is as it was.
-/
namespace MacroScript

namespace Scope

variable {a b c : Scope} {id : BufferId}

/-- What the scope `b` has more than the scope `a` are open buffers that it keeps and pays for. -/
structure Stacked (a b : Scope) : Prop where
  buffers : a.buffers <+: b.buffers
  kept : a.kept <+: b.kept
  isOpen : ∀ id, a.buffers.length ≤ id → id < b.buffers.length →
    .buffer id ∈ b.kept ∧ (b.buffer id).isClosed = false
  used : b.used = a.used + ((b.buffers.drop a.buffers.length).map Buffer.size).sum

theorem Restored.eq (h : Restored a b) (ha : a.Sound) : b = a := by
  have hname := h.name
  have hlimit := h.limit
  have hkept := h.order ha
  have hused := h.used
  have hbuffers := h.buffers
  cases a
  cases b
  simp_all

theorem Stacked.refl (a : Scope) : Stacked a a where
  buffers := List.prefix_rfl
  kept := List.prefix_rfl
  isOpen id hle hlt := absurd hlt (Nat.not_lt.mpr hle)
  used := by simp

theorem Stacked.buffer (h : Stacked a b) (hid : id < a.buffers.length) :
    b.buffer id = a.buffer id := by
  unfold Scope.buffer
  rw [List.prefix_iff_getElem?.mp h.buffers id hid, List.getElem?_eq_getElem hid]

theorem Stacked.opened (h : Stacked a b) : Stacked a b.opened where
  buffers := h.buffers.trans (List.prefix_append ..)
  kept := h.kept.trans (List.prefix_append ..)
  isOpen := by
    intro id hle hlt
    have hlength : b.opened.buffers.length = b.buffers.length + 1 := by simp [Scope.opened]
    rw [hlength] at hlt
    rcases Nat.lt_succ_iff_lt_or_eq.mp hlt with hlt | rfl
    · have hbuffer : b.opened.buffer id = b.buffer id := by
        simp [Scope.opened, Scope.buffer, List.getElem?_append_left hlt]
      rw [hbuffer]
      exact ⟨List.mem_append_left _ (h.isOpen id hle hlt).1, (h.isOpen id hle hlt).2⟩
    · exact ⟨b.holding_opened.kept, b.holding_opened.isOpen⟩
  used := by
    have hlength := h.buffers.length_le
    have hdrop : b.opened.buffers.drop a.buffers.length =
        b.buffers.drop a.buffers.length ++ [Buffer.empty] :=
      List.drop_append_of_le_length hlength
    have hused : b.opened.used = b.used := rfl
    rw [hused, hdrop, List.map_append, List.sum_append, h.used]
    rfl

theorem Holding.buffers_eq (h : Holding id b) : b.buffers = b.buffers.take id ++ [b.buffer id] := by
  have hid : id < b.buffers.length := by
    rw [h.latest]
    exact Nat.lt_succ_self id
  have hbuffer : b.buffer id = b.buffers[id] := by
    simp [Scope.buffer, List.getElem?_eq_getElem hid]
  rw [hbuffer, List.take_append_getElem hid, List.take_of_length_le (Nat.le_of_eq h.latest)]

theorem Stacked.filled (h : Stacked a b) (hsound : b.Sound) (hid : a.buffers.length ≤ id)
    (hb : Holding id b) (hfilled : Filled id b c) (hc : Holding id c) : Stacked a c where
  buffers := by
    have hprefix : a.buffers <+: b.buffers.take id :=
      List.prefix_take_iff.mpr ⟨h.buffers, hid⟩
    rw [← hfilled.before] at hprefix
    exact hprefix.trans (List.take_prefix ..)
  kept := by
    rw [hfilled.order hsound]
    exact h.kept
  isOpen := by
    intro j hle hlt
    rw [hc.latest] at hlt
    rcases Nat.lt_succ_iff_lt_or_eq.mp hlt with hlt | rfl
    · have hsame : c.buffer j = b.buffer j := by
        have htake := congrArg (fun buffers => buffers[j]?) hfilled.before
        simp only [List.getElem?_take_of_lt hlt] at htake
        unfold Scope.buffer
        rw [htake]
      have hopen := h.isOpen j hle (by rw [hb.latest]; omega)
      rw [hsame]
      exact ⟨hfilled.kept.mem_iff.mpr hopen.1, hopen.2⟩
    · exact ⟨hc.kept, hc.isOpen⟩
  used := by
    have hdrop : ∀ {s : Scope}, Holding id s → s.buffers.drop a.buffers.length =
        (s.buffers.take id).drop a.buffers.length ++ [s.buffer id] := by
      intro s hs
      have hle : a.buffers.length ≤ (s.buffers.take id).length := by
        rw [List.length_take, hs.latest]
        omega
      conv => lhs; rw [hs.buffers_eq]
      exact List.drop_append_of_le_length hle
    have hused := h.used
    have hcharge := hfilled.charge
    rw [hdrop hb, List.map_append, List.sum_append, List.map_singleton, List.sum_singleton] at hused
    rw [hdrop hc, List.map_append, List.sum_append, List.map_singleton, List.sum_singleton,
      hfilled.before]
    omega

end Scope

end MacroScript
