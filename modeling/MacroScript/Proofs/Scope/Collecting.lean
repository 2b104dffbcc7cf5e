import MacroScript.Proofs.Scope.Stacked

/-!
# A scope with a buffer on top

While a buffer is being filled the scope is what it was before the buffer was
made, with that buffer on top. What the buffer holds then says everything about
the scope: what may still be written, what is read back, and that the scope is
as it was once the buffer is given back.

Without a limit nothing is ever refused. Two scopes that have made as many
buffers and keep the same objects are then alike to whoever uses only the
buffers that are the same in both.
-/
namespace MacroScript

theorem Buffer.size_eq (buffer : Buffer) : buffer.size = buffer.text.length := by
  obtain ⟨pieces, isClosed⟩ := buffer
  induction pieces with
  | nil => rfl
  | cons piece pieces ih =>
      have hsize : Buffer.size ⟨piece :: pieces, isClosed⟩ =
          Buffer.size ⟨pieces, isClosed⟩ + piece.length := rfl
      have htext : Buffer.text ⟨piece :: pieces, isClosed⟩ =
          Buffer.text ⟨pieces, isClosed⟩ ++ piece := Buffer.text_append ⟨pieces, isClosed⟩ piece
      rw [hsize, htext, ih, String.length_append]

namespace Scope

open MacroScript.Action

/-- The buffer that holds these pieces, the last one first. -/
def holding (pieces : List String) : Buffer := ⟨pieces, false⟩

/-- The scope with a buffer on top that holds these pieces. -/
def collecting (scope : Scope) (pieces : List String) : Scope :=
  { scope with
    used := scope.used + (holding pieces).size
    kept := scope.kept ++ [.buffer scope.buffers.length]
    buffers := scope.buffers ++ [holding pieces] }

variable {scope : Scope} {pieces : List String} {text : String}

theorem text_holding_append (later pieces : List String) :
    (holding (later ++ pieces)).text = (holding pieces).text ++ (holding later).text := by
  simp [holding, Buffer.text]

theorem opened_eq : scope.opened = scope.collecting [] := by
  simp [opened, collecting, holding, Buffer.empty, Buffer.size]

theorem buffer_collecting :
    (scope.collecting pieces).buffer scope.buffers.length = holding pieces := by
  simp [collecting, buffer]

theorem holding_collecting : Holding scope.buffers.length (scope.collecting pieces) where
  latest := by simp [collecting]
  kept := by simp [collecting]
  isOpen := by rw [buffer_collecting]; rfl

theorem Sound.collecting (h : scope.Sound) : (scope.collecting pieces).Sound := by
  intro id hid
  have hid' := sound_opened h id hid
  simpa [Scope.collecting, opened] using hid'

theorem write_collecting : write scope.buffers.length text (scope.collecting pieces) =
    if scope.allows (scope.used + (holding pieces).size + text.length) then
      .ok () (scope.collecting (text :: pieces))
    else
      .error (scope.exhausted (scope.used + (holding pieces).size + text.length))
        (scope.collecting pieces) := by
  have hallows : ∀ used, (scope.collecting pieces).allows used = scope.allows used := fun _ => rfl
  have hused : (scope.collecting pieces).used = scope.used + (holding pieces).size := rfl
  have hfault : ∀ used, (scope.collecting pieces).exhausted used = scope.exhausted used :=
    fun _ => rfl
  have hwritten : (scope.collecting pieces).written scope.buffers.length text =
      scope.collecting (text :: pieces) := by
    have hsize : (holding (text :: pieces)).size = (holding pieces).size + text.length := rfl
    have happend : (holding pieces).append text = holding (text :: pieces) := rfl
    simp [written, update, collecting, List.modify_eq_take_drop, happend, hsize, Int.add_assoc]
  rw [write_eq, hallows, hused, hfault, if_neg (Bool.eq_false_iff.mp holding_collecting.isOpen)]
  split_ifs with hroom
  · exact congrArg _ hwritten
  · rfl

theorem contents_collecting : contents scope.buffers.length (scope.collecting pieces) =
    .ok (holding pieces).text (scope.collecting pieces) := by
  rw [contents_eq, if_neg (Bool.eq_false_iff.mp holding_collecting.isOpen), buffer_collecting]

theorem discarded_collecting (h : scope.Sound) :
    (scope.collecting pieces).discarded scope.buffers.length = scope := by
  have hnot : Kept.buffer scope.buffers.length ∉ scope.kept := fun hmem =>
    Nat.lt_irrefl _ (h _ hmem)
  rw [discarded, buffer_collecting]
  simp [collecting, List.erase_append_right _ hnot]

section Unlimited

variable {α : Type} {a b : Scope} {action : Action Scope α} {id n : BufferId}

/-- Scopes without a limit that have made as many buffers and keep the same objects, where all
buffers from a number on are the same. -/
structure MatchesFrom (n : BufferId) (a b : Scope) : Prop where
  limit : a.limit = none ∧ b.limit = none
  kept : b.kept = a.kept
  count : b.buffers.length = a.buffers.length
  made : n ≤ a.buffers.length
  buffers : ∀ id, n ≤ id → b.buffers[id]? = a.buffers[id]?

namespace MatchesFrom

variable (h : MatchesFrom n a b)
include h

theorem buffer (hid : n ≤ id) : b.buffer id = a.buffer id := by
  unfold Scope.buffer
  rw [h.buffers id hid]

theorem allows (used : Int) : a.allows used = true ∧ b.allows used = true := by
  unfold Scope.allows
  rw [h.limit.1, h.limit.2]
  exact ⟨rfl, rfl⟩

theorem sound (ha : a.Sound) : b.Sound := by
  intro id hid
  rw [h.kept] at hid
  rw [h.count]
  exact ha id hid

theorem opened : MatchesFrom n a.opened b.opened where
  limit := h.limit
  kept := by simp only [Scope.opened, h.kept, h.count]
  count := by simp only [Scope.opened, List.length_append, h.count]
  made := by
    rw [Scope.opened, List.length_append]
    exact Nat.le_add_right_of_le h.made
  buffers id hid := by
    simp only [Scope.opened, List.getElem?_append, h.count, h.buffers id hid]

theorem counted (used used' : Int) :
    MatchesFrom n { a with used := used } { b with used := used' } :=
  ⟨h.limit, h.kept, h.count, h.made, h.buffers⟩

theorem erased (object : Kept) :
    MatchesFrom n { a with kept := a.kept.erase object } { b with kept := b.kept.erase object } :=
  ⟨h.limit, congrArg (List.erase · object) h.kept, h.count, h.made, h.buffers⟩

theorem updated (id : BufferId) (change : Buffer → Buffer) :
    MatchesFrom n (a.update id change) (b.update id change) where
  limit := h.limit
  kept := h.kept
  count := by simp only [update, List.length_modify, h.count]
  made := by simpa only [update, List.length_modify] using h.made
  buffers other hother := by simp only [update, List.getElem?_modify, h.buffers other hother]

theorem forgotten (hid : n ≤ id) : MatchesFrom n ((forget id).final a) ((forget id).final b) where
  limit := h.limit
  kept := h.kept
  count := by
    change (b.buffers.take id).length = (a.buffers.take id).length
    rw [List.length_take, List.length_take, h.count]
  made := by
    change n ≤ (a.buffers.take id).length
    rw [List.length_take]
    exact Nat.le_min.mpr ⟨hid, h.made⟩
  buffers other hother := by
    change (b.buffers.take id)[other]? = (a.buffers.take id)[other]?
    rw [List.getElem?_take, List.getElem?_take, h.buffers other hother]

end MatchesFrom

/-- What the buffer on top holds makes no difference to the buffers that are made later. -/
theorem MatchesFrom.collecting (h : a.limit = none) (pieces others : List String) :
    MatchesFrom (a.buffers.length + 1) (a.collecting pieces) (a.collecting others) where
  limit := ⟨h, h⟩
  kept := rfl
  count := by simp [Scope.collecting]
  made := by simp [Scope.collecting]
  buffers id hid := by
    have hlater : ∀ pieces, (a.collecting pieces).buffers[id]? = none := fun pieces =>
      List.getElem?_eq_none (by simpa [Scope.collecting] using hid)
    rw [hlater, hlater]

/-- The operation ends alike in scopes that match from a number on, and leaves such scopes. -/
def Blind (n : BufferId) (action : Action Scope α) : Prop :=
  ∀ a b, MatchesFrom n a b → action.result b = action.result a ∧
    MatchesFrom n (action.final a) (action.final b)

theorem newBuffer_blind : Blind n newBuffer := by
  intro a b h
  obtain ⟨ha, hb⟩ := h.allows a.used
  obtain ⟨hr, hf⟩ := eq_ok_iff.mp (newBuffer_of_allows (h.allows a.used).1)
  obtain ⟨hr', hf'⟩ := eq_ok_iff.mp (newBuffer_of_allows (h.allows b.used).2)
  rw [hr, hf, hr', hf', h.count]
  exact ⟨rfl, h.opened⟩

theorem write_blind (hid : n ≤ id) (text : String) : Blind n (write id text) := by
  intro a b h
  have ha := (h.allows (a.used + text.length)).1
  have hb := (h.allows (b.used + text.length)).2
  unfold result final
  rw [write_eq, write_eq, if_pos ha, if_pos hb, h.buffer hid]
  split_ifs
  · exact ⟨rfl, h.counted _ _⟩
  · exact ⟨rfl, (h.counted _ _).updated id _⟩

theorem contents_blind (hid : n ≤ id) : Blind n (contents id) := by
  intro a b h
  unfold result final
  rw [contents_eq, contents_eq, h.buffer hid]
  split_ifs
  · exact ⟨rfl, h⟩
  · exact ⟨rfl, h⟩

theorem release_blind (hid : n ≤ id) : Blind n ((release id).ensuring (forget id)) := by
  intro a b h
  have hrelease : (release id).result b = (release id).result a ∧
      MatchesFrom n ((release id).final a) ((release id).final b) := by
    unfold result final
    rw [release_eq, release_eq, h.kept]
    split_ifs
    · refine ⟨rfl, ?_⟩
      have hreleased := ((h.erased (.buffer id)).counted (a.used - (a.buffer id).size)
        (b.used - (b.buffer id).size)).updated id Buffer.close
      rwa [h.kept] at hreleased
    · exact ⟨rfl, h⟩
  rw [result_ensuring_ok rfl, result_ensuring_ok rfl, final_ensuring, final_ensuring]
  exact ⟨hrelease.1, hrelease.2.forgotten hid⟩

end Unlimited

end Scope

end MacroScript
