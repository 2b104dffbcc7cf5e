import MacroScript.Action
import MacroScript.Function.Defined

/-!
# Allocation scopes

A scope counts the characters that its owner accumulates, and refuses to count
past its limit. It keeps objects until it is reset, among them buffers, which
collect text at the scope's expense. A buffer that is released gives its charge
back; a reset gives everything back and closes the buffers that are kept.

Buffers are numbered in the order of their making, so a buffer outlives its
release and the reset of its scope, and may be asked for its size afterwards. A
buffer may also belong to a scope that does not keep it. Whoever knows that
nothing refers to the latest buffers any more can have them forgotten.

The owner of a scope holds its buffers by handles. A handle whose buffer could
not be made stands for nothing, which has none of the operations of a buffer. It
can be dropped if the scope keeps a nothing, but that fails in the end, because
there is no size to give back.
-/
namespace MacroScript

/-- Collected text, in pieces with the last one first. A closed buffer can no longer be read
or extended, but it still has a size. -/
structure Buffer where
  pieces : List String
  isClosed : Bool
  deriving DecidableEq, Repr

namespace Buffer

def empty : Buffer := ⟨[], false⟩

def text (buffer : Buffer) : String := String.join buffer.pieces.reverse

def size (buffer : Buffer) : Nat :=
  buffer.pieces.foldr (fun piece total => total + piece.length) 0

def append (buffer : Buffer) (piece : String) : Buffer :=
  { buffer with pieces := piece :: buffer.pieces }

def close (buffer : Buffer) : Buffer := { buffer with isClosed := true }

@[simp] theorem size_empty : empty.size = 0 := rfl

@[simp] theorem size_append (buffer : Buffer) (piece : String) :
    (buffer.append piece).size = buffer.size + piece.length := rfl

@[simp] theorem size_close (buffer : Buffer) : buffer.close.size = buffer.size := rfl

@[simp] theorem text_empty : empty.text = "" := rfl

@[simp] theorem text_append (buffer : Buffer) (piece : String) :
    (buffer.append piece).text = buffer.text ++ piece := by
  simp [text, append]

@[simp] theorem text_close (buffer : Buffer) : buffer.close.text = buffer.text := rfl

end Buffer

/-- The number of a buffer of a scope. -/
abbrev BufferId := Nat

inductive Kept where
  | nothing
  | text (content : String)
  | defined (fn : DefinedFn)
  | buffer (id : BufferId)
  deriving DecidableEq, Repr

/-- A name, an optional limit, the characters counted so far, the objects kept, first kept
first, and the buffers made so far, first made first. -/
structure Scope where
  name : String
  limit : Option Int
  used : Int
  kept : List Kept
  buffers : List Buffer
  deriving Repr

namespace Scope

def fresh (name : String) (limit : Option Int) : Scope := ⟨name, limit, 0, [], []⟩

def size (scope : Scope) : Nat := scope.kept.length

def describe (scope : Scope) : String :=
  let limit := match scope.limit with
    | some limit => toString limit
    | none => "unlimited"
  s!"<Scope {scope.name} used={scope.used} limit={limit} objects={scope.size}>"

/-- The state of a buffer; a number that was never given out stands for a closed one. -/
def buffer (scope : Scope) (id : BufferId) : Buffer := scope.buffers[id]?.getD Buffer.empty.close

def allows (scope : Scope) (used : Int) : Bool :=
  match scope.limit with
  | some limit => used ≤ limit
  | none => true

def charge (amount : Int) : Action Scope Unit := fun scope =>
  match scope.limit with
  | some limit =>
      if limit < scope.used + amount then
        .error (.scopeExhausted scope.name (scope.used + amount) limit) scope
      else .ok () { scope with used := scope.used + amount }
  | none => .ok () { scope with used := scope.used + amount }

/-- Keep an object until the scope is reset. -/
def keep (object : Kept) (amount : Int) : Action Scope Unit := do
  charge amount
  modify fun scope => { scope with kept := scope.kept ++ [object] }

/-- Make a buffer that the scope does not keep. -/
def looseBuffer : Action Scope BufferId := fun scope =>
  .ok scope.buffers.length { scope with buffers := scope.buffers ++ [Buffer.empty] }

/-- Make a buffer that the scope keeps. -/
def newBuffer : Action Scope BufferId := do
  charge 0
  let id ← looseBuffer
  keep (.buffer id) 0
  return id

def update (id : BufferId) (change : Buffer → Buffer) (scope : Scope) : Scope :=
  { scope with buffers := scope.buffers.modify id change }

/-- Close a buffer; its charge stays. -/
def close (id : BufferId) : Action Scope Unit := modify (update id Buffer.close)

/-- Extend a buffer. The charge comes first, so it stays if the buffer turns out to be
closed. -/
def write (id : BufferId) (text : String) : Action Scope Unit := do
  charge text.length
  let scope ← get
  if (scope.buffer id).isClosed then throw (.foreign .closedBuffer)
  set (scope.update id fun buffer => buffer.append text)

def contents (id : BufferId) : Action Scope String := do
  let scope ← get
  if (scope.buffer id).isClosed then throw (.foreign .closedBuffer)
  return (scope.buffer id).text

def isClosed (id : BufferId) : Action Scope Bool := do
  let scope ← get
  return (scope.buffer id).isClosed

/-- Drop a kept buffer, give its charge back and close it. -/
def release (id : BufferId) : Action Scope Unit := do
  let scope ← get
  if scope.kept.contains (.buffer id) then
    set { scope with
      kept := scope.kept.erase (.buffer id)
      used := scope.used - (scope.buffer id).size }
    close id
  else throw (.foreign .notKept)

/-- Forget a buffer and all that were made after it. -/
def forget (id : BufferId) : Action Scope Unit :=
  modify fun scope => { scope with buffers := scope.buffers.take id }

/-- Use the buffer of a handle by an operation of the given name. -/
def withHandle {α : Type} (operation : String) (use : BufferId → Action Scope α) :
    Option BufferId → Action Scope α
  | some id => use id
  | none => throw (.foreign (.noAccessor HostValue.absent.typeName operation))

def handleSize : Option BufferId → Action Scope Nat
  | some id => do
      let scope ← get
      return (scope.buffer id).size
  | none => throw (.foreign (.noLength HostValue.absent.typeName))

/-- Drop what a handle stands for. A nothing that the scope keeps is dropped before the lack of a
size is noticed. -/
def releaseHandle : Option BufferId → Action Scope Unit
  | some id => release id
  | none => do
      let scope ← get
      if scope.kept.contains .nothing then
        set { scope with kept := scope.kept.erase .nothing }
        throw (.foreign (.noLength HostValue.absent.typeName))
      else throw (.foreign .notKept)

def closeKept (scope : Scope) : Kept → Scope
  | .buffer id => scope.update id Buffer.close
  | _ => scope

def reset (scope : Scope) : Scope :=
  { scope.kept.foldl closeKept scope with kept := [], used := 0 }

@[simp] theorem reset_used (scope : Scope) : scope.reset.used = 0 := rfl

@[simp] theorem reset_kept (scope : Scope) : scope.reset.kept = [] := rfl

theorem charge_eq (scope : Scope) (amount : Int) :
    charge amount scope =
      if scope.allows (scope.used + amount) then
        .ok () { scope with used := scope.used + amount }
      else .error (.scopeExhausted scope.name (scope.used + amount)
        (scope.limit.getD 0)) scope := by
  unfold charge allows
  cases scope.limit with
  | none => rfl
  | some limit =>
      by_cases h : limit < scope.used + amount
      · have : ¬ scope.used + amount ≤ limit := by omega
        simp [h, this]
      · have : scope.used + amount ≤ limit := by omega
        simp [h, this]

end Scope
end MacroScript
