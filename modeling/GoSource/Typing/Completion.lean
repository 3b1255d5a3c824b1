import GoSource.Typing.Layout

/-!
# Completion

Layouts are computed when they are asked for.  A type that stands on a declared type without meaning, or that
contains itself by value, stays incomplete and is tried again at the next question.

Types refer to each other in cycles, through declared types.  A type is marked while its layout is computed,
and a marked type is not entered again, so that computations nest at most as deep as there are types.  That
number is the `room` of `completeWithin`.
-/

namespace GoSource

namespace TypeTable

/-- Changes what is recorded about a type. -/
def update (tt : TypeTable) (t : TypeId) (f : TypeInfo → TypeInfo) : TypeTable :=
  { tt with types := tt.types.modify t.index f }

/-- Whether there is nothing to do for a type: its layout is complete, or being computed further out. -/
def isSettled (tt : TypeTable) (t : TypeId) : Bool :=
  (tt.layout t).isComplete || (tt.info t).completing

/-- The layout of a type, as far as it can be told now; `complete` completes other types.  A declared type has
the layout of what it stands for, and a fingerprint of its own. -/
def computeLayout (complete : TypeId → TableM Unit) (t : TypeId) : TableM (Option Layout) := do
  let tt ← get
  match tt.shape t with
  | .named _ _ none _ => pure none
  | .named _ _ (some u) _ => do
      complete u
      let tt ← get
      pure (some { tt.layout u with hash := (tt.layout t).hash })
  | shape => do
      shape.components.forM complete
      let outcome ← (shape.layout tt.target fun part => do
        complete part
        return (← get).layout part).run
      pure outcome.toOption

/-- Completes a type and all that it stands on, nesting no deeper than `room`. -/
def completeWithin : Nat → TypeId → TableM Unit
  | 0, _ => pure ()
  | room + 1, t => do
      if (← get).isSettled t then return
      modify (·.update t ({ · with completing := true }))
      let computed ← computeLayout (completeWithin room) t
      modify (·.update t fun info =>
        { info with layout := computed.getD info.layout, completing := false })

/-- Completes a type as far as possible. -/
def complete (t : TypeId) : TableM Unit := do
  completeWithin (← get).types.size t

/-- The layout of a type after an attempt to complete it. -/
def completed (t : TypeId) : TableM Layout := do
  complete t
  return (← get).layout t

end TypeTable

end GoSource
