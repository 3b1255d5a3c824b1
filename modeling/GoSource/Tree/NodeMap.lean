import GoSource.Tree.Basic

/-!
# Annotations

A `NodeMap` holds a value for some of the nodes of a tree.
-/

namespace GoSource

/-- Values by node; slots past the end of the array are empty. -/
structure NodeMap (α : Type) where
  /-- One slot a node. -/
  slots : Array (Option α) := #[]
  deriving Repr, Inhabited

namespace NodeMap

variable {α : Type}

/-- The value of a node. -/
def get? (m : NodeMap α) (id : NodeId) : Option α :=
  (m.slots[id.index]?).join

/-- Whether a node has a value. -/
def contains (m : NodeMap α) (id : NodeId) : Bool :=
  (m.get? id).isSome

/-- Gives a node a value, in place of the one it has. -/
def insert (m : NodeMap α) (id : NodeId) (value : α) : NodeMap α :=
  let slots := m.slots ++ Array.replicate (id.index + 1 - m.slots.size) none
  { slots := slots.setIfInBounds id.index (some value) }

/-- Changes the value of a node that has one. -/
def modify (m : NodeMap α) (id : NodeId) (f : α → α) : NodeMap α :=
  { slots := m.slots.modify id.index (Option.map f) }

/-- The nodes that have a value, with their values, in the order of the nodes. -/
def toList (m : NodeMap α) : List (NodeId × α) :=
  m.slots.toList.zipIdx.filterMap fun (slot, i) => slot.map fun v => (⟨i⟩, v)

/-- The number of nodes that have a value. -/
def size (m : NodeMap α) : Nat :=
  m.toList.length

/-- Whether no node has a value. -/
def isEmpty (m : NodeMap α) : Bool :=
  m.toList.isEmpty

end NodeMap

end GoSource
