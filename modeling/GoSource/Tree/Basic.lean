import GoSource.Diagnostic

/-!
# Syntax trees

Every construct is a node of one of five shapes, tagged with a token: a leaf, a node with one or two
children, a list, or a bad node that stands for something which could not be parsed.  An absent optional part
is an absent child.  Nodes live in one array and are named by their index; a node's children are made before
the node, so their indexes are smaller.

* `Tree.add` makes a node.
* `Tree.children`, `Tree.child?` look one level down, `Tree.preorder` all the way.
* `Tree.stop` is where the text of a node ends.
-/

namespace GoSource

/-- The index of a node in its tree. -/
structure NodeId where
  /-- Place among the tree's nodes. -/
  index : Nat
  deriving DecidableEq, Repr, Inhabited, Hashable, Ord

/-- A part of a node, or the absence of an optional part. -/
abbrev Child := Option NodeId

/-- An occurrence of a token: its kind, extent and text, and the comments that stand before it. -/
structure Atom where
  /-- The token's kind, or the tag of a construct. -/
  token : Token := .illegal
  /-- Where it starts. -/
  pos : Pos := .none
  /-- Where it ends. -/
  stop : Pos := .none
  /-- Its text; empty for operators, keywords and tags. -/
  literal : String := ""
  /-- The comments before it. -/
  comments : List String := []
  deriving DecidableEq, Repr, Inhabited

/-- The text of an atom, or the spelling of its kind if it has none. -/
def Atom.text (a : Atom) : String :=
  if a.literal.isEmpty then a.token.text else a.literal

/-- The shape of a node. -/
inductive NodeShape where
  /-- No children. -/
  | leaf
  /-- One child. -/
  | unary (x : Child)
  /-- Two children. -/
  | binary (x y : Child)
  /-- Any number of children. -/
  | list (kids : List Child)
  /-- What was found instead of a construct, if anything, and why that is wrong. -/
  | bad (found : Child) (error : Diagnostic SourceFault)
  deriving DecidableEq, Repr, Inhabited

/-- A node: its own atom and its shape. -/
structure Node where
  /-- Tag, extent, text and comments. -/
  atom : Atom := {}
  /-- The children. -/
  shape : NodeShape := .leaf
  deriving DecidableEq, Repr, Inhabited

namespace Node

/-- The token that tags the node. -/
def op (n : Node) : Token :=
  n.atom.token

/-- Whether the node stands for something that could not be parsed. -/
def isBad (n : Node) : Bool :=
  match n.shape with
  | .bad .. => true
  | _ => false

/-- The diagnostic of a bad node. -/
def error? (n : Node) : Option (Diagnostic SourceFault) :=
  match n.shape with
  | .bad _ error => some error
  | _ => none

/-- The children in order. -/
def children (n : Node) : List Child :=
  match n.shape with
  | .leaf => []
  | .unary x => [x]
  | .binary x y => [x, y]
  | .list kids => kids
  | .bad found _ => [found]

end Node

/-- The nodes made so far. -/
structure Tree where
  /-- All nodes, in the order in which they were made. -/
  nodes : Array Node := #[]
  deriving DecidableEq, Repr, Inhabited

namespace Tree

/-- The number of nodes. -/
def size (t : Tree) : Nat :=
  t.nodes.size

/-- The node with a given index; an empty one past the end. -/
def node (t : Tree) (id : NodeId) : Node :=
  (t.nodes[id.index]?).getD {}

/-- The tag of a node. -/
def op (t : Tree) (id : NodeId) : Token :=
  (t.node id).op

/-- The text of a node's own atom. -/
def literal (t : Tree) (id : NodeId) : String :=
  (t.node id).atom.literal

/-- Where a node's own atom starts. -/
def pos (t : Tree) (id : NodeId) : Pos :=
  (t.node id).atom.pos

/-- Whether a node is bad. -/
def isBad (t : Tree) (id : NodeId) : Bool :=
  (t.node id).isBad

/-- The children of a node, absent ones included. -/
def children (t : Tree) (id : NodeId) : List Child :=
  (t.node id).children

/-- The children of a node that are there. -/
def present (t : Tree) (id : NodeId) : List NodeId :=
  (t.children id).filterMap fun c => c

/-- A child by its place; absent if the part is, or if there is no such place. -/
def part? (t : Tree) (id : NodeId) (place : Nat) : Child :=
  ((t.children id)[place]?).join

/-- Where the text of a node ends: the end of its last child that is there, or its own if it has none. -/
def stop (t : Tree) (id : NodeId) : Pos :=
  match (t.present id).getLast? with
  | some last => if last.index < id.index then t.stop last else (t.node id).atom.stop
  | none => (t.node id).atom.stop
termination_by id.index

/-- A node and everything under it, each node before its children. -/
def preorder (t : Tree) (id : NodeId) : List NodeId :=
  id :: (t.present id).flatMap fun c => if c.index < id.index then t.preorder c else []
termination_by id.index

/-- The nodes from `root` down that carry a tag, in source order. -/
def findAll (t : Tree) (root : NodeId) (op : Token) : List NodeId :=
  (t.preorder root).filter (t.op · = op)

/-- The bad nodes from `root` down, in source order. -/
def findBad (t : Tree) (root : NodeId) : List NodeId :=
  (t.preorder root).filter t.isBad

/-- The s-expression of a node: a leaf as its text, any other node as its tag and its children in
parentheses, an absent child as `nil`.  A bad node shows what was found in its place. -/
def render (t : Tree) (id : NodeId) : String :=
  let down (c : NodeId) : String := if c.index < id.index then t.render c else ""
  match (t.node id).shape with
  | .leaf => (t.node id).atom.text
  | .bad found _ => "(BAD" ++ found.elim "" (fun c => " " ++ down c) ++ ")"
  | _ =>
      "(" ++ (t.op id).text
        ++ String.join ((t.children id).map fun c => " " ++ c.elim "nil" down) ++ ")"
termination_by id.index

end Tree

/-- A child was asked for by a place that its node does not have. -/
structure ChildOutOfRange where
  /-- The place asked for. -/
  index : Nat
  /-- The number of children. -/
  count : Nat
  deriving DecidableEq, Repr, Inhabited

instance : Describe ChildOutOfRange where
  describe e :=
    "child index " ++ toString e.index ++ " out of range for node with " ++ toString e.count ++ " children"

/-- A child by its place. -/
def Tree.child? (t : Tree) (id : NodeId) (place : Nat) : Except ChildOutOfRange Child :=
  match (t.children id)[place]? with
  | some c => .ok c
  | none => .error { index := place, count := (t.children id).length }

/-- Actions that make nodes. -/
abbrev Build := StateM Tree

namespace Tree

/-- Makes a node and returns its index. -/
def add (atom : Atom) (shape : NodeShape) : Build NodeId :=
  fun t => (⟨t.nodes.size⟩, { t with nodes := t.nodes.push { atom, shape } })

/-- The tag of a construct at a position, without text of its own. -/
def tagAt (token : Token) (pos : Pos) : Atom :=
  { token, pos, stop := pos }

/-- A `FIELD` node: the list of its names if it has any, its type, and its tag literal if it has one.  It
starts where its first name starts, or else its type. -/
def addField (names : List NodeId) (typ : NodeId) (tag : Child) : Build NodeId := do
  let nameList ←
    match names with
    | [] => pure none
    | first :: _ =>
        let pos := (← get).pos first
        some <$> add (tagAt (.tag .names) pos) (.list (names.map some))
  let pos := (← get).pos (nameList.getD typ)
  add (tagAt (.tag .field) pos) (.list [nameList, some typ, tag])

end Tree

end GoSource
