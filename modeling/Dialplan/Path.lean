/-!
# Paths

The place of a node in a tree, as the child indices on the way from the root. The root has the empty
path, written `/`; any other path is written with a slash before every index.
-/

namespace Dialplan

/-- Child indices from the root down. -/
structure Path where
  indices : List Nat
deriving DecidableEq, Repr

namespace Path

/-- The place of the root. -/
def root : Path := ⟨[]⟩

/-- The place of the child at `index`. -/
def child (p : Path) (index : Nat) : Path := ⟨p.indices ++ [index]⟩

/-- The place of the parent; the root has none. -/
def parent? (p : Path) : Option Path :=
  if p.indices.isEmpty then none else some ⟨p.indices.dropLast⟩

/-- The index among the parent's children; the root has none. -/
def index? (p : Path) : Option Nat := p.indices.getLast?

/-- The number of steps from the root. -/
def depth (p : Path) : Nat := p.indices.length

/-- Whether this is the root's place. -/
def isRoot (p : Path) : Bool := p.indices.isEmpty

/-- Whether `p` lies at or below `ancestor`. -/
def startsWith (p ancestor : Path) : Bool := ancestor.indices.isPrefixOf p.indices

/-- The written form. -/
def text (p : Path) : String :=
  if p.isRoot then "/" else String.join (p.indices.map fun i => "/" ++ toString i)

@[simp] theorem parent?_child (p : Path) (i : Nat) : (p.child i).parent? = some p := by
  simp [child, parent?]

@[simp] theorem index?_child (p : Path) (i : Nat) : (p.child i).index? = some i := by
  simp [child, index?]

@[simp] theorem depth_child (p : Path) (i : Nat) : (p.child i).depth = p.depth + 1 := by
  simp [child, depth]

example : (Path.mk [0, 2]).text = "/0/2" ∧ Path.root.text = "/" := by decide

end Path

end Dialplan
