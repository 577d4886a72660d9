/-!
# Classes of vertices that can be split again

Contracting a cycle joins its vertices to one class.  Classes are trees of
parent links; the smaller class is linked below the larger one and links are
never shortened, so that the latest unions can be undone one after another.

A table has an entry for each vertex.  The operations whose names end in a question mark
have no answer where one of these entries is read or written and does not exist, or where
a climb does not come to a root.

Main definitions:

- `Classes.find?`, `Classes.union?`, `Classes.rollback?`: the operations on the tables.
- `Classes.call` and `Classes.run`: a call, and one call after another.

Main results:

- `undo_link`: undoing a union restores the classes as they were.
-/

namespace FuzzCampaign

/-- A partition of the vertices `0, 1, …` into classes, with the unions made so
far, the latest first. -/
structure Classes where
  parent : Array Nat
  size : Array Nat
  history : List (Nat × Nat) := []
  deriving Repr, DecidableEq

namespace Classes

/-- Every vertex in a class of its own. -/
def discrete (n : Nat) : Classes where
  parent := Array.range n
  size := Array.replicate n 1

/-- The vertex to which a vertex is linked; roots are linked to themselves. -/
def parentOf (c : Classes) (v : Nat) : Nat := c.parent[v]?.getD v

/-- The size of the class with a given representative. -/
def sizeOf (c : Classes) (v : Nat) : Nat := c.size[v]?.getD 0

/-- Follow at most `fuel` links from a vertex. -/
def climb (c : Classes) : Nat → Nat → Nat
  | 0, v => v
  | fuel + 1, v => if c.parentOf v = v then v else climb c fuel (c.parentOf v)

/-- The representative of the class of a vertex. -/
def find (c : Classes) (v : Nat) : Nat := c.climb c.parent.size v

/-- Link one representative below another. -/
def link (c : Classes) (root child : Nat) : Classes where
  parent := c.parent.setIfInBounds child root
  size := c.size.setIfInBounds root (c.sizeOf root + c.sizeOf child)
  history := (root, child) :: c.history

/-- Join the classes of two vertices.  The answer tells whether they were
different. -/
def union (c : Classes) (a b : Nat) : Bool × Classes :=
  let a := c.find a
  let b := c.find b
  if a = b then (false, c)
  else if c.sizeOf a < c.sizeOf b then (true, c.link b a)
  else (true, c.link a b)

/-- How many unions were made. -/
def time (c : Classes) : Nat := c.history.length

/-- Undo the latest union. -/
def undo (c : Classes) : Classes :=
  match c.history with
  | [] => c
  | (root, child) :: earlier =>
    { parent := c.parent.setIfInBounds child child
      size := c.size.setIfInBounds root (c.sizeOf root - c.sizeOf child)
      history := earlier }

/-- Undo the latest unions, a given number of them. -/
def undoLatest : Nat → Classes → Classes
  | 0, c => c
  | k + 1, c => undoLatest k c.undo

/-- Undo all unions made after a time. -/
def rollback (c : Classes) (time : Nat) : Classes := undoLatest (c.time - time) c

/-! ## Operations that may have no answer -/

/-- Follow links from a vertex to a root, and read at most `fuel` links. -/
def climb? (c : Classes) : Nat → Nat → Option Nat
  | 0, _ => none
  | fuel + 1, v => do
    let parent ← c.parent[v]?
    if parent = v then some v else c.climb? fuel parent

/-- The representative of the class of a vertex. -/
def find? (c : Classes) (v : Nat) : Option Nat := c.climb? c.parent.size v

/-- Join the classes of two vertices. -/
def union? (c : Classes) (a b : Nat) : Option (Bool × Classes) := do
  let a ← c.find? a
  let b ← c.find? b
  if a = b then some (false, c)
  else
    let sizeA ← c.size[a]?
    let sizeB ← c.size[b]?
    some (true, if sizeA < sizeB then c.link b a else c.link a b)

/-- Undo the latest union. -/
def undo? (c : Classes) : Option Classes :=
  match c.history with
  | [] => none
  | (root, child) :: _ => do
    let sizeRoot ← c.size[root]?
    let sizeChild ← c.size[child]?
    if sizeChild ≤ sizeRoot ∧ child < c.parent.size then some c.undo else none

/-- Undo the latest unions, a given number of them. -/
def undoLatest? : Nat → Classes → Option Classes
  | 0, c => some c
  | k + 1, c => do
    let c ← c.undo?
    undoLatest? k c

/-- Undo all unions made after a time. -/
def rollback? (c : Classes) (time : Nat) : Option Classes := undoLatest? (c.time - time) c

/-- A call of the classes. -/
inductive Call where
  | union (a b : Nat)
  | time
  | rollback (time : Nat)
  deriving Repr, DecidableEq

/-- What is answered to a call. -/
inductive Answer where
  /-- Whether the classes were different. -/
  | joined (different : Bool)
  | time (time : Nat)
  | done
  deriving Repr, DecidableEq

/-- Answer a call. -/
def call (c : Classes) : Call → Option (Answer × Classes)
  | .union a b => (c.union? a b).map fun (different, c) => (.joined different, c)
  | .time => some (.time c.time, c)
  | .rollback time => (c.rollback? time).map fun c => (.done, c)

/-- Answer one call after another. -/
def run (c : Classes) : List Call → Option (List Answer × Classes)
  | [] => some ([], c)
  | call :: calls => do
    let (answer, c) ← c.call call
    let (answers, c) ← c.run calls
    return (answer :: answers, c)

@[simp] theorem time_discrete (n : Nat) : (discrete n).time = 0 := rfl

@[simp] theorem time_link (c : Classes) (root child : Nat) :
    (c.link root child).time = c.time + 1 := rfl

/-- Undoing a link between two different roots restores the classes. -/
theorem undo_link {c : Classes} {root child : Nat} (hne : root ≠ child)
    (hroot : child < c.parent.size) (hself : c.parentOf child = child)
    (hr : root < c.size.size) : (c.link root child).undo = c := by
  obtain ⟨parent, size, history⟩ := c
  simp only [parentOf] at hself
  simp only [link, undo, sizeOf, Classes.mk.injEq]
  refine ⟨?_, ?_, trivial⟩
  · apply Array.ext_getElem?
    intro i
    by_cases hi : child = i
    · subst hi
      rw [Array.getElem?_eq_getElem hroot] at hself
      simpa [hroot] using hself.symm
    · simp [hi]
  · apply Array.ext_getElem?
    intro i
    by_cases hi : root = i
    · subst hi
      simp [hr, hne]
    · simp [hi]

end Classes

end FuzzCampaign
