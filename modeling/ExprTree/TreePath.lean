import ExprTree.Fault

/-!
# Paths

A path leads from the root of a tree to one of its nodes, as the list of the
positions to descend to. Positions are unsigned words of 64 bits, and a path can
be written down without a tree at hand, so that it may well lead nowhere. Offsets
are signed, and an offset which leaves the range of positions is refused rather
than wrapped.
-/

namespace ExprTree

/-- The position `offset` places after `position`, if there is such a word. -/
def offsetPosition? (position : UInt64) (offset : Int64) : Option UInt64 :=
  let target := (position.toNat : Int) + offset.toInt
  if 0 ≤ target ∧ target < UInt64.size then
    some (UInt64.ofNat target.toNat)
  else
    none

theorem offsetPosition?_eq_some_iff {position target : UInt64} {offset : Int64} :
    offsetPosition? position offset = some target ↔
      (target.toNat : Int) = position.toNat + offset.toInt := by
  have hlt : target.toNat < UInt64.size := target.toNat_lt
  simp only [offsetPosition?]
  split
  · rename_i h
    rw [Option.some.injEq, ← UInt64.toNat_inj, UInt64.toNat_ofNat_of_lt' (by omega)]
    omega
  · simp only [reduceCtorEq, false_iff]
    omega

structure TreePath where
  entries : List UInt64
  deriving DecidableEq, Repr

namespace TreePath

/-- The path to the root of a tree. -/
def root : TreePath :=
  ⟨[]⟩

def isRoot (path : TreePath) : Bool :=
  path.entries.isEmpty

def length (path : TreePath) : Nat :=
  path.entries.length

/-- The position of the node among its siblings. -/
def last? (path : TreePath) : Option UInt64 :=
  path.entries.getLast?

def entry (path : TreePath) (index : Nat) : Except Fault UInt64 :=
  match path.entries[index]? with
  | some position => .ok position
  | none => .error (.indexOutOfBounds path.length index)

/-- One level down, to the child at `position`. -/
def push (path : TreePath) (position : UInt64) : TreePath :=
  ⟨path.entries ++ [position]⟩

@[simp] theorem length_push (path : TreePath) (position : UInt64) :
    (path.push position).length = path.length + 1 := by
  simp [push, length]

@[simp] theorem last?_push (path : TreePath) (position : UInt64) :
    (path.push position).last? = some position := by
  simp [push, last?]

/-- Up by `levels`, but not beyond the root. -/
def pop (path : TreePath) (levels : Nat) : TreePath :=
  ⟨path.entries.take (path.length - levels)⟩

@[simp] theorem pop_zero (path : TreePath) : path.pop 0 = path := by
  simp [pop, length]

theorem pop_push (path : TreePath) (position : UInt64) (levels : Nat) :
    (path.push position).pop (levels + 1) = path.pop levels := by
  simp only [pop, push, length, List.length_append, List.length_singleton]
  rw [show path.entries.length + 1 - (levels + 1) = path.entries.length - levels by omega,
    List.take_append_of_le_length (by omega)]

/-- Going up by one more level is going up by one from where the other levels lead. -/
theorem pop_succ (path : TreePath) (levels : Nat) :
    path.pop (levels + 1) = (path.pop levels).pop 1 := by
  simp only [pop, length, List.length_take, List.take_take]
  congr 2
  omega

theorem pop_of_length_le {path : TreePath} {levels : Nat} (h : path.length ≤ levels) :
    path.pop levels = root := by
  rw [pop, Nat.sub_eq_zero_of_le h, List.take_zero, root]

/-- Sideways, to the sibling `n` places further on. -/
def offset (path : TreePath) (n : Int64) : Except Fault TreePath :=
  match path.last? with
  | none => .error .offsetOfRoot
  | some position =>
    match offsetPosition? position n with
    | none => .error .offsetOutOfRange
    | some target => .ok ⟨path.entries.dropLast ++ [target]⟩

theorem offset_push {path : TreePath} {position target : UInt64} {n : Int64}
    (h : offsetPosition? position n = some target) :
    (path.push position).offset n = .ok (path.push target) := by
  simp only [offset, last?_push, h]
  simp [push]

end TreePath
end ExprTree
