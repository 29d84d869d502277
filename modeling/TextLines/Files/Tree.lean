import TextLines.Bytes

/-!
# Trees of files

A `Tree` holds what stands at which place, a place being the names that lead to it from the root
directory. It branches by name, so a walk from place to place can go down with the tree at hand.

`find?` is the view of a tree. `put` and `remove` are described by it (`find?_put`, `find?_remove`),
so nothing else depends on the order in which the names of a directory are kept.

Permissions are as coarse as the programs here can tell them apart: a file can be read and written
or neither, and a directory can be entered or not. That a directory takes no new names, or that a
file cannot be written, is a matter of the single change (`Files.Fate`).
-/

namespace TextLines.Files

/-- The names that lead from the root directory to a place. -/
abbrev Place := List Bytes

/-- What stands at a place. -/
inductive Entry where
  /-- A file with its content. -/
  | file (content : Bytes)
  /-- A directory. -/
  | directory
  /-- A file of so many bytes that may be neither read nor written. -/
  | lockedFile (size : Nat)
  /-- A file of so many bytes that can be opened for reading, and of which every read fails. -/
  | brokenFile (size : Nat)
  /-- A directory that may be neither listed nor entered. -/
  | lockedDirectory
  /-- A symbolic link. -/
  | link (target : Bytes)
  /-- A device that is empty to read and takes whatever is written. -/
  | nullDevice
  /-- A device of endless zero bytes to read that takes whatever is written. -/
  | zeroDevice
  /-- A device of endless zero bytes to read on which there is never room to write. -/
  | fullDevice
  deriving DecidableEq, Repr

/-- Whether the entry is a directory. -/
def Entry.isDirectory : Entry → Bool
  | .directory => true
  | .lockedDirectory => true
  | _ => false

/-- Names with what stands under them, deeper places below. -/
inductive Tree where
  /-- No names. -/
  | empty
  /-- A name with what stands there, if anything does, and with what is below it; then the other
  names beside it. -/
  | branch (name : Bytes) (entry : Option Entry) (below others : Tree)

/-- What stands at a place, if anything does, with everything below it. -/
structure Node where
  /-- What stands at the place. -/
  entry : Option Entry
  /-- What is below it. -/
  below : Tree

/-! ## Names -/

namespace Tree

/-- What a name stands for. -/
def under : Tree → Bytes → Node
  | .empty, _ => ⟨none, .empty⟩
  | .branch n entry below others, name =>
    if n == name then ⟨entry, below⟩ else others.under name

/-- The tree in which `f` has changed what a name stands for. -/
def modify (f : Node → Node) (name : Bytes) : Tree → Tree
  | .empty => .branch name (f ⟨none, .empty⟩).entry (f ⟨none, .empty⟩).below .empty
  | .branch n entry below others =>
    if n == name then .branch n (f ⟨entry, below⟩).entry (f ⟨entry, below⟩).below others
    else .branch n entry below (others.modify f name)

theorem under_modify (f : Node → Node) (name other : Bytes) (t : Tree) :
    (t.modify f name).under other = if other = name then f (t.under name) else t.under other := by
  induction t with
  | empty =>
    by_cases h : other = name
    · simp [modify, under, h]
    · simp [modify, under, h, Ne.symm h]
  | branch n entry below others _ ih =>
    by_cases hn : n = name
    · by_cases h : other = name
      · simp [modify, under, hn, h]
      · simp [modify, under, hn, h, Ne.symm h]
    · by_cases h : n = other
      · subst h
        simp [modify, under, hn]
      · simp [modify, under, hn, h, ih]

end Tree

/-! ## Places -/

namespace Node

/-- What stands at a place that is given from here. -/
def reach (x : Node) (place : Place) : Node :=
  place.foldl (fun x name => x.below.under name) x

/-- `f` changes what stands at a place that is given from here. -/
def alter (f : Node → Node) : Place → Node → Node
  | [], x => f x
  | name :: rest, x => { x with below := x.below.modify (alter f rest) name }

/-- A change at a place is seen at the places below it, as `f` has made it, and at no others. -/
theorem entry_reach_alter (f : Node → Node) (place other : Place) (x : Node) :
    ((x.alter f place).reach other).entry =
      if place <+: other then ((f (x.reach place)).reach (other.drop place.length)).entry
      else (x.reach other).entry := by
  induction place generalizing other x with
  | nil => simp [alter, reach]
  | cons name rest ih =>
    cases other with
    | nil => simp [alter, reach]
    | cons first more =>
      simp only [alter, reach, List.foldl_cons, Tree.under_modify, List.cons_prefix_cons,
        List.length_cons, List.drop_succ_cons] at ih ⊢
      by_cases h : first = name
      · simp [h, ih]
      · simp [h, Ne.symm h]

end Node

/-! ## Trees -/

namespace Tree

/-- The root directory, which is always there. -/
def root (t : Tree) : Node :=
  ⟨some .directory, t⟩

/-- What stands at a place. -/
def find? (t : Tree) (place : Place) : Option Entry :=
  (t.root.reach place).entry

/-- The tree with an entry at a place, instead of what stood there. -/
def put (t : Tree) (place : Place) (entry : Entry) : Tree :=
  (t.root.alter (fun x => { x with entry := some entry }) place).below

/-- The tree without what stands at a place and below it. -/
def remove (t : Tree) (place : Place) : Tree :=
  (t.root.alter (fun _ => ⟨none, .empty⟩) place).below

theorem find?_nil (t : Tree) : t.find? [] = some .directory := rfl

/-- Places below a place depend only on what is below it. -/
theorem entry_reach_congr {x y : Node} (h : x.below = y.below) {place : Place}
    (hp : place ≠ []) : (x.reach place).entry = (y.reach place).entry := by
  cases place with
  | nil => exact absurd rfl hp
  | cons name rest => simp [Node.reach, h]

theorem reach_nothing (place : Place) : (Node.mk none .empty).reach place = ⟨none, .empty⟩ := by
  induction place with
  | nil => rfl
  | cons name rest ih => exact ih

theorem find?_alter (t : Tree) (f : Node → Node) {place other : Place} (h : other ≠ []) :
    (t.root.alter f place).below.find? other =
      if place <+: other then ((f (t.root.reach place)).reach (other.drop place.length)).entry
      else t.find? other := by
  have hc : (t.root.alter f place).below.find? other = ((t.root.alter f place).reach other).entry :=
    @entry_reach_congr (t.root.alter f place).below.root (t.root.alter f place) rfl other h
  rw [hc, Node.entry_reach_alter]
  rfl

theorem find?_put (t : Tree) {place other : Place} (entry : Entry) (h : other ≠ []) :
    (t.put place entry).find? other = if other = place then some entry else t.find? other := by
  rw [put, find?_alter t _ h]
  by_cases hp : place <+: other
  · obtain ⟨rest, rfl⟩ := hp
    rw [if_pos (List.prefix_append _ _), List.drop_left]
    cases rest with
    | nil => simp [Node.reach]
    | cons name rest =>
      have hc := @entry_reach_congr ⟨some entry, (t.root.reach place).below⟩ (t.root.reach place)
        rfl (name :: rest) (by simp)
      rw [hc, if_neg (by simp), find?]
      simp [Node.reach]
  · rw [if_neg hp, if_neg fun e : other = place => hp (e ▸ List.prefix_refl _)]

theorem find?_remove (t : Tree) {place other : Place} (h : other ≠ []) :
    (t.remove place).find? other = if place <+: other then none else t.find? other := by
  rw [remove, find?_alter t _ h, reach_nothing]

/-- The places below `above`, each in front of those below it, with what stands there. -/
def entriesBelow (above : Place) : Tree → List (Place × Entry)
  | .empty => []
  | .branch name entry below others =>
    let place := above ++ [name]
    entry.toList.map (fun entry => (place, entry)) ++
      (below.entriesBelow place ++ others.entriesBelow above)

/-- The places at which something stands, each in front of those below it, with what stands
there. -/
def entries (t : Tree) : List (Place × Entry) :=
  t.entriesBelow []

end Tree

end TextLines.Files
