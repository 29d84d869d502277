import TextLines.Files.Tree
import TextLines.Files.Path
import TextLines.Files.Errno

/-!
# Looking paths up

A `FileSystem` is a tree of files with a working directory. `lookUp` follows a path through it like
the system does: step by step, through `.`, `..` and symbolic links, each with its own way to fail.

A walk goes along a `Trail`, the directories above the one it is in, so that each step costs no more
than the look at one name. Where a path leads is a `Spot`; `holds_of_lookUp` says that a spot tells
the truth about the tree.
-/

namespace TextLines.Files

open Bytes

/-- What becomes of a change that nothing in the tree stands against. The disk can be full or read
from only, and a directory can be closed to new names. -/
inductive Fate where
  /-- The change is made. -/
  | done
  /-- Nothing is changed. -/
  | refused
  /-- Writing breaks off when so many bytes are in the file. -/
  | cut (count : Nat)
  deriving DecidableEq, Repr

/-- A tree of files as a program sees it that runs in one of its directories. -/
structure FileSystem where
  /-- All files. -/
  tree : Tree
  /-- The directory at which relative paths start. -/
  workingDirectory : Place
  /-- What becomes of the changes to come, in order. Those behind the last one are made. -/
  fates : List Fate := []
  /-- The other names that the file at a place has. -/
  otherNames : Place → List Place := fun _ => []

/-- Where a path leads. -/
inductive Spot where
  /-- To something that exists. -/
  | found (place : Place) (entry : Entry)
  /-- To a name that is free in a directory that exists. -/
  | vacant (directory : Place) (name : Bytes)
  deriving DecidableEq, Repr

/-- That a tree is as a spot says. -/
def Spot.Holds (t : Tree) : Spot → Prop
  | .found place entry => t.find? place = some entry
  | .vacant directory name =>
    t.find? directory = some .directory ∧ t.find? (directory ++ [name]) = none

/-- What an opened path gives to read. -/
inductive Opened where
  /-- The content at the time of opening. -/
  | content (bytes : Bytes)
  /-- So many zero bytes. -/
  | zeros (count : Nat)
  /-- Nothing: it can be opened, as a directory can, but every read fails. -/
  | unreadable (errno : Errno)
  deriving DecidableEq, Repr

/-- The most symbolic links that one look-up follows. -/
def maxLinks : Nat := 40

/-- The longest name of a directory entry. -/
def maxNameLength : Nat := 255

/-- The length from which on a path is refused as a whole. -/
def maxPathLength : Nat := 4096

/-- The largest position in an opened file, so the most that can be read of anything. -/
def maxOffset : Nat := 0x7fffffffffffffff

/-! ## Trails -/

/-- How a directory was reached: the directories from it up to the root, which is left out, each
with its name and with what is in it. -/
abbrev Trail := List (Bytes × Tree)

namespace Trail

/-- The place of the directory. -/
def place (trail : Trail) : Place :=
  (trail.map (·.1)).reverse

/-- What is in the directory. -/
def contents (t : Tree) : Trail → Tree
  | [] => t
  | (_, below) :: _ => below

/-- That every step of a trail leads to a directory of the tree. -/
def Leads (t : Tree) : Trail → Prop
  | [] => True
  | (name, below) :: above =>
    Leads t above ∧ (contents t above).under name = ⟨some .directory, below⟩

theorem reach_place {t : Tree} {trail : Trail} (h : trail.Leads t) :
    t.root.reach trail.place = ⟨some .directory, contents t trail⟩ := by
  induction trail with
  | nil => rfl
  | cons step above ih =>
    have ha := ih h.1
    simp only [place, List.map_cons, List.reverse_cons, Node.reach, List.foldl_append,
      List.foldl_cons, List.foldl_nil] at ha ⊢
    rw [ha]
    exact h.2

theorem find?_place {t : Tree} {trail : Trail} (h : trail.Leads t) :
    t.find? trail.place = some .directory := by
  rw [Tree.find?, reach_place h]

theorem find?_place_append {t : Tree} {trail : Trail} (h : trail.Leads t) (name : Bytes) :
    t.find? (trail.place ++ [name]) = ((contents t trail).under name).entry := by
  have hr := reach_place h
  simp only [Tree.find?, Node.reach, List.foldl_append, List.foldl_cons, List.foldl_nil] at hr ⊢
  rw [hr]

theorem Leads.tail {t : Tree} {trail : Trail} (h : trail.Leads t) : Leads t trail.tail := by
  cases trail with
  | nil => trivial
  | cons step above => exact h.1

end Trail

/-- The trail to a place, if it is a directory and directories lead to it. -/
def Tree.trail? (t : Tree) (place : Place) : Option Trail :=
  place.foldlM (fun trail name =>
    match (Trail.contents t trail).under name with
    | ⟨some .directory, below⟩ => some ((name, below) :: trail)
    | _ => none) []

theorem Tree.leads_of_trail? {t : Tree} {place : Place} {trail : Trail}
    (h : t.trail? place = some trail) : trail.Leads t := by
  have step : ∀ (place : Place) (start : Trail), start.Leads t →
      place.foldlM (fun trail name =>
        match (Trail.contents t trail).under name with
        | ⟨some .directory, below⟩ => some ((name, below) :: trail)
        | _ => none) start = some trail → trail.Leads t := by
    intro place
    induction place with
    | nil =>
      intro start hs he
      simpa [← Option.some.inj he] using hs
    | cons name rest ih =>
      intro start hs he
      rw [List.foldlM_cons] at he
      split at he
      · next below hu => exact ih ((name, below) :: start) ⟨hs, hu⟩ he
      · simp at he
  exact step place [] trivial h

/-- Why nothing is reached through an entry that is no directory and no link. -/
def Entry.obstacle : Entry → Errno
  | .lockedDirectory => .accessDenied
  | _ => .notDirectory

/-- Takes the steps `names` from the directory at the end of `trail`; `links` more symbolic links
may be followed. A link at the end is followed only if `followLast` says so. -/
def Tree.walk (t : Tree) (followLast : Bool) (links : Nat) (trail : Trail) (names : List Bytes) :
    Except Errno Spot :=
  match names with
  | [] => .ok (.found trail.place .directory)
  | name :: rest =>
    if name == [dot] then t.walk followLast links trail rest
    else if name == [dot, dot] then t.walk followLast links trail.tail rest
    else if maxNameLength < name.length then .error .nameTooLong
    else
      match (Trail.contents t trail).under name with
      | ⟨none, _⟩ => if rest.isEmpty then .ok (.vacant trail.place name) else .error .noEntry
      | ⟨some .directory, below⟩ => t.walk followLast links ((name, below) :: trail) rest
      | ⟨some (.link target), _⟩ =>
        if rest.isEmpty && !followLast then .ok (.found (trail.place ++ [name]) (.link target))
        else
          match links with
          | 0 => .error .linkLoop
          | links + 1 =>
            t.walk followLast links (if Path.isAbsolute target then [] else trail)
              (Path.names target ++ rest)
      | ⟨some entry, _⟩ =>
        if rest.isEmpty then .ok (.found (trail.place ++ [name]) entry)
        else .error entry.obstacle
termination_by (links, names.length)

theorem Tree.holds_of_walk {t : Tree} {followLast : Bool} {links : Nat} {trail : Trail}
    {names : List Bytes} {spot : Spot} (hl : trail.Leads t)
    (h : t.walk followLast links trail names = .ok spot) : spot.Holds t := by
  fun_induction Tree.walk t followLast links trail names generalizing spot
  case case1 =>
    obtain rfl := Except.ok.inj h
    exact Trail.find?_place hl
  case case2 ih => exact ih hl h
  case case3 ih => exact ih hl.tail h
  case case5 _ _ hu _ =>
    obtain rfl := Except.ok.inj h
    exact ⟨Trail.find?_place hl, by rw [Trail.find?_place_append hl, hu]⟩
  case case7 below hu ih => exact ih ⟨hl, hu⟩ h
  case case8 hu _ | case11 hu _ =>
    obtain rfl := Except.ok.inj h
    exact (Trail.find?_place_append hl _).trans (congrArg Node.entry hu)
  case case10 target _ _ _ _ ih =>
    by_cases ha : Path.isAbsolute target = true
    · simp only [ha, if_true, dif_pos] at ih h
      exact ih trivial h
    · simp only [ha, if_false, dif_neg, Bool.false_eq_true, not_false_eq_true] at ih h
      exact ih hl h
  all_goals simp at h

namespace FileSystem

/-- Where a path leads. The system sees a path only up to its first zero byte. -/
def lookUp (fs : FileSystem) (path : Bytes) (followLast : Bool) : Except Errno Spot :=
  let path := untilNul path
  if path.isEmpty then .error .noEntry
  else if maxPathLength ≤ path.length then .error .nameTooLong
  else
    match fs.tree.trail? (if Path.isAbsolute path then [] else fs.workingDirectory) with
    | some trail => fs.tree.walk followLast maxLinks trail (Path.names path)
    | none => .error .noEntry

theorem holds_of_lookUp {fs : FileSystem} {path : Bytes} {followLast : Bool} {spot : Spot}
    (h : fs.lookUp path followLast = .ok spot) : spot.Holds fs.tree := by
  unfold lookUp at h
  simp only at h
  split at h
  · simp at h
  · split at h
    · simp at h
    · split at h
      · next trail ht => exact Tree.holds_of_walk (Tree.leads_of_trail? ht) h
      · simp at h

/-! ## Looking at files -/

/-- Opens a path for reading. Endless zero bytes are as many as an opened file has positions. -/
def openFile (fs : FileSystem) (path : Bytes) : Except Errno Opened :=
  match fs.lookUp path true with
  | .ok (.found _ (.file content)) => .ok (.content content)
  | .ok (.found _ .directory) => .ok (.unreadable .isDirectory)
  | .ok (.found _ (.brokenFile _)) => .ok (.unreadable .inputOutput)
  | .ok (.found _ (.lockedFile _)) => .error .accessDenied
  | .ok (.found _ .lockedDirectory) => .error .accessDenied
  | .ok (.found _ .zeroDevice) => .ok (.zeros maxOffset)
  | .ok (.found _ .fullDevice) => .ok (.zeros maxOffset)
  | .ok (.found _ _) => .ok (.content [])
  | .ok (.vacant _ _) => .error .noEntry
  | .error e => .error e

/-- What stands at the end of a path; nothing if a name on the way is missing or is no directory.
Any other obstacle on the way is an error. -/
def status (fs : FileSystem) (path : Bytes) : Except Errno (Option Entry) :=
  match fs.lookUp path true with
  | .ok (.found _ entry) => .ok (some entry)
  | .ok (.vacant _ _) => .ok none
  | .error .noEntry => .ok none
  | .error .notDirectory => .ok none
  | .error e => .error e

/-- The size of a file; nothing else has one. -/
def fileSize? (fs : FileSystem) (path : Bytes) : Option Nat :=
  match fs.lookUp path true with
  | .ok (.found _ (.file content)) => some content.length
  | .ok (.found _ (.lockedFile size)) => some size
  | .ok (.found _ (.brokenFile size)) => some size
  | _ => none

/-- The one absolute path of an existing file in which every name is the name of the thing itself:
without `.`, `..`, repeated slashes and symbolic links. A path that leads nowhere stays as it is. -/
def canonicalPath (fs : FileSystem) (path : Bytes) : Bytes :=
  match fs.lookUp path true with
  | .ok (.found place _) => slash :: Bytes.join [slash] place
  | _ => path

end FileSystem

end TextLines.Files
