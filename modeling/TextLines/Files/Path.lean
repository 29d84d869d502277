import TextLines.Bytes

/-!
# Paths as text

A path is a byte string. This module cuts and joins paths without looking at any file system:

* `parent` is the path up to the end of the last component but one, `fileName` is the last
  component, `extension` is the part of it from its last dot on;
* `upwards` lists a path with all directories above it;
* `join` puts one path below another;
* `names` are the steps a path takes when it is looked up.

A slash at the end makes an empty last component: `a/` has the parent `a` and an empty file name.
-/

namespace TextLines.Files

open Bytes

namespace Path

/-- Whether the path starts at the root directory. -/
def isAbsolute (path : Bytes) : Bool :=
  path.head? == some slash

/-- The last component: what follows the last slash. -/
def fileName (path : Bytes) : Bytes :=
  (path.reverse.takeWhile (· != slash)).reverse

/-- The part before the last component, with the slashes that end it. -/
def beforeFileName (path : Bytes) : Bytes :=
  (path.reverse.dropWhile (· != slash)).reverse

/-- The path without the slashes that end it. -/
def trimSlashes (path : Bytes) : Bytes :=
  (path.reverse.dropWhile (· == slash)).reverse

/-- The path that leads to the last component: empty for a single relative component. The parent
of a component of the root directory is the root directory, which is its own parent. -/
def parent (path : Bytes) : Bytes :=
  if path.all (· == slash) then path
  else
    let trimmed := trimSlashes (beforeFileName path)
    if trimmed.isEmpty && isAbsolute path then [slash] else trimmed

/-- The path and the directories above it, innermost first, as far as they have a name. -/
def upwards (path : Bytes) : List Bytes :=
  if 0 < (parent path).length ∧ (parent path).length < path.length then
    path :: upwards (parent path)
  else [path]
termination_by path.length

/-- The file name's last dot and what follows it. A dot at the start of the name begins no
extension, and `..` has none. -/
def extension (path : Bytes) : Bytes :=
  let name := fileName path
  let tail := name.reverse.takeWhile (· != dot)
  if name == [dot, dot] then []
  else if tail.length + 1 < name.length then dot :: tail.reverse
  else []

/-- The path `below` taken from the directory `path`; an absolute path replaces it. -/
def join (path below : Bytes) : Bytes :=
  if isAbsolute below then below
  else if (fileName path).isEmpty then path ++ below
  else path ++ slash :: below

/-- Cuts at the slashes; `component` is what has been read of the current component, last byte
first. Empty components are left out. -/
def components : Bytes → Bytes → List Bytes
  | component, [] => if component.isEmpty then [] else [component.reverse]
  | component, b :: rest =>
    if b == slash then
      if component.isEmpty then components [] rest else component.reverse :: components [] rest
    else components (b :: component) rest

/-- The steps of looking a path up. A slash at the end asks for a directory, as a last step to the
directory itself does. -/
def names (path : Bytes) : List Bytes :=
  if path.getLast? == some slash then components [] path ++ [[dot]] else components [] path

/-- Whether the name stands for the directory it is in or for the one above. -/
def isDots (name : Bytes) : Bool :=
  name == [dot] || name == [dot, dot]

end Path

end TextLines.Files
