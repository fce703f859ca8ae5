import EntityRdf.FileAccess

/-!
# Files in memory

A `FileTree` holds the files and directories below a root. A path is followed
part by part, and every part starts from a directory: a file or a gap on the
way ends the walk, also before `..`. The directories above the root exist, and
the tree knows of nothing else outside it. Long names and long paths lead
nowhere.
-/

namespace EntityRdf

/-- A place in or around a tree: so many levels above its root, then names
down. -/
structure Place where
  up : Nat
  down : List String
deriving DecidableEq, Repr

namespace Place

def root : Place := ⟨0, []⟩

instance : Inhabited Place := ⟨root⟩

/-- The directory that holds a place. -/
def parent (p : Place) : Place :=
  if p.down = [] then ⟨p.up + 1, []⟩ else ⟨p.up, p.down.dropLast⟩

/-- The place that one part of a path leads to. -/
def step (p : Place) (part : String) : Place :=
  if part = "" ∨ part = "." then p
  else if part = ".." then p.parent
  else ⟨p.up, p.down ++ [part]⟩

end Place

/-- An entry of a tree. -/
inductive FileEntry where
  | directory
  | binary
  | text (s : String)
deriving DecidableEq, Repr

/-- Files and directories with their places. -/
structure FileTree where
  /-- The entries; of two at one place the first counts. -/
  entries : List (Place × FileEntry)
deriving DecidableEq, Repr

namespace FileTree

/-- The tree without entries. -/
def empty : FileTree := ⟨[]⟩

instance : Inhabited FileTree := ⟨empty⟩

/-- What is at a place. The root and what is above it are directories. -/
def entry? (t : FileTree) (p : Place) : Option FileEntry :=
  if p.down = [] then some .directory else t.entries.lookup p

/-- Puts an entry at a place, whatever was there. -/
def put (t : FileTree) (p : Place) (e : FileEntry) : FileTree :=
  ⟨(p, e) :: t.entries.filter (·.1 ≠ p)⟩

/-! ## Paths -/

/-- The most bytes that a name may have. -/
def nameLimit : Nat := 255

/-- The most bytes that a path may have. -/
def pathLimit : Nat := 4095

/-- Whether a text can be a path relative to the root. -/
def isRelativePath (path : String) : Bool :=
  path ≠ "" && path.utf8ByteSize ≤ pathLimit && path.toList.head? ≠ some '/' &&
    !path.toList.contains '\x00'

/-- Follows the parts of a path from a place. -/
def follow (t : FileTree) (p : Place) : List String → Option Place
  | [] => some p
  | part :: rest =>
    if t.entry? p = some .directory ∧ part.utf8ByteSize ≤ nameLimit then
      t.follow (p.step part) rest
    else none

/-- The place that a path leads to. Whether something is there is another
question, but what holds it is a directory. -/
def resolve? (t : FileTree) (path : String) : Option Place :=
  if isRelativePath path then t.follow .root (path.splitOn "/") else none

/-! ## Reading and writing -/

/-- What is found at a path. -/
def read (t : FileTree) (path : String) : FileContent :=
  match (t.resolve? path).bind t.entry? with
  | none => .missing
  | some .directory | some .binary => .unreadable
  | some (.text s) => .text s

/-- Writes a text to a path, where no directory may be. -/
def write? (t : FileTree) (path text : String) : Option FileTree := do
  let p ← t.resolve? path
  if t.entry? p = some .directory then none else some (t.put p (.text text))

/-- Makes directories of all the parts of a path but the last, where nothing
is. Gives the place that the path leads to. -/
def makeWay (t : FileTree) (p : Place) : List String → FileTree × Place
  | [] => (t, p)
  | part :: rest =>
    (if (t.entry? p).isSome then t else t.put p .directory).makeWay (p.step part) rest

/-- Puts an entry at a path, with the directories on the way to it. -/
def add (t : FileTree) (path : String) (e : FileEntry) : FileTree :=
  let (t, p) := t.makeWay .root (path.splitOn "/")
  t.put p e

end FileTree

/-- Runs a program on files in memory. -/
def FileProgram.runOn {α : Type} (t : FileTree) : FileProgram α → α × FileTree
  | .done a => (a, t)
  | .read path next => (next (t.read path)).runOn t
  | .write path text next =>
    match t.write? path text with
    | some t' => (next true).runOn t'
    | none => (next false).runOn t

end EntityRdf
