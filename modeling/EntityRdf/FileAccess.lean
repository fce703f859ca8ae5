/-!
# Access to files

A program that reads and writes files is a `FileProgram`: a value that says
which file it asks for and how it goes on with the answer. It can be run on the
files of the system or, to reason about it, on a `FileTree` held in memory.
-/

namespace EntityRdf

/-- What is found at a path. -/
inductive FileContent where
  /-- Nothing, or the path cannot be followed. -/
  | missing
  /-- Something that is no text: a directory, or bytes that are not UTF-8. -/
  | unreadable
  | text (s : String)
deriving DecidableEq, Repr

/-- A program that ends with a result after asking for files. -/
inductive FileProgram (α : Type) where
  | done (a : α)
  /-- Asks what is found at a path. -/
  | read (path : String) (next : FileContent → FileProgram α)
  /-- Writes a text to a path and learns whether that was possible. -/
  | write (path text : String) (next : Bool → FileProgram α)

end EntityRdf
