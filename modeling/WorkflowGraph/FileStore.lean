/-
# File stores

Where the command line and saved artifacts keep their files: anything that reads and
writes bytes under path names.
-/

import WorkflowGraph.Artifact.Codec
import WorkflowGraph.Text.Ascii

namespace WorkflowGraph

open Codec (Bytes)

/-- Why a file could not be read or written, in the words of the operating system, and
whether it could at least be opened. -/
structure FileError where
  opened : Bool
  reason : String
  deriving DecidableEq, Repr

namespace FileError

/-- The reason with its number, as operating systems give it. -/
def ofCode (opened : Bool) (words : String) (code : Nat) : FileError :=
  ⟨opened, words ++ " (os error " ++ Text.ofInt code ++ ")"⟩

/-- There is no such file. -/
def notFound : FileError := ofCode false "No such file or directory" 2

/-- A file stands where a directory is needed. -/
def notADirectory : FileError := ofCode false "Not a directory" 20

/-- A directory stands where a file is needed. -/
def isADirectory (opened : Bool) : FileError := ofCode opened "Is a directory" 21

/-- A file was opened, and there is no room for the bytes. -/
def noSpaceLeft : FileError := ofCode true "No space left on device" 28

/-- A name is longer than a directory can hold, or a path name as a whole too long. -/
def nameTooLong : FileError := ofCode false "File name too long" 36

/-- A name holds a character that no file name may hold. -/
def nulInName : FileError := ⟨false, "file name contained an unexpected NUL byte"⟩

/-- A file was opened, and its bytes are more than the memory can hold. -/
def outOfMemory : FileError := ⟨true, "out of memory"⟩

end FileError

/-- Reading and writing files by path name. -/
structure FileStore (m : Type → Type) where
  read : String → m (Except FileError Bytes)
  write : String → Bytes → m (Except FileError Unit)

end WorkflowGraph
