/-
# A working directory

A directory without subdirectories, held as a value, and how path names are read in it.
A path name is walked from left to right, one folder at a time, and the first name that
leads nowhere ends the walk. Around the directory stand the folders above it and the
usual folders under the root. Of what others keep there only two devices are known.
-/

import WorkflowGraph.FileStore
import WorkflowGraph.Table

namespace WorkflowGraph

open Codec (Bytes)

/-- A folder that a walk along a path name can reach. The directory itself is the folder
that lies no levels up. -/
inductive Folder
  | up (levels : Nat)
  | root
  | top (name : String)
  deriving DecidableEq, Repr

namespace Folder

/-- The directory itself. -/
def here : Folder := .up 0

/-- The folder that holds a folder. The root holds itself. -/
def parent : Folder → Folder
  | .up levels => .up (levels + 1)
  | .root | .top _ => .root

/-- The shortest path name of a file in a folder. -/
def pathTo (name : String) : Folder → String
  | .up levels => String.join (List.replicate levels "../") ++ name
  | .root => "/" ++ name
  | .top folder => "/" ++ folder ++ "/" ++ name

/-- The folders that stand directly under the root. -/
def underRoot : List String :=
  ["bin", "boot", "dev", "etc", "home", "lib", "media", "mnt", "opt", "proc", "root", "run",
   "sbin", "srv", "sys", "tmp", "usr", "var"]

end Folder

/-- A special file: one that forgets what is written to it, and one that has room for
nothing. -/
inductive Device
  | null
  | full
  deriving DecidableEq, Repr

/-- What a path name means. A file is known by its shortest path name, and may or may not
exist. -/
inductive Place
  | folder (f : Folder)
  | device (d : Device)
  | file (path : String)
  deriving DecidableEq, Repr

/-- A directory without subdirectories: the files in it and around it, by their shortest
path names. -/
structure Directory where
  files : Table Bytes
  deriving Inhabited

namespace Directory

/-- The directory without files. -/
def empty : Directory :=
  ⟨∅⟩

/-- The longest name that a folder can hold, in bytes. -/
def longestName : Nat := 255

/-- The longest path name that can be walked, in bytes. -/
def longestPath : Nat := 4095

/-- What stands in a folder under a name, if anything does. -/
def find (d : Directory) (f : Folder) (name : String) : Except FileError (Option Place) :=
  if longestName < name.utf8ByteSize then .error .nameTooLong
  else match f, name with
    | .top "dev", "null" => .ok (some (.device .null))
    | .top "dev", "full" => .ok (some (.device .full))
    | f, name =>
      if f = .root ∧ name ∈ Folder.underRoot then .ok (some (.folder (.top name)))
      else if Table.hasKey (f.pathTo name) d.files then .ok (some (.file (f.pathTo name)))
      else .ok none

/-- Goes on to the folder that a name inside a path name means. -/
def enter (d : Directory) (f : Folder) (name : String) : Except FileError Folder :=
  if name = "." then .ok f
  else if name = ".." then .ok f.parent
  else do
    match ← d.find f name with
    | some (.folder g) => .ok g
    | some _ => .error .notADirectory
    | none => .error .notFound

/-- What the last name of a path name means. With a slash behind it the name can only be
that of a folder, and no file is made under such a name. -/
def arrive (d : Directory) (writing slash : Bool) (f : Folder) (name : String) :
    Except FileError Place :=
  if name = "." then .ok (.folder f)
  else if name = ".." then .ok (.folder f.parent)
  else if writing && slash then .error (.isADirectory false)
  else do
    match ← d.find f name with
    | some (.folder g) => .ok (.folder g)
    | some place => if slash then .error .notADirectory else .ok place
    | none => if slash then .error .notFound else .ok (.file (f.pathTo name))

/-- The place that a path name means, for reading or for writing. -/
def place (d : Directory) (writing : Bool) (path : String) : Except FileError Place :=
  if path.toList.contains '\x00' then .error .nulInName
  else if path.isEmpty then .error .notFound
  else if longestPath < path.utf8ByteSize then .error .nameTooLong
  else
    let names := (path.splitOn "/").filter (· ≠ "")
    match names.getLast? with
    | none => .ok (.folder .root)
    | some last => do
      let start := if path.startsWith "/" then .root else .here
      let f ← names.dropLast.foldlM d.enter start
      d.arrive writing (path.endsWith "/") f last

/-- The bytes of a file. -/
def read (d : Directory) (path : String) : Except FileError Bytes := do
  match ← d.place false path with
  | .folder _ => .error (.isADirectory true)
  | .device .null => .ok []
  | .device .full => .error .outOfMemory
  | .file path =>
    match Table.get? path d.files with
    | some bytes => .ok bytes
    | none => .error .notFound

/-- The directory with the bytes of a file replaced. -/
def write (d : Directory) (path : String) (bytes : Bytes) : Except FileError Directory := do
  match ← d.place true path with
  | .folder _ => .error (.isADirectory false)
  | .device .null => .ok d
  | .device .full => if bytes.isEmpty then .ok d else .error .noSpaceLeft
  | .file path => .ok ⟨Table.insert path bytes d.files⟩

/-- A directory as a store. -/
def store : FileStore (StateM Directory) where
  read path := do return (← get).read path
  write path bytes := do
    match (← get).write path bytes with
    | .ok d => set d; return .ok ()
    | .error e => return .error e

end Directory

end WorkflowGraph
