import Cqasm.Session.FileSystem
import Cqasm.Text.Utf8

/-!
# Directories: a file system held in memory

A `Directory` lists files with their bytes, and directories, by their paths. As a file system it
opens whatever exists, directories included, and gives the reasons for refusing that an operating
system would give. Bytes are read as UTF-8.
-/

set_option autoImplicit false

namespace Cqasm

/-- What stands under a path. -/
inductive DirectoryEntry where
  | file (bytes : List Nat)
  | directory
  deriving DecidableEq, Repr, Inhabited

/-- Files and directories by their paths, each path given by its parts. -/
structure Directory where
  entries : List (List String × DirectoryEntry)
  deriving Repr, Inhabited

/-- An entry that has been opened, and how many of its bytes have been read. -/
structure OpenEntry where
  entry : DirectoryEntry
  position : Nat
  deriving DecidableEq, Repr, Inhabited

namespace Directory

/-- Why a path leads nowhere. -/
inductive Refusal where
  | noEntry
  | notDirectory
  deriving DecidableEq, Repr, Inhabited

/-- The words for a refusal to open a path. -/
def Refusal.reason (path : String) : Refusal → String
  | noEntry => "ENOENT: no such file or directory, open '" ++ path ++ "'"
  | notDirectory => "ENOTDIR: not a directory, open '" ++ path ++ "'"

/-- What stands under a path, if anything does. The empty path is the directory itself. -/
def entryAt (dir : Directory) (path : List String) : Option DirectoryEntry :=
  if path.isEmpty then some .directory
  else (dir.entries.find? (·.1 = path)).map (·.2)

/-- Follows the parts of a path from a directory on. -/
def follow (dir : Directory) (reached : List String) : List String → Except Refusal DirectoryEntry
  | [] => (dir.entryAt reached).elim (.error .noEntry) .ok
  | part :: parts =>
    match dir.entryAt reached with
    | none => .error .noEntry
    | some (.file _) => .error .notDirectory
    | some .directory =>
      if part = "" || part = "." then dir.follow reached parts
      else if part = ".." then dir.follow reached.dropLast parts
      else dir.follow (reached ++ [part]) parts

/-- What stands under a path. -/
def lookUp (dir : Directory) (path : String) : Except Refusal DirectoryEntry :=
  if path.isEmpty then .error .noEntry
  else dir.follow [] ((path.splitOn "/"))

/-- What reading an opened entry to its end yields. -/
def contentsOf (opened : OpenEntry) : Except Fault Contents :=
  match opened.entry with
  | .file bytes => .ok (.text (String.ofList (Utf8.decode (bytes.drop opened.position))))
  | .directory => .error (.error "EISDIR: illegal operation on a directory, read")

/-- The descriptors that paths are opened under start here. -/
def firstDescriptor : Nat := 1000

/-- The paths that were opened, in order. -/
def openedPaths (dir : Directory) (calls : List FileCall) : List String :=
  calls.filterMap fun
    | .open path => if (dir.lookUp path).isOk then some path else none
    | _ => none

/-- The entry under a descriptor: one of those that had been opened before, or one that was opened
since. -/
def opened? (dir : Directory) (before : List (Int × OpenEntry)) (calls : List FileCall)
    (descriptor : Int) : Option OpenEntry :=
  match before.find? (·.1 = descriptor) with
  | some (_, opened) => some opened
  | none =>
    if descriptor < firstDescriptor then none
    else
      match (dir.openedPaths calls)[(descriptor - firstDescriptor).toNat]? with
      | none => none
      | some path => (dir.lookUp path).toOption.map fun entry => { entry, position := 0 }

/-- A directory as a file system in which some descriptors are open from the beginning. -/
def fileSystem (dir : Directory) (before : List (Int × OpenEntry)) : FileSystem where
  openPath calls path :=
    match dir.lookUp path with
    | .ok _ => .ok (firstDescriptor + (dir.openedPaths calls).length)
    | .error refusal => .error (.error (refusal.reason path))
  readAll calls descriptor :=
    match dir.opened? before calls descriptor with
    | some opened => contentsOf opened
    | none => .error (.error "EBADF: bad file descriptor, read")
  closeDescriptor calls descriptor :=
    match dir.opened? before calls descriptor with
    | some _ => .ok ()
    | none => .error (.error "EBADF: bad file descriptor, close")

end Directory

end Cqasm
