import Cqasm.Session.Fault

/-!
# File systems

A file system is known by how it answers: given everything that was asked of it before, each of
three requests either succeeds or throws. Nothing is assumed about the answers; a file system may
fail at any time, hand out one descriptor twice or change its contents between two readings. Where
it matters that a failure can be told, this is a condition of its own (`FileSystem.Explains`).
-/

set_option autoImplicit false

namespace Cqasm

/-- A request to a file system. -/
inductive FileCall where
  | open (path : String)
  | read (descriptor : Int)
  | close (descriptor : Int)
  deriving DecidableEq, Repr, Inhabited

/-- What reading a file yields: a text, or something that looks like one until its characters are
asked for. -/
inductive Contents where
  | text (text : String)
  | unreadable (fault : Fault)
  deriving DecidableEq, Repr, Inhabited

/-- The answers of a file system, each of which may depend on all requests before. -/
structure FileSystem where
  openPath : List FileCall → String → Except Fault Int
  readAll : List FileCall → Int → Except Fault Contents
  closeDescriptor : List FileCall → Int → Except Fault Unit

namespace FileSystem

/-- The file system in which there is nothing. -/
def empty : FileSystem where
  openPath _ path := .error (.error ("ENOENT: no such file or directory, open '" ++ path ++ "'"))
  readAll _ _ := .error (.error "EBADF: bad file descriptor, read")
  closeDescriptor _ _ := .error (.error "EBADF: bad file descriptor, close")

instance : Inhabited FileSystem := ⟨empty⟩

/-- Whatever a file system throws has a reason, and so has what its texts throw. -/
structure Explains (files : FileSystem) : Prop where
  openPath {calls : List FileCall} {path : String} {fault : Fault} :
    files.openPath calls path = .error fault → fault.HasReason
  readAll {calls : List FileCall} {descriptor : Int} {fault : Fault} :
    files.readAll calls descriptor = .error fault → fault.HasReason
  contents {calls : List FileCall} {descriptor : Int} {fault : Fault} :
    files.readAll calls descriptor = .ok (.unreadable fault) → fault.HasReason
  closeDescriptor {calls : List FileCall} {descriptor : Int} {fault : Fault} :
    files.closeDescriptor calls descriptor = .error fault → fault.HasReason

end FileSystem

end Cqasm
