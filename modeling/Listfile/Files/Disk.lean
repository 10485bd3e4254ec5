import Listfile.Files.Path
import Listfile.Files.Utf8
import Listfile.Text.Quoted

/-! Files and directories, and the working directory from which relative paths
start. A path is followed component by component: each one but the last has to
lead to a directory, and none may be too long where it is looked up. Text is
read as UTF-8, and every line end becomes a line feed. -/

namespace Listfile

/-- Why a file could not be read as text. -/
inductive ReadFault
  | missing
  | isDirectory
  | notDirectory
  | nameTooLong
  | encoding (fault : Utf8.Fault)
  deriving DecidableEq, Repr

/-- The wording of a fault met at a path. -/
def ReadFault.message (path : Path) : ReadFault → String
  | .missing => "[Errno 2] No such file or directory: " ++ Text.quoteString path.string
  | .isDirectory => "[Errno 21] Is a directory: " ++ Text.quoteString path.string
  | .notDirectory => "[Errno 20] Not a directory: " ++ Text.quoteString path.string
  | .nameTooLong => "[Errno 36] File name too long: " ++ Text.quoteString path.string
  | .encoding fault => fault.message

/-- Files and directories by their components from the root on. -/
structure Disk where
  /-- The working directory. -/
  home : List Text
  files : List (List Text × List UInt8)
  directories : List (List Text)

namespace Disk

/-- All directories on the way to some components, these left out. -/
def parents (parts : List Text) : List (List Text) :=
  (List.range parts.length).map fun n => parts.take n

def addDirectory (parts : List Text) (d : Disk) : Disk :=
  { d with directories := parts :: (parents parts ++ d.directories) }

/-- Put a file on a disk, in place of one that is there. -/
def addFile (parts : List Text) (bytes : List UInt8) (d : Disk) : Disk :=
  { d with
    files := (parts, bytes) :: d.files.filter (·.1 ≠ parts)
    directories := parents parts ++ d.directories }

/-- A disk with nothing on it but a working directory. -/
def empty (home : List Text) : Disk := addDirectory home ⟨home, [], []⟩

def file? (d : Disk) (parts : List Text) : Option (List UInt8) :=
  (d.files.find? (·.1 = parts)).map (·.2)

def isDirectory (d : Disk) (parts : List Text) : Bool :=
  parts.isEmpty || d.directories.contains parts

/-- The most bytes that a component may have. -/
def maxNameLength : Nat := 255

/-- The most bytes that a path may have. -/
def maxPathLength : Nat := 4095

/-- Follow components from the directory or file `place`. The root is its own parent. -/
def follow (d : Disk) (place : List Text) : List Text → Except ReadFault (List Text)
  | [] =>
    if d.isDirectory place || (d.file? place).isSome then .ok place else .error .missing
  | part :: rest =>
    if d.isDirectory place then
      if part = "..".toList then d.follow place.dropLast rest
      else if maxNameLength < Path.byteLength part then .error .nameTooLong
      else d.follow (place ++ [part]) rest
    else if (d.file? place).isSome then .error .notDirectory
    else .error .missing

/-- The place that a path leads to. -/
def resolve (d : Disk) (p : Path) : Except ReadFault (List Text) :=
  if maxPathLength < Path.byteLength p.text then .error .nameTooLong
  else d.follow (if p.slashes = 0 then d.home else []) p.parts

/-- The bytes of the file at a path. -/
def bytes (d : Disk) (p : Path) : Except ReadFault (List UInt8) := do
  let place ← d.resolve p
  match d.file? place with
  | some bytes => return bytes
  | none => .error .isDirectory

end Disk

/-- A text in which a carriage return, with the line feed that may follow it, is a line feed. -/
def unifyBreaks : Text → Text
  | [] => []
  | '\r' :: '\n' :: t => '\n' :: unifyBreaks t
  | '\r' :: t => '\n' :: unifyBreaks t
  | c :: t => c :: unifyBreaks t

/-- The text of bytes read from a file. -/
def textOfBytes (bytes : List UInt8) : Except ReadFault Text :=
  match Utf8.decode bytes with
  | .ok t => .ok (unifyBreaks t)
  | .error fault => .error (.encoding fault)

/-- Read the file at a path as text. -/
def Disk.read (d : Disk) (p : Path) : Except ReadFault Text := do textOfBytes (← d.bytes p)

end Listfile
