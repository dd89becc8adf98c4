/-
The files that the program reads and writes, as an interface, and files held in memory.

A name is taken apart at its slashes and followed from directory to directory: every part but the
last has to lead to a directory, `.` stays where it is and `..` goes up. What the last part may lead
to depends on what is done there: only a file can be read, and only a file, or nothing at all, can be
written. A slash behind the last part asks for a directory.
-/
import CliffordT.Text.Fields

namespace CliffordT.CommandLine

/-- Access to files. What cannot be read or written is answered by the reason. -/
structure Files (m : Type → Type) where
  /-- Whether there is anything under a name. -/
  isPresent : String → m Bool
  read : String → m (Except String ByteArray)
  /-- Makes a file with this text, in place of one that there may be. -/
  write : String → String → m (Except String Unit)

/-! ## Faults -/

inductive FileFault
  | missing
  /-- A file stands where a directory is needed. -/
  | notDirectory
  /-- A directory stands where a file is needed. -/
  | isDirectory
  | nameTooLong
  /-- A name holds the character that ends a name. -/
  | nulInName
  deriving Repr, DecidableEq

def FileFault.message : FileFault → String
  | missing => "No such file or directory (os error 2)"
  | notDirectory => "Not a directory (os error 20)"
  | isDirectory => "Is a directory (os error 21)"
  | nameTooLong => "File name too long (os error 36)"
  | nulInName => "file name contained an unexpected NUL byte"

/-! ## Names -/

/-- A name of a file, taken apart at the slashes. -/
structure FileName where
  /-- Whether it starts at the root. -/
  isAbsolute : Bool
  /-- The parts that lead to the directory. -/
  way : List String
  /-- The part that stands for the file itself. -/
  last : String
  /-- Whether a slash follows the last part. -/
  hasSlashAfter : Bool
  deriving Repr, DecidableEq

namespace FileName

def maxBytes : Nat := 4095

def maxPartBytes : Nat := 255

/-- The parts of a name between slashes. Several slashes count as one. -/
def parts (name : String) : List String :=
  ((Text.pieces '/' name.toList).filter fun p => !p.isEmpty).map String.ofList

/-- Takes a name apart. A name of slashes alone stands for the root. -/
def ofString (name : String) : Except FileFault FileName :=
  if name.contains '\x00' then .error .nulInName
  else if name.isEmpty then .error .missing
  else if maxBytes < name.utf8ByteSize then .error .nameTooLong
  else .ok ⟨name.startsWith "/", (parts name).dropLast, (parts name).getLastD ".", name.endsWith "/"⟩

def isDots (name : FileName) : Bool := name.last == "." || name.last == ".."

end FileName

/-! ## Files in memory -/

/-- Files held in memory by name, in a tree that hangs below the directory `/tmp`. A directory of the
tree is there when a file in it is. -/
structure MemoryFiles where
  entries : List (String × ByteArray)

inductive Directory
  /-- A directory of the tree, by the parts that lead there from its top. -/
  | within (path : List String)
  /-- A directory outside the tree, by the parts that lead there from the root. -/
  | outside (path : List String)
  deriving Repr, DecidableEq

inductive Node
  | file (content : ByteArray)
  /-- What is always empty and keeps nothing. -/
  | nullDevice
  | directory (d : Directory)

namespace Directory

/-- The directory one level up; that of the root is the root. -/
def parent : Directory → Directory
  | within [] => outside ["tmp"]
  | within (p :: ps) => within (p :: ps).dropLast
  | outside path => outside path.dropLast

/-- The directories outside the tree. -/
def known : List (List String) := [["dev"], ["tmp"]]

end Directory

namespace MemoryFiles

def nodeWithin (files : MemoryFiles) (path : List String) : Option Node :=
  match files.entries.find? fun e => FileName.parts e.1 == path with
  | some (_, content) => some (.file content)
  | none =>
    if files.entries.any fun e => path.isPrefixOf (FileName.parts e.1) then
      some (.directory (.within path))
    else none

def nodeOutside (path : List String) : Option Node :=
  if path = ["dev", "null"] then some .nullDevice
  else if Directory.known.contains path then some (.directory (.outside path))
  else none

def step (files : MemoryFiles) (d : Directory) (part : String) : Except FileFault (Option Node) :=
  if part = "." then .ok (some (.directory d))
  else if part = ".." then .ok (some (.directory d.parent))
  else if FileName.maxPartBytes < part.utf8ByteSize then .error .nameTooLong
  else
    match d with
    | .within path => .ok (files.nodeWithin (path ++ [part]))
    | .outside path => .ok (nodeOutside (path ++ [part]))

def walk (files : MemoryFiles) : Directory → List String → Except FileFault Directory
  | d, [] => .ok d
  | d, part :: rest => do
    match ← files.step d part with
    | none => throw .missing
    | some (.directory d') => walk files d' rest
    | some _ => throw .notDirectory

def directoryOf (files : MemoryFiles) (name : FileName) : Except FileFault Directory :=
  files.walk (if name.isAbsolute then .outside [] else .within []) name.way

def find (files : MemoryFiles) (name : String) : Except FileFault Node := do
  let name ← FileName.ofString name
  match ← files.step (← files.directoryOf name) name.last with
  | none => throw .missing
  | some (.directory d) => return .directory d
  | some node => if name.hasSlashAfter then throw .notDirectory else return node

def read (files : MemoryFiles) (name : String) : Except FileFault ByteArray := do
  match ← files.find name with
  | .file content => return content
  | .nullDevice => return .empty
  | .directory _ => throw .isDirectory

def isPresent (files : MemoryFiles) (name : String) : Bool :=
  match files.find name with
  | .ok _ => true
  | .error _ => false

def insert (files : MemoryFiles) (path : List String) (content : ByteArray) : MemoryFiles :=
  ⟨(String.intercalate "/" path, content)
    :: files.entries.filter fun e => FileName.parts e.1 != path⟩

/-- Makes a file. What is made outside the tree is not kept. -/
def write (files : MemoryFiles) (name text : String) : Except FileFault MemoryFiles := do
  let name ← FileName.ofString name
  let d ← files.directoryOf name
  if name.isDots || name.hasSlashAfter then throw .isDirectory
  match ← files.step d name.last with
  | some (.directory _) => throw .isDirectory
  | some .nullDevice => return files
  | _ =>
    match d with
    | .within path => return files.insert (path ++ [name.last]) text.toUTF8
    | .outside _ => return files

/-- The files in memory as the files of a program. -/
def access : Files (StateM MemoryFiles) where
  isPresent name := return (← get).isPresent name
  read name := return ((← get).read name).mapError FileFault.message
  write name text := do
    match (← get).write name text with
    | .ok files => do
      set files
      return .ok ()
    | .error fault => return .error fault.message

end MemoryFiles

end CliffordT.CommandLine
