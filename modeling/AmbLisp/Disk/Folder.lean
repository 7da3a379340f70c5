import AmbLisp.Disk.Basic
import AmbLisp.Disk.Path

/-!
# A folder as a disk

The files below one folder, held in memory, answer as a file system does whose current folder this
is. Nothing outside the folder can be read, but a path may lead out of it. A path is followed name by
name, and the first name that leads nowhere decides the answer.
-/

namespace AmbLisp.Disk

/-- What a path names inside a folder. -/
inductive Entry where
  | file (bytes : List UInt8)
  | folder
deriving Repr

/-- The entries below a folder, each by its path. The folders on the way to an entry exist too. -/
structure Folder where
  entries : List (List String × Entry) := []

namespace Folder

/-- The longest name that a file can have, in bytes. -/
def maxName : Nat := 255

/-- The longest path that can be followed, in bytes. -/
def maxPath : Nat := 4095

def insert (f : Folder) (path : String) (entry : Entry) : Folder :=
  ⟨(Path.names path, entry) :: f.entries⟩

/-- What stands at a path, if anything does. -/
def find? (f : Folder) (place : List String) : Option Entry :=
  if place = [] then some .folder
  else
    match f.entries.lookup place with
    | some entry => some entry
    | none => if f.entries.any (place.isPrefixOf ·.1) then some .folder else none

/-- Follows names from a folder; `none` is any folder that is not below this one. -/
def follow (f : Folder) : Option (List String) → List String → Disk.Answer
  | _, [] => .refused .isFolder
  | place, ".." :: names =>
    match place with
    | none | some [] => f.follow none names
    | some place => f.follow (some place.dropLast) names
  | place, name :: names =>
    if name.utf8ByteSize > maxName then .refused .nameTooLong
    else
      match place with
      | none => .refused .noSuchFile
      | some place =>
        match f.find? (place ++ [name]) with
        | none => .refused .noSuchFile
        | some .folder => f.follow (some (place ++ [name])) names
        | some (.file bytes) => if names = [] then .content bytes else .refused .notFolder

/-- The disk whose current folder this is. -/
def toDisk (f : Folder) : Disk := fun path =>
  if path.utf8ByteSize > maxPath then .refused .nameTooLong
  else f.follow (if Path.isAbsolute path then none else some []) (Path.names path)

end Folder

end AmbLisp.Disk
