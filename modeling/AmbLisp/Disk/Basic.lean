/-!
# Disks

A disk is known by what it answers when a path is read. It does not change while a program runs.
-/

namespace AmbLisp

/-- Why a file cannot be read. -/
inductive Disk.Refusal where
  | noSuchFile
  | isFolder
  | notFolder
  | nameTooLong
  | other (reason : String)
deriving DecidableEq, Repr

def Disk.Refusal.message : Disk.Refusal → String
  | .noSuchFile => "No such file or directory"
  | .isFolder => "Is a directory"
  | .notFolder => "Not a directory"
  | .nameTooLong => "File name too long"
  | .other reason => reason

/-- What a disk answers when a path is read. -/
inductive Disk.Answer where
  | content (bytes : List UInt8)
  | refused (why : Disk.Refusal)
  /-- The file has not been fetched yet; whoever does so can ask again. -/
  | pending
deriving Repr

/-- A disk: its answer to every path in normal form. -/
abbrev Disk := String → Disk.Answer

/-- The disk without any file. -/
def Disk.empty : Disk :=
  fun _ => .refused .noSuchFile

end AmbLisp
