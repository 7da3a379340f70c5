import AmbLisp.Disk.Path
import AmbLisp.Fault
import AmbLisp.Reader
import AmbLisp.Text.LineEnd
import AmbLisp.World

/-!
# Source files

A source file is UTF-8 text. It is read whole before any of its forms is evaluated, so a file with an
error anywhere has no effect at all.

Files are decoded as UTF-8 on every host: one that prefers another encoding for its files is not
described. How deeply the forms of a text may be nested is told by the host, and it is the same wherever
they are read, also in an evaluation that is itself deep.
-/

namespace AmbLisp.Loader

/-- The text of a file, its lines ended by line feeds. -/
def sourceText (disk : Disk) (path : String) : Except Fault String :=
  let path' := Disk.Path.normalize path
  if path.toList.contains (Char.ofNat 0) then .error .nulInPath
  else
    match disk path' with
    | .content bytes =>
      match Text.Utf8.decode bytes with
      | .ok cs => .ok (String.ofList (Text.unifyLineEnds cs))
      | .error flaw => .error (.cannotLoad path' (.notUtf8 flaw))
    | .refused why => .error (.cannotLoad path' (.refused why))
    | .pending => .error (.pendingFile path')

/-- The only form of a source text. -/
def form (host : Host) (source : String) : Except Fault Value :=
  if Reader.formNesting source ≤ host.readable then (Reader.parse source).mapError .ofRead
  else .error .tooDeep

/-- The forms of a source text. -/
def programForms (host : Host) (source : String) : Except Fault (List Value) :=
  if Reader.programNesting source ≤ host.readable then
    (Reader.parseProgram source).mapError .ofRead
  else .error .tooDeep

/-- The forms of a file. -/
def fileForms (host : Host) (path : String) : Except Fault (List Value) := do
  programForms host (← sourceText host.disk path)

end AmbLisp.Loader
