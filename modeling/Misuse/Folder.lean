import Misuse.Distinct
import Misuse.Rulebook
import Misuse.Sorted

/-!
# Folders of rule files

Which files of a folder are sources of rules. Files are given with their paths; a folder
holds the files directly below it whose names end in `.json`, taken in the order of their
names.
-/

namespace Misuse

/-- The extension of a file name: what follows its last dot, unless the name starts with
it. -/
def extension? (name : String) : Option String :=
  let (extension, rest) := name.toList.reverse.span fun c => decide (c ≠ '.')
  match rest with
  | _ :: _ :: _ => some (String.ofList extension.reverse)
  | _ => none

structure Folder where
  files : List (String × String)
  deriving DecidableEq, Repr, Inhabited

namespace Folder

def text? (f : Folder) (path : String) : Option String :=
  (f.files.find? fun e => e.1 == path).map Prod.snd

def source (f : Folder) (path : String) : Source := ⟨path, f.text? path⟩

/-- The rule files of the folder. -/
def sources (f : Folder) : List Source :=
  let names := Sorted.ofList (f.files.map Prod.fst)
  (names.filter fun name => extension? name == some "json").map f.source

end Folder

end Misuse
