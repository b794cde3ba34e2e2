import DocGap.Settings
import DocGap.Tree

/-!
# Finding settings

Settings come from a file that is named, or else from the file of the standard name in a directory,
or else they are the standard ones.
-/
namespace DocGap.Settings

def standardFile : Path := ⟨"neandoc.toml"⟩

def notText : String := "stream did not contain valid UTF-8"

def ofFile (t : Tree) (path : Path) : Except Error Settings :=
  match t.read path with
  | .error cause => .error (.read path cause.message)
  | .ok bytes =>
    match Text.decode bytes with
    | .error _ => .error (.read path notText)
    | .ok text => ofText (.file path) text

def discover (t : Tree) (named : Option Path) (directory : Path) : Except Error Settings :=
  match named with
  | some path => ofFile t path
  | none =>
    let candidate := directory.join standardFile
    if t.isFile candidate then ofFile t candidate else .ok standard

end DocGap.Settings
