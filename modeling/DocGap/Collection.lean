import DocGap.Tree

/-!
# Collections of files

A directory stands for the source files below it, in the order of their paths. Directories with
generated or foreign code are not entered, unless they are named themselves. No file is collected
twice: the first spelling counts.
-/
namespace DocGap.Collection

def skippedNames : List String := ["node_modules", "dist", "build", "target", ".git"]

def below? (directory place : Tree.Place) : Option (List String) :=
  if directory.isPrefixOf place then some (place.drop directory.length) else none

def source? (top : Path) (directory : Tree.Place) : Tree.Place × Tree.Entry → Option Path
  | (place, .file _) =>
    match below? directory place with
    | none | some [] => none
    | some names =>
      let path := names.foldl (fun dir name => dir.join ⟨name⟩) top
      if names.dropLast.any skippedNames.contains || path.language?.isNone then none else some path
  | _ => none

def sources (t : Tree) (top : Path) (directory : Tree.Place) : List Path :=
  (t.entries.filterMap (source? top directory)).mergeSort Path.le

def expand (t : Tree) (path : Path) : List Path :=
  match t.resolve path with
  | .ok place => if t.isDirectoryAt place then sources t path place else [path]
  | .error _ => [path]

def key (t : Tree) (path : Path) : Tree.Key := .of path (t.resolve path).toOption

/-- Drops the paths of files that came before. -/
def firstSpellings (t : Tree) (seen : List Tree.Key) : List Path → List Path
  | [] => []
  | path :: rest =>
    let own := key t path
    if seen.contains own then firstSpellings t seen rest
    else path :: firstSpellings t (own :: seen) rest

def files (t : Tree) (arguments : List Path) : List Path :=
  firstSpellings t [] (arguments.flatMap (expand t))

end DocGap.Collection
