import DocGap.Disk

/-!
# File trees

Files, directories and symbolic links, and a working directory among them. A place is the list of
names that leads to an entry from the root. A path is followed step by step, from the root or from
the working directory: links are followed, at most `maxLinks` of them, and every entry that another
step follows must be a directory.
-/
namespace DocGap

namespace Tree

inductive Entry where
  | file (bytes : ByteArray)
  | link (target : String)
  | directory

abbrev Place := List String

end Tree

/-- The entries of a tree by their places. The working directory `home` and the directories above it
are always there. -/
structure Tree where
  home : Tree.Place
  entries : List (Tree.Place × Tree.Entry)

namespace Tree

def lookup? (t : Tree) (place : Place) : Option Entry :=
  if place.isPrefixOf t.home then some .directory else (t.entries.find? (·.1 = place)).map (·.2)

def homePath (t : Tree) : Path := ⟨"/" ++ "/".intercalate t.home⟩

def erase (t : Tree) (place : Place) : Tree := { t with entries := t.entries.filter (·.1 ≠ place) }

def put (t : Tree) (place : Place) (entry : Entry) : Tree :=
  { t with entries := (t.erase place).entries ++ [(place, entry)] }

theorem lookup?_erase_of_ne (t : Tree) {a b : Place} (h : a ≠ b) :
    (t.erase b).lookup? a = t.lookup? a := by
  have hf : (t.entries.filter (·.1 ≠ b)).find? (·.1 = a) = t.entries.find? (·.1 = a) := by
    rw [List.find?_filter]
    congr 1
    funext x
    by_cases hx : x.1 = a <;> simp [hx, h]
  simp only [lookup?, erase, hf]

theorem lookup?_put_self (t : Tree) {place : Place}
    (h : ¬ place.isPrefixOf t.home) (entry : Entry) :
    (t.put place entry).lookup? place = some entry := by
  have hn : (t.erase place).entries.find? (·.1 = place) = none := by
    simp [erase, List.find?_eq_none]
  simp [lookup?, put, h, List.find?_append, hn]

theorem lookup?_put_of_ne (t : Tree) {a b : Place} (h : a ≠ b) (entry : Entry) :
    (t.put b entry).lookup? a = t.lookup? a := by
  rw [← lookup?_erase_of_ne t h]
  have hb : (b = a) = False := by simp [h.symm]
  simp only [lookup?, put, erase, List.find?_append, List.find?_cons,
    List.find?_nil, hb, decide_false,
    Option.or_none]
  rfl

def isDirectoryAt (t : Tree) (place : Place) : Bool :=
  match t.lookup? place with
  | some .directory => true
  | _ => false

def addParents (t : Tree) (place : Place) : Tree :=
  (List.range place.length).foldl
    (fun t n => if (t.lookup? (place.take n)).isSome then t else t.put (place.take n) .directory) t

def add (t : Tree) (place : Place) (entry : Entry) : Tree := (t.addParents place).put place entry

/-- One step of following a path. A slash at the end of a path is a step too: it asks
for a directory. -/
inductive Step where
  | stay
  | up
  | down (name : String)
  | slash
deriving DecidableEq, Repr

def Step.ofPart? (part : String) : Option Step :=
  if part = "" then none
  else if part = "." then some stay
  else if part = ".." then some up
  else some (down part)

def stepsOf (spelling : String) : List Step :=
  let parts := Path.parts ⟨spelling⟩
  let inner := parts.filterMap Step.ofPart?
  if parts.getLast? = some "" then inner ++ [.slash] else inner

def startOf (here : Place) (spelling : String) : Place :=
  if spelling.toList.head? = some '/' then [] else here

def maxLinks : Nat := 40

/-- Where steps lead from a directory. The last name may lead to a place that holds nothing yet. If
something is to be made there, no slash may follow that name. The root is its own parent. -/
def walk (t : Tree) (making : Bool) (links : Nat) (here : Place) (steps : List Step) :
    Except SystemError Place :=
  match steps with
  | [] => .ok here
  | step :: rest =>
    if !t.isDirectoryAt here then .error .notDirectory
    else match step with
      | .stay | .slash => t.walk making links here rest
      | .up => t.walk making links here.dropLast rest
      | .down name =>
        let next := here ++ [name]
        if making && rest = [.slash] then .error .isDirectory
        else match t.lookup? next with
          | none => if rest = [] then .ok next else .error .noEntry
          | some (.link target) =>
            match links with
            | 0 => .error .tooManyLinks
            | links + 1 =>
              t.walk making links (startOf here target) (stepsOf target ++ rest)
          | some _ => t.walk making links next rest
termination_by (links, steps.length)

/-- The place that a path leads to, whether it holds anything or not. The empty path
leads nowhere. -/
def locate (t : Tree) (making : Bool) (p : Path) : Except SystemError Place :=
  if p.spelling = "" then .error .noEntry
  else t.walk making maxLinks (startOf t.home p.spelling) (stepsOf p.spelling)

def resolve (t : Tree) (p : Path) : Except SystemError Place :=
  match t.locate false p with
  | .error e => .error e
  | .ok place => if (t.lookup? place).isSome then .ok place else .error .noEntry

def isDirectory (t : Tree) (p : Path) : Bool :=
  match t.resolve p with
  | .ok place => t.isDirectoryAt place
  | .error _ => false

def isFile (t : Tree) (p : Path) : Bool :=
  match t.resolve p with
  | .ok place =>
    match t.lookup? place with
    | some (.file _) => true
    | _ => false
  | .error _ => false

def read (t : Tree) (p : Path) : Except SystemError ByteArray :=
  match t.resolve p with
  | .error e => .error e
  | .ok place =>
    match t.lookup? place with
    | some (.file bytes) => .ok bytes
    | some .directory => .error .isDirectory
    | _ => .error .noEntry

/-- The place of the last name of a path, with links followed on the way to it only. -/
def locateName (t : Tree) (p : Path) : Except SystemError Place :=
  match (stepsOf p.spelling).reverse with
  | .down name :: before =>
    match t.walk false maxLinks (startOf t.home p.spelling) before.reverse with
    | .error e => .error e
    | .ok place =>
      match t.lookup? place with
      | none => .error .noEntry
      | some .directory => .ok (place ++ [name])
      | some _ => .error .notDirectory
  | _ => .error .noEntry

def store (t : Tree) (p : Path) (bytes : ByteArray) : Except SystemError Tree :=
  match t.locate true p with
  | .error e => .error e
  | .ok place =>
    if t.isDirectoryAt place then .error .isDirectory else .ok (t.put place (.file bytes))

/-- Copies a file. A file that is copied onto itself is empty afterwards, since the target is
cleared before the source is read. -/
def copy (t : Tree) (source target : Path) : Except SystemError Tree :=
  match t.read source, t.resolve source, t.locate true target with
  | .ok bytes, .ok place, .ok aim => t.store target (if place = aim then .empty else bytes)
  | .error e, _, _ => .error e
  | _, .error e, _ => .error e
  | _, _, .error e => .error e

/-- Puts a file in the place of whatever stands under the last name of the path, also of a link. -/
def replace (t : Tree) (p : Path) (bytes : ByteArray) : Except SystemError Tree :=
  match t.locateName p with
  | .error e => .error e
  | .ok place =>
    if t.isDirectoryAt place then .error .isDirectory else .ok (t.put place (.file bytes))

def remove (t : Tree) (p : Path) : Except SystemError Tree :=
  match t.locateName p with
  | .error e => .error e
  | .ok place =>
    match t.lookup? place with
    | none => .error .noEntry
    | some .directory => .error .isDirectory
    | some _ => .ok (t.erase place)

/-- Files are told apart by components: of the way from the root to an entry, and of a path that
leads to none as it is given. -/
abbrev Key := List Component

def Key.ofPlace (place : Place) : Key := .root :: place.map .name

def Key.of (path : Path) : Option Place → Key
  | some place => .ofPlace place
  | none => path.components

def settle (t : Tree) : Except SystemError Tree → Except DiskError Unit × Tree
  | .ok changed => (.ok (), changed)
  | .error e => (.error (.system e), t)

def disk : Disk Tree where
  read p t := ((t.read p).mapError .system, t)
  copy source target t := t.settle (t.copy source target)
  write p bytes t := t.settle (t.replace p bytes)
  remove p t := t.settle (t.remove p)

end Tree

end DocGap
