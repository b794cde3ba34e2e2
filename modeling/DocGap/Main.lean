import DocGap.Cli.Run

/-!
# The program

Reads the files that a command line names, carries it out on them and writes what has changed. It
sees named files only: it does not list directories.
-/
namespace DocGap.Cli

def namedFiles : Invocation → List Path
  | .version => []
  | .run settings command =>
    let paths := match command with
      | .analyze paths _ => paths
      | .apply paths payload _ _ _ => paths ++ payload.toList
      | .watch paths _ _ => paths
    settings.getD Settings.standardFile :: paths

/-- The place that a path spells, if no link is on the way. -/
def spelledPlace (t : Tree) (path : Path) : Tree.Place :=
  (Tree.stepsOf path.spelling).foldl
    (fun here step =>
      match step with
      | .down name => here ++ [name]
      | .up => here.dropLast
      | .stay | .slash => here)
    (Tree.startOf t.home path.spelling)

def load (home : Tree.Place) (paths : List Path) : IO Tree :=
  paths.foldlM
    (fun t path => do
      try return t.add (spelledPlace t path) (.file (← IO.FS.readBinFile path.spelling))
      catch _ => return t)
    ⟨home, []⟩

def changedFiles (old new : Tree) : List (String × ByteArray) :=
  new.entries.filterMap fun (place, entry) =>
    match entry, old.lookup? place with
    | .file bytes, some (.file before) =>
      if bytes.data = before.data then none else some ("/" ++ "/".intercalate place, bytes)
    | .file bytes, _ => some ("/" ++ "/".intercalate place, bytes)
    | _, _ => none

/-- Writes the files next to their places first, so that each of them changes at once. -/
def save (files : List (String × ByteArray)) : IO Unit :=
  files.forM fun (path, bytes) => do
    let waiting := path ++ ".neandoc.new"
    IO.FS.writeBinFile waiting bytes
    IO.FS.rename waiting path

def millisecondsPerMinute : UInt32 := 60000

def sleepMinutes (n : Nat) : IO Unit := n.forM fun _ _ => IO.sleep millisecondsPerMinute

partial def watchLoop (colours : Bool) (settings : Settings) (paths : List Path) (interval : Nat)
    (maxRuns : Option Nat) (home : Tree.Place) (n : Nat) : IO Unit := do
  IO.print (scanText colours settings paths (← load home paths) n)
  if maxRuns.any (· ≤ n) then return
  sleepMinutes interval
  watchLoop colours settings paths interval maxRuns home (n + 1)

def execute (colours : Bool) (home : Tree.Place) (words : List String) : IO UInt32 := do
  let files := (Arguments.read? words).elim [] namedFiles
  let t ← load home files
  match Arguments.read? words with
  | some (.run named (.watch paths interval maxRuns)) =>
    match Settings.discover t named t.homePath with
    | .error e =>
      IO.eprint (settingsFailure e).err
      return 1
    | .ok settings =>
      IO.print (watchTitle colours paths.length interval)
      watchLoop colours settings paths interval maxRuns home 1
      return 0
  | _ =>
    let (output, after) := run colours words t
    save (changedFiles t after)
    IO.print output.out
    IO.eprint output.err
    return output.code.toUInt32

end DocGap.Cli

def main (words : List String) : IO UInt32 := do
  let colours := DocGap.Paint.wanted (← IO.getEnv "CLICOLOR_FORCE") (← IO.getEnv "NO_COLOR")
    (← IO.getEnv "CLICOLOR") (← (← IO.getStdout).isTty)
  let home := ((toString (← IO.currentDir)).splitOn "/").filter (· ≠ "")
  DocGap.Cli.execute colours home words
