import DocGap.Path

/-!
# Arguments

The words after the program's name: general switches, a command, its switches and its paths. A
switch has a long name and mostly a letter. Letters may be joined, and a value may follow at once or
as the next word. The general switches may stand before and after the command; behind it they win.
-/
namespace DocGap

inductive Command where
  | analyze (paths : List Path) (request : Bool)
  | apply (paths : List Path) (payload : Option Path) (dryRun diff onlyFunctions : Bool)
  | watch (paths : List Path) (interval : Nat) (maxRuns : Option Nat)
deriving DecidableEq, Repr

inductive Invocation where
  | version
  | run (settings : Option Path) (command : Command)
deriving DecidableEq, Repr

namespace Arguments

/-- What a switch takes. Only a count may be given more than once on one side of the command. -/
inductive Takes where
  | nothing
  | count
  | path
  | number (least : Nat)
deriving DecidableEq, Repr

structure Switch where
  long : String
  letter : Option Char
  takes : Takes
deriving DecidableEq, Repr

namespace Switch

def takesValue (w : Switch) : Bool :=
  match w.takes with
  | .nothing | .count => false
  | .path | .number _ => true

def config : Switch := ⟨"config", some 'c', .path⟩

def verbose : Switch := ⟨"verbose", some 'v', .count⟩

def quiet : Switch := ⟨"quiet", some 'q', .nothing⟩

def version : Switch := ⟨"version", some 'V', .nothing⟩

def prompt : Switch := ⟨"prompt", some 'p', .nothing⟩

def payload : Switch := ⟨"payload", some 'p', .path⟩

def dryRun : Switch := ⟨"dry-run", some 'n', .nothing⟩

def diff : Switch := ⟨"diff", some 'd', .nothing⟩

def onlyFunctions : Switch := ⟨"only-functions", none, .nothing⟩

def interval : Switch := ⟨"interval", some 'i', .number 1⟩

def maxRuns : Switch := ⟨"max-runs", none, .number 0⟩

def general : List Switch := [config, verbose, quiet]

end Switch

def maxNumber : Nat := Nat.pow 2 64 - 1

def number? (text : String) : Option Nat :=
  let digits := match text.toList with
    | '+' :: rest => rest
    | all => all
  if digits = [] ∨ digits.any (!·.isDigit) then none
  else
    let n := digits.foldl (fun n c => 10 * n + (c.toNat - 48)) 0
    if n ≤ maxNumber then some n else none

def Switch.accepts (w : Switch) (value : String) : Bool :=
  match w.takes with
  | .nothing | .count => false
  | .path => value ≠ ""
  | .number least => (number? value).any (least ≤ ·)

inductive Item where
  | switch (which : Switch) (value : Option String)
  | word (text : String)
  | bad
deriving DecidableEq, Repr

/-- A word that starts with a dash is no value and no path, a dash alone is. -/
def isPlain (word : String) : Bool := word = "-" || word.toList.head? ≠ some '-'

/-- The switches of joined letters. The last of them may wait for its value. -/
def letters (switches : List Switch) : List Char → List Item × Option Switch
  | [] => ([], none)
  | c :: rest =>
    match switches.find? (·.letter = some c) with
    | none => ([.bad], none)
    | some w =>
      if !w.takesValue then
        let (items, waiting) := letters switches rest
        (.switch w none :: items, waiting)
      else match rest with
        | [] => ([], some w)
        | '=' :: value => ([.switch w (some (String.ofList value))], none)
        | value => ([.switch w (some (String.ofList value))], none)

def longName (switches : List Switch) (text : List Char) : List Item × Option Switch :=
  let name := String.ofList (text.takeWhile (· ≠ '='))
  match switches.find? (·.long = name), text.dropWhile (· ≠ '=') with
  | none, _ => ([.bad], none)
  | some w, [] => if w.takesValue then ([], some w) else ([.switch w none], none)
  | some w, _ :: value =>
    if w.takesValue then ([.switch w (some (String.ofList value))], none) else ([.bad], none)

def wordItems (switches : List Switch) (word : String) : List Item × Option Switch :=
  if isPlain word then ([.word word], none)
  else match word.toList with
    | '-' :: '-' :: name => longName switches name
    | _ :: cluster => letters switches cluster
    | [] => ([.word word], none)

/-- Reads the words of one side from left to right; a word is bad where the side cannot be read on.
A double dash ends the switches. -/
def items (switches : List Switch) (waiting : Option Switch) : List String → List Item
  | [] => if waiting.isSome then [.bad] else []
  | word :: rest =>
    match waiting with
    | some w =>
      if isPlain word then .switch w (some word) :: items switches none rest else [.bad]
    | none =>
      if word = "--" then rest.map .word
      else
        let (found, waiting) := wordItems switches word
        found ++ items switches waiting rest

structure Side where
  switches : List (Switch × Option String)
  words : List String
deriving DecidableEq, Repr

namespace Side

def empty : Side := ⟨[], []⟩

def has (s : Side) (w : Switch) : Bool := s.switches.any (·.1 = w)

def value? (s : Side) (w : Switch) : Option String := (s.switches.find? (·.1 = w)).bind (·.2)

def path? (s : Side) (w : Switch) : Option Path := (s.value? w).map Path.mk

def natural? (s : Side) (w : Switch) : Option Nat := (s.value? w).bind number?

def paths (s : Side) : List Path := s.words.map Path.mk

def add? (s : Side) (w : Switch) (value : Option String) : Option Side :=
  if w.takes ≠ .count ∧ s.has w then none
  else if value.all w.accepts then some { s with switches := (w, value) :: s.switches }
  else none

def ofItems? (s : Side) : List Item → Option Side
  | [] => some { s with words := s.words.reverse }
  | .bad :: _ => none
  | .word text :: rest =>
    if text = "" then none else ofItems? { s with words := text :: s.words } rest
  | .switch w value :: rest =>
    match s.add? w value with
    | none => none
    | some s => ofItems? s rest

end Side

def side? (own : List Switch) (words : List String) : Option Side :=
  match Side.ofItems? .empty (items (own ++ Switch.general) none words) with
  | none => none
  | some s => if s.words = [] then none else some s

def defaultInterval : Nat := 5

def command? (name : String) (words : List String) : Option (Side × Command) :=
  match name with
  | "analyze" =>
    (side? [.prompt] words).map fun s => (s, .analyze s.paths (s.has .prompt))
  | "apply" =>
    (side? [.payload, .dryRun, .diff, .onlyFunctions] words).map fun s =>
      (s, .apply s.paths (s.path? .payload) (s.has .dryRun) (s.has .diff) (s.has .onlyFunctions))
  | "watch" =>
    (side? [.interval, .maxRuns] words).map fun s =>
      (s, .watch s.paths ((s.natural? .interval).getD defaultInterval) (s.natural? .maxRuns))
  | _ => none

def topSwitches : List Switch := .version :: Switch.general

def topItems (s : Side) : List Item → Option (Side ⊕ Unit)
  | [] => some (.inl s)
  | .switch w value :: rest =>
    match s.add? w value with
    | none => none
    | some s => if w = .version then some (.inr ()) else topItems s rest
  | _ => none

/-- Reads the words up to the command, and then the rest by the rules of the command. The version is
asked for as soon as its switch is met. -/
def top? (s : Side) (waiting : Option Switch) : List String → Option Invocation
  | [] => none
  | word :: rest =>
    match waiting with
    | some w =>
      if !isPlain word then none
      else (s.add? w (some word)).bind fun s => top? s none rest
    | none =>
      if isPlain word then
        (command? word rest).map fun (own, command) =>
          .run ((own.path? .config).or (s.path? .config)) command
      else if word = "--" then none
      else
        let (found, waiting) := wordItems topSwitches word
        match topItems s found with
        | none => none
        | some (.inr ()) => some .version
        | some (.inl s) => top? s waiting rest

def read? (words : List String) : Option Invocation := top? .empty none words

end Arguments

end DocGap
