import Std.Time
import WalletReview.Simulator.Run

/-! The simulator as a program: it reads the files and the lines typed, and prints what is shown,
the notices with the time of day. -/
namespace WalletReview.Simulator

def twoDigits (n : Nat) : String := (if n < 10 then "0" else "") ++ toString n

def clock : IO String := do
  let now ← Std.Time.Timestamp.now
  let seconds := (now.toSecondsSinceUnixEpoch.val % 86400).toNat
  return ":".intercalate
    [twoDigits (seconds / 3600), twoDigits (seconds / 60 % 60), twoDigits (seconds % 60)]

def print (level : LogLevel) : Shown → IO Bool
  | .notice n => do
    let line := (← clock) ++ " [" ++ n.severity.name ++ "] " ++ n.text
    if level.admits n.severity then
      if n.severity = .error then IO.eprintln line else IO.println line
    return true
  | s => do
    let (lines, complete) := s.lines level
    lines.forM fun line => IO.println line
    return complete

def printAll (level : LogLevel) : List Shown → IO Bool
  | [] => return true
  | s :: rest => do if ← print level s then printAll level rest else return false

def present {α : Type} (level : LogLevel) (step : Step α) (t : Simulation) :
    IO (Option (α × Simulation)) := do
  match step t with
  | .error _ => return none
  | .ok (a, t) =>
    let printed ← printAll level t.shown.reverse
    (← IO.getStdout).flush
    return if printed then some (a, { t with shown := [] }) else none

partial def takeInput (level : LogLevel) (t : Simulation) : IO (Option Simulation) := do
  let line ← (← IO.getStdin).getLine
  if line.isEmpty then return some t
  match ← present level (takeLine ((Text.splitLines line).headD "")) t with
  | none => return none
  | some (stop, t) => if stop then return some t else takeInput level t

def readText (path : String) : IO (Option String) := do
  try return some (← IO.FS.readFile path) catch _ => return none

def start (o : Options) : IO UInt32 := do
  let configText ← match o.config with
    | some path => readText path
    | none => pure none
  let documentText ← readText o.document
  let files (path : String) : Option String :=
    if o.config = some path then configText else documentText
  match load? o files with
  | none =>
    IO.eprintln "Error: the document or the configuration cannot be read"
    return 1
  | some (config, document) =>
    let fault := UInt32.ofNat faultExit
    match ← present o.logLevel (openReview o) (.start config document) with
    | none => return fault
    | some (_, t) =>
      match ← takeInput o.logLevel t with
      | none => return fault
      | some t => return if (← present o.logLevel close t).isSome then 0 else fault

end WalletReview.Simulator

open WalletReview.Simulator in
def main (args : List String) : IO UInt32 := do
  match Options.parse (← IO.getEnv "DEVICE") args with
  | .error .help =>
    IO.println usage
    return 0
  | .error .refused =>
    IO.eprintln usage
    return 2
  | .ok o => start o
