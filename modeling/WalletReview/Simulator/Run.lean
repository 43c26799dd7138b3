import WalletReview.Config.Reader
import WalletReview.Document.Reader
import WalletReview.Simulator.Command
import WalletReview.Simulator.Frame
import WalletReview.Simulator.Options

/-! The simulator: a document is reviewed on a device, line by line of what the user types, until
the review ends or the user leaves. What it shows are screens, help, and the notices of the
journal. -/
namespace WalletReview.Simulator

inductive Shown
  | screen (lineLength : Nat) (contents : Screen)
  | help
  | notice (notice : Notice)
  deriving DecidableEq

/-- A review in progress, and what has been shown of it, the latest first. -/
structure Simulation where
  sitting : Sitting Engine Document.Reading
  shown : List Shown

abbrev Step := StateT Simulation Checked

def put (s : Shown) : Step Unit := modify fun t => { t with shown := s :: t.shown }

def remark (severity : Severity) (text : String) : Step Unit :=
  put (.notice (.remark severity text))

def perform {α : Type} (op : Operation Engine Document.Reading α) : Step (Except Error α) :=
  fun t => do
    let (result, sitting) ← op t.sitting
    let shown := sitting.journal.map .notice ++ t.shown
    return (result, { sitting := { sitting with journal := [] }, shown })

def engine : Step Engine := return (← get).sitting.machine

def render : Step Unit := do
  let e ← engine
  put (.screen e.config.lineLength e.display)

/-- Carry out a command; whether the simulator is to stop. -/
def handle : Command → Step Bool
  | .quit => return true
  | .button button => do
    match ← perform (button.press Document.provider) with
    | .ok .update => render
    | .ok (.exit approved) =>
      remark .info (if approved then "review approved" else "review closed")
      return true
    | .ok .none | .error _ => pure ()
    return (← engine).position == .idle
  | .event event => do
    match ← perform (Engine.update Document.provider event) with
    | .ok _ => render
    | .error cause => remark .warn ("event rejected: " ++ cause.message)
    return (← engine).position == .idle

def takeLine (line : String) : Step Bool := do
  match Command.parse? line with
  | some command => handle command
  | none =>
    put .help
    return false

def takeLines : List String → Step Unit
  | [] => return
  | line :: rest => do
    if ← takeLine line then return
    takeLines rest

def modes (o : Options) : Modes :=
  { blindSign := o.blindSign, blindSignRequired := o.blindSign, shortcut := o.shortcut }

def openReview (o : Options) : Step Unit := do
  let t ← get
  remark .info
    ("Reviewing " ++ toString t.sitting.content.document.items.length ++ " item(s) on " ++
      o.device.name ++ " (" ++ t.sitting.machine.config.terminal.name ++ ")")
  let _ ← perform (Engine.setModes (modes o))
  match ← perform (Engine.begin Document.provider o.kind o.confirm o.intent) with
  | .ok _ => pure ()
  | .error cause => remark .warn ("review failed to start: " ++ cause.message)
  render
  put .help

def close : Step Unit := do
  match (← get).sitting.content.outcome with
  | some outcome => remark .info ("Review complete: " ++ outcome.name)
  | none => remark .info "Review incomplete"

def Simulation.start (config : Config) (document : Document) : Simulation :=
  ⟨{ machine := .start config, content := { document } }, []⟩

/-- What to review, and on what, for given options and files; none if a file cannot be read. -/
def load? (o : Options) (files : String → Option String) : Option (Config × Document) := do
  let config ← match o.config with
    | some path => (Config.parse (← files path)).toOption
    | none => some o.device.config
  let document ← (Document.parse (← files o.document)).toOption
  return (config, document)

/-- The lines on standard output for something shown, and whether they are all of it. Errors are
logged elsewhere. -/
def Shown.lines (level : LogLevel) : Shown → List String × Bool
  | .screen lineLength contents => frame lineLength contents
  | .help => ([Simulator.help], true)
  | .notice n =>
    if n.severity ≠ .error && level.admits n.severity then
      (["[" ++ n.severity.name ++ "] " ++ n.text], true)
    else ([], true)

/-- The lines for all that was shown, in order, up to something of which not all can be shown;
whether there is no such thing. -/
def outputLines (level : LogLevel) : List Shown → List String × Bool
  | [] => ([], true)
  | s :: rest =>
    match s.lines level with
    | (lines, true) =>
      let (more, complete) := outputLines level rest
      (lines ++ more, complete)
    | (lines, false) => (lines, false)

structure Result where
  exit : Nat
  output : String

def usage : String :=
  "Usage: simulator <DOCUMENT> [--device DEVICE] [--config FILE] [--kind KIND] [--confirm] " ++
    "[--blindsign] [--shortcut] [--intent TEXT] [--log-level LEVEL]"

def unlines (lines : List String) : String := String.join (lines.map (· ++ "\n"))

def faultExit : Nat := 101

def run (deviceName : Option String) (files : String → Option String) (args : List String)
    (typed : String) : Result :=
  match Options.parse deviceName args with
  | .error .help => ⟨0, usage ++ "\n"⟩
  | .error .refused => ⟨2, ""⟩
  | .ok o =>
    match load? o files with
    | none => ⟨1, ""⟩
    | some (config, document) =>
      let course : Step Unit := do
        openReview o
        takeLines (Text.splitLines typed)
        close
      match course (.start config document) with
      | .error _ => ⟨faultExit, ""⟩
      | .ok (_, t) =>
        let (lines, complete) := outputLines o.logLevel t.shown.reverse
        ⟨if complete then 0 else faultExit, unlines lines⟩

end WalletReview.Simulator
