import WalletReview.Config
import WalletReview.Journal

/-! The command line of the simulator. Options have a value, as the next argument or after an equals
sign; flags have none; neither may come twice. The one other argument is the document. Arguments are
read from left to right, up to one that asks for help or has no place. -/
namespace WalletReview.Simulator

inductive Device
  | nanoS
  | nanoX
  | stax
  deriving DecidableEq

namespace Device

def all : List Device := [nanoS, nanoX, stax]

def name : Device → String
  | nanoS => "nanos"
  | nanoX => "nanox"
  | stax => "stax"

def ofName? (s : String) : Option Device := all.find? (·.name == s)

def config : Device → Config
  | nanoS => .nanoS
  | nanoX => .nanoX
  | stax => .stax

end Device

abbrev LogLevel := Option Severity

namespace LogLevel

def ofName? (s : String) : Option LogLevel :=
  let name := s.map Char.toUpper
  if name = "OFF" then some none else (Severity.all.find? (·.name == name)).map some

def admits (level : LogLevel) (severity : Severity) : Bool :=
  match level with
  | some lowest => severity.rank ≤ lowest.rank
  | none => false

end LogLevel

structure Options where
  document : String
  device : Device
  /-- Where a configuration is, if not that of the device is meant. -/
  config : Option String
  kind : Kind
  confirm : Bool
  blindSign : Bool
  shortcut : Bool
  intent : Option String
  logLevel : LogLevel

structure Arguments where
  document : Option String := none
  values : List (String × String) := []
  flags : List String := []

inductive Usage
  | help
  | refused
  deriving DecidableEq

def optionNames : List String := ["device", "config", "kind", "intent", "log-level"]

def flagNames : List String := ["confirm", "blindsign", "shortcut"]

/-- Whether an argument stands for an option or a flag, and not for a value. -/
def isOption (arg : List Char) : Bool := arg.head? = some '-' && arg ≠ ['-']

def Arguments.setDocument (sorted : Arguments) (arg : String) : Except Usage Arguments :=
  if sorted.document.isSome then throw .refused else return { sorted with document := some arg }

/-- Sort the arguments. After a lone `--` they are all documents. -/
def Arguments.sort : List String → Arguments → Except Usage Arguments
  | [], sorted => return sorted
  | arg :: rest, sorted =>
    if !isOption arg.toList then do sort rest (← sorted.setDocument arg)
    else if arg = "--" then rest.foldlM setDocument sorted
    else if arg.toList.take 2 ≠ ['-', '-'] then
      throw (if arg.toList.take 2 = ['-', 'h'] then .help else .refused)
    else
      let name := String.ofList ((arg.toList.drop 2).takeWhile (· ≠ '='))
      let attached := ((arg.toList.drop 2).dropWhile (· ≠ '=')).tail?.map String.ofList
      let known := sorted.flags.contains name || sorted.values.any (·.1 == name)
      if known then throw .refused
      else if optionNames.contains name then
        match attached, rest with
        | some value, rest => sort rest { sorted with values := sorted.values ++ [(name, value)] }
        | none, value :: rest =>
          if isOption value.toList then throw .refused
          else sort rest { sorted with values := sorted.values ++ [(name, value)] }
        | none, [] => throw .refused
      else if flagNames.contains name && attached.isNone then
        sort rest { sorted with flags := sorted.flags ++ [name] }
      else throw (if name = "help" && attached.isNone then .help else .refused)

def Arguments.value {α : Type} (sorted : Arguments) (name : String) (ofName? : String → Option α)
    (otherwise : α) : Except Usage α :=
  match sorted.values.lookup name with
  | none => return otherwise
  | some text =>
    match ofName? text with
    | some a => return a
    | none => throw .refused

/-- The options of a command line. The device can also be named by the environment. -/
def Options.parse (deviceName : Option String) (args : List String) : Except Usage Options := do
  let sorted ← Arguments.sort args {}
  let sorted := match sorted.values.lookup "device", deviceName with
    | none, some name => { sorted with values := sorted.values ++ [("device", name)] }
    | _, _ => sorted
  match sorted.document with
  | some document =>
    return {
      document
      device := ← sorted.value "device" Device.ofName? .nanoX
      config := sorted.values.lookup "config"
      kind := ← sorted.value "kind" Kind.ofName? .transaction
      confirm := sorted.flags.contains "confirm"
      blindSign := sorted.flags.contains "blindsign"
      shortcut := sorted.flags.contains "shortcut"
      intent := sorted.values.lookup "intent"
      logLevel := ← sorted.value "log-level" LogLevel.ofName? (some .info) }
  | none => throw .refused

end WalletReview.Simulator
