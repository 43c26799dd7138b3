import WalletReview.Text.Chunk

/-! Reading JSON from left to right: the first thing wrong decides how a text is refused. This
module holds the reader, literals and strings. -/
namespace WalletReview.Json

inductive Refusal
  | malformed
  /-- JSON, but not of the form asked for. -/
  | mismatch
  | truncated
  deriving DecidableEq

abbrev Reader := StateT (List Char) (Except Refusal)

namespace Reader

def isSpace (c : Char) : Bool := c = ' ' || c = '\n' || c = '\t' || c = '\r'

def peek : Reader (Option Char) := return (← get).head?

def skip (count : Nat) : Reader Unit := modify (·.drop count)

def next : Reader (Option Char) := do
  let c ← peek
  skip 1
  return c

def peekToken : Reader (Option Char) := do
  modify (·.dropWhile isSpace)
  peek

def literal : List Char → Reader Unit
  | [] => return
  | c :: rest => do
    match ← next with
    | none => throw .truncated
    | some d => if d = c then literal rest else throw .malformed

def expect (c : Char) : Reader Unit := literal [c]

def nullWord : Reader Unit := literal ['n', 'u', 'l', 'l']

def trueWord : Reader Unit := literal ['t', 'r', 'u', 'e']

def falseWord : Reader Unit := literal ['f', 'a', 'l', 's', 'e']

def hexValue? (c : Char) : Option Nat :=
  if '0' ≤ c && c ≤ '9' then some (c.toNat - 48)
  else if 'a' ≤ c && c ≤ 'f' then some (c.toNat - 87)
  else if 'A' ≤ c && c ≤ 'F' then some (c.toNat - 55)
  else none

/-- Four digits of base sixteen. A text of less than four more bytes ended early. -/
def hex4 : Reader Nat := do
  let digits := (← get).take 4
  if Text.size digits < 4 then throw .truncated
  match digits.mapM hexValue? with
  | some values =>
    skip 4
    return values.foldl (fun n v => 16 * n + v) 0
  | none => throw .malformed

def isHighSurrogate (n : Nat) : Bool := 0xD800 ≤ n && n ≤ 0xDBFF

def isLowSurrogate (n : Nat) : Bool := 0xDC00 ≤ n && n ≤ 0xDFFF

/-- The character that an escape by number stands for, where a pair of surrogates is one character
and a surrogate alone is none. -/
def numbered : Reader Char := do
  let n ← hex4
  if isLowSurrogate n then throw .malformed
  if isHighSurrogate n then
    literal ['\\', 'u']
    let m ← hex4
    if isLowSurrogate m then return .ofNat (0x10000 + (n - 0xD800) * 0x400 + (m - 0xDC00))
    else throw .malformed
  return .ofNat n

def escaped (numbered : Reader Char) : Reader Char := do
  match ← next with
  | none => throw .truncated
  | some '"' => return '"'
  | some '\\' => return '\\'
  | some '/' => return '/'
  | some 'b' => return '\x08'
  | some 'f' => return '\x0c'
  | some 'n' => return '\n'
  | some 'r' => return '\r'
  | some 't' => return '\t'
  | some 'u' => numbered
  | some _ => throw .malformed

/-- A character of a string, or none for the quote that ends it. -/
def stringChar (numbered : Reader Char) : Reader (Option Char) := do
  match ← next with
  | none => throw .truncated
  | some '"' => return none
  | some '\\' => some <$> escaped numbered
  | some c => if c.toNat < 32 then throw .malformed else return some c

/-- The characters of a string up to its end, after those already read, the latest first. There are
no more of them than of `bound`. -/
def stringRest (numbered : Reader Char) : (bound : List Char) → List Char → Reader String
  | [], _ => throw .truncated
  | _ :: bound, read => do
    match ← stringChar numbered with
    | none => return .ofList read.reverse
    | some c => stringRest numbered bound (c :: read)

def stringWith (numbered : Reader Char) : Reader String := do
  expect '"'
  stringRest numbered (← get) []

def string : Reader String := stringWith numbered

/-- A string of no interest; surrogates may stand alone in it. -/
def ignoredString : Reader Unit := do
  let _ ← stringWith (do let _ ← hex4; return ' ')

end Reader
end WalletReview.Json
