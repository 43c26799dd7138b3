import WalletReview.Checked
import WalletReview.Json.Reader

/-! Numbers in JSON. A natural number is known exactly up to 64 bits; of other numbers it only
matters whether they are well formed and not beyond the range of a double. -/
namespace WalletReview.Json

inductive Numeral
  | natural (n : Nat)
  /-- A negative number, a fraction, or one of more than 64 bits. -/
  | other
  deriving DecidableEq

namespace Reader

def isDigit (c : Char) : Bool := '0' ≤ c && c ≤ '9'

def digits : Reader (List Char) := modifyGet (·.span isDigit)

def atDigit : Reader Bool := return (← peek).any isDigit

/-- The number that leading digits add to `n`, as many as keep it within 64 bits, and the digits
left. -/
def significand (n : Nat) : List Char → Nat × List Char
  | [] => (n, [])
  | c :: rest =>
    let m := 10 * n + (c.toNat - 48)
    if m < wordValues then significand m rest else (n, c :: rest)

/-- Whether `n * 10 ^ e` is beyond the range of a double. -/
def isOutOfRange (n : Nat) (e : Int) : Bool :=
  n != 0 && 0 ≤ e &&
    (308 < e || (Float.ofNat n * Float.ofScientific 1 false e.toNat).isInf)

def scaled (n : Nat) (e : Int) : Reader Numeral :=
  if isOutOfRange n e then throw .malformed else return .other

def exponent (n : Nat) (e : Int) : Reader Numeral := do
  let sign ← peek
  if sign = some '+' || sign = some '-' then skip 1
  match ← digits with
  | [] => throw (if (← peek).isNone then .truncated else .malformed)
  | first :: rest =>
    let shift := (first :: rest).foldl (fun (v : Nat) c => 10 * v + (c.toNat - 48)) 0
    scaled n (if sign = some '-' then e - shift else e + shift)

def fraction (n : Nat) (e : Int) : Reader Numeral := do
  match ← digits with
  | [] => throw (if (← peek).isNone then .truncated else .malformed)
  | first :: rest =>
    let (m, left) := significand n (first :: rest)
    let e := e - ((first :: rest).length - left.length : Nat)
    if (← peek).any fun c => c = 'e' || c = 'E' then
      skip 1
      exponent m e
    else scaled m e

def integer : Reader (List Char) := do
  match ← next with
  | none => throw .truncated
  | some '0' => if ← atDigit then throw .malformed else return ['0']
  | some c => if isDigit c then return c :: (← digits) else throw .malformed

def numeral : Reader Numeral := do
  let negative := (← peek) = some '-'
  if negative then skip 1
  let (n, left) := significand 0 (← integer)
  match ← peek with
  | some '.' =>
    skip 1
    fraction n left.length
  | some 'e' | some 'E' =>
    skip 1
    exponent n left.length
  | _ =>
    if left.isEmpty && !negative then return .natural n else scaled n left.length

def ignoredDigits : Reader Unit := do
  if (← digits).isEmpty then throw .malformed

/-- A number of no interest; one that ends early is malformed. -/
def ignoredNumeral : Reader Unit := do
  if (← peek) = some '-' then skip 1
  if !(← atDigit) then throw .malformed
  let _ ← integer
  if (← peek) = some '.' then
    skip 1
    ignoredDigits
  if (← peek).any fun c => c = 'e' || c = 'E' then
    skip 1
    if (← peek).any fun c => c = '+' || c = '-' then skip 1
    ignoredDigits

end Reader
end WalletReview.Json
