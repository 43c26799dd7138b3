import WalletReview.Json.Numeral

/-! Values of no interest, of any form and depth, and the refusal of values of a wrong form. -/
namespace WalletReview.Json.Reader

def colon : Reader Unit := do
  match ← peekToken with
  | none => throw .truncated
  | some c => if c = ':' then skip 1 else throw .malformed

mutual

def ignoredWith : (fuel : Nat) → Reader Unit
  | 0 => throw .truncated
  | fuel + 1 => do
    match ← peekToken with
    | none => throw .truncated
    | some 'n' => nullWord
    | some 't' => trueWord
    | some 'f' => falseWord
    | some '"' => ignoredString
    | some '[' =>
      skip 1
      ignoredElements fuel true
    | some '\x7b' =>
      skip 1
      ignoredMembers fuel true
    | some c => if c = '-' || isDigit c then ignoredNumeral else throw .malformed

def ignoredElements : (fuel : Nat) → (first : Bool) → Reader Unit
  | 0, _ => throw .truncated
  | fuel + 1, first => do
    match ← peekToken with
    | none => throw .truncated
    | some ']' => skip 1
    | some c =>
      if !first then
        if c = ',' then skip 1 else throw .malformed
      ignoredWith fuel
      ignoredElements fuel false

def ignoredMembers : (fuel : Nat) → (first : Bool) → Reader Unit
  | 0, _ => throw .truncated
  | fuel + 1, first => do
    match ← peekToken with
    | none => throw .truncated
    | some '\x7d' => skip 1
    | some c =>
      if !first then
        if c = ',' then skip 1 else throw .malformed
      match ← peekToken with
      | none => throw .truncated
      | some c =>
        if c ≠ '"' then throw .malformed
        ignoredString
        colon
        ignoredWith fuel
        ignoredMembers fuel false

end

def ignored : Reader Unit := do
  ignoredWith (2 * (← get).length + 2)

/-- Refuse the value that follows as one of a wrong form, unless it is itself malformed; of a list
or an object that is not looked into. -/
def wrongForm {α : Type} : Reader α := do
  match ← peek with
  | some 'n' => nullWord
  | some 't' => trueWord
  | some 'f' => falseWord
  | some '"' => let _ ← string
  | some '[' | some '\x7b' => return ← throw .mismatch
  | some c => if c = '-' || isDigit c then let _ ← numeral else throw .malformed
  | none => throw .truncated
  throw .mismatch

end WalletReview.Json.Reader
