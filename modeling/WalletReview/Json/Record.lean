import WalletReview.Json.Ignored

/-! Values of a given form: numbers within a bound, flags, names out of a list, lists, and records.
A record is an object, or a list of its fields in order; brackets may be nested up to a depth. -/
namespace WalletReview.Json.Reader

/-- The number of brackets from which on nesting is refused. -/
def depthLimit : Nat := 128

/-- Go into a bracket, where `depth` more are refused. -/
def enter (depth : Nat) : Reader Unit :=
  if depth ≤ 1 then throw .malformed else skip 1

def text : Reader String := do
  match ← peekToken with
  | none => throw .truncated
  | some '"' => string
  | some _ => wrongForm

def flag : Reader Bool := do
  match ← peekToken with
  | none => throw .truncated
  | some 't' =>
    trueWord
    return true
  | some 'f' =>
    falseWord
    return false
  | some _ => wrongForm

def natural (bound : Nat) : Reader Nat := do
  match ← peekToken with
  | none => throw .truncated
  | some c =>
    if c = '-' || isDigit c then
      match ← numeral with
      | .natural n => if n < bound then return n else throw .mismatch
      | .other => throw .mismatch
    else wrongForm

def named {α : Type} (ofName? : String → Option α) (name : String) : Reader α :=
  match ofName? name with
  | some a => return a
  | none => throw .mismatch

def key : Reader String := do
  match ← peekToken with
  | none => throw .truncated
  | some c => if c = '"' then string else throw .malformed

/-- One of several named values: its name, or an object that holds null under its name. -/
def variant {α : Type} (depth : Nat) (ofName? : String → Option α) : Reader α := do
  match ← peekToken with
  | none => throw .truncated
  | some '"' => named ofName? (← string)
  | some '\x7b' =>
    enter depth
    let a ← named ofName? (← key)
    colon
    match ← peekToken with
    | none => throw .truncated
    | some 'n' => nullWord
    | some _ => wrongForm
    match ← peekToken with
    | none => throw .truncated
    | some c =>
      if c = '\x7d' then
        skip 1
        return a
      else throw .malformed
  | some _ => throw .malformed

def hasElement (first : Bool) : Reader Bool := do
  match ← peekToken with
  | none => throw .truncated
  | some ']' => return false
  | some c =>
    if first then return true
    if c ≠ ',' then throw .malformed
    skip 1
    match ← peekToken with
    | none => throw .truncated
    | some c => if c = ']' then throw .malformed else return true

def endList : Reader Unit := do
  match ← peekToken with
  | none => throw .truncated
  | some c => if c = ']' then skip 1 else throw .malformed

/-- The elements of a list that are left, no more of them than of `bound`. -/
def elements {α : Type} (one : Reader α) : (bound : List Char) → (first : Bool) → Reader (List α)
  | [], _ => throw .truncated
  | _ :: bound, first => do
    if ← hasElement first then
      let a ← one
      return a :: (← elements one bound false)
    else return []

def list {α : Type} (depth : Nat) (one : Reader α) : Reader (List α) := do
  match ← peekToken with
  | none => throw .truncated
  | some '[' =>
    enter depth
    let as ← elements one (← get) true
    endList
    return as
  | some _ => wrongForm

def pair {α : Type} (depth : Nat) (one : Reader α) : Reader (α × α) := do
  match ← peekToken with
  | none => throw .truncated
  | some '[' =>
    enter depth
    if !(← hasElement true) then throw .mismatch
    let a ← one
    if !(← hasElement false) then throw .mismatch
    let b ← one
    endList
    return (a, b)
  | some _ => wrongForm

def optional {α : Type} (one : Reader α) : Reader (Option α) := do
  match ← peekToken with
  | some 'n' =>
    nullWord
    return none
  | _ => some <$> one

/-- A field of a record that is collected in a draft. -/
structure Member (δ : Type) where
  name : String
  isSet : δ → Bool
  read : Reader (δ → δ)

variable {δ : Type}

def memberName (first : Bool) : Reader (Option String) := do
  match ← peekToken with
  | none => throw .truncated
  | some '\x7d' => return none
  | some c =>
    if !first then
      if c = ',' then skip 1 else throw .malformed
    some <$> key

/-- The members of an object that are left, up to its end. Members of other names are ignored, and a
name that comes twice is refused. There are no more of them than of `bound`. -/
def members (fields : List (Member δ)) : (bound : List Char) → (first : Bool) → δ → Reader δ
  | [], _, _ => throw .truncated
  | _ :: bound, first, draft => do
    match ← memberName first with
    | none => return draft
    | some name =>
      match fields.find? (·.name == name) with
      | some field =>
        if field.isSet draft then throw .mismatch
        colon
        let set ← field.read
        members fields bound false (set draft)
      | none =>
        colon
        ignored
        members fields bound false draft

def positional : List (Member δ) → (first : Bool) → δ → Reader δ
  | [], _, draft => return draft
  | field :: rest, first, draft => do
    if ← hasElement first then
      let set ← field.read
      positional rest false (set draft)
    else return draft

/-- A record of the given fields, built from the draft that they make of `blank`, if that has all
that is needed. -/
def record {α : Type} (depth : Nat) (fields : List (Member δ)) (blank : δ)
    (build : δ → Option α) : Reader α := do
  let finish (draft : δ) : Reader α :=
    match build draft with
    | some a => return a
    | none => throw .mismatch
  match ← peekToken with
  | none => throw .truncated
  | some '[' =>
    enter depth
    let a ← finish (← positional fields true blank)
    endList
    return a
  | some '\x7b' =>
    enter depth
    let a ← finish (← members fields (← get) true blank)
    skip 1
    return a
  | some _ => wrongForm

def whole {α : Type} (one : Reader α) (s : String) : Except Refusal α := do
  let (a, rest) ← one s.toList
  if rest.all isSpace then return a else throw .malformed

end WalletReview.Json.Reader
