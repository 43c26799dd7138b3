import WalletReview.Document

/-! Documents written as JSON: fields in their order, without spaces, and without empty lists of
children. -/
namespace WalletReview

namespace Json

def hexDigit (n : Nat) : Char := if n < 10 then .ofNat (48 + n) else .ofNat (87 + n)

def escape (c : Char) : List Char :=
  match c with
  | '"' => ['\\', '"']
  | '\\' => ['\\', '\\']
  | '\x08' => ['\\', 'b']
  | '\x0c' => ['\\', 'f']
  | '\n' => ['\\', 'n']
  | '\r' => ['\\', 'r']
  | '\t' => ['\\', 't']
  | c =>
    if c.toNat < 32 then ['\\', 'u', '0', '0', hexDigit (c.toNat / 16), hexDigit (c.toNat % 16)]
    else [c]

def quote (s : String) : List Char := '"' :: s.toList.flatMap escape ++ ['"']

end Json

namespace Document

open Json (quote)

def commas : List (List Char) → List Char
  | [] => []
  | [x] => x
  | x :: rest => x ++ ',' :: commas rest

def field (name : String) (value : List Char) : List Char := quote name ++ ':' :: value

mutual

def Item.print : Item → List Char
  | .node entry children =>
    let inner := match children with
      | [] => []
      | _ :: _ => [field "children" ('[' :: commas (printAll children) ++ [']'])]
    let fields := field "key" (quote entry.key) :: field "value" (quote entry.value) :: inner
    '\x7b' :: commas fields ++ ['\x7d']

def printAll : List Item → List (List Char)
  | [] => []
  | item :: rest => Item.print item :: printAll rest

end

def print (d : Document) : String :=
  let title := match d.title with
    | some (key, value) => '[' :: commas [quote key, quote value] ++ [']']
    | none => "null".toList
  let items := '[' :: commas (printAll d.items) ++ [']']
  .ofList ('\x7b' :: commas [field "title" title, field "items" items] ++ ['\x7d'])

end Document
end WalletReview
