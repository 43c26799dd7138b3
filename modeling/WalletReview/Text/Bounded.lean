import WalletReview.Text.Chunk

/-! Text in a fixed number of bytes. Writing keeps as many whole characters as fit, and whatever is
dropped is wiped: bytes past the used ones are zero. -/
namespace WalletReview

/-- A text of at most `capacity` bytes, with its storage. -/
structure BoundedText (capacity : Nat) where
  buffer : List UInt8
  used : Nat
  deriving DecidableEq

namespace BoundedText

variable {n : Nat}

def empty (n : Nat) : BoundedText n := ⟨.replicate n 0, 0⟩

instance : Inhabited (BoundedText n) := ⟨empty n⟩

def capacity (_ : BoundedText n) : Nat := n

def isEmpty (t : BoundedText n) : Bool := t.used == 0

def encode (cs : List Char) : List UInt8 := cs.flatMap String.utf8EncodeChar

def text (t : BoundedText n) : String :=
  (String.fromUTF8? (t.buffer.take t.used).toByteArray).getD "INVALID_UTF8"

/-- Bytes `start` to `start + bytes.length` of a storage replaced. -/
def overwrite (buffer : List UInt8) (start : Nat) (bytes : List UInt8) : List UInt8 :=
  buffer.take start ++ bytes ++ buffer.drop (start + bytes.length)

/-- The empty text, its former bytes wiped. -/
def clear (t : BoundedText n) : BoundedText n :=
  ⟨overwrite t.buffer 0 (.replicate t.used 0), 0⟩

/-- The whole storage wiped, as `zeroize` wipes it: every byte is zero, and so is the number of
those used. -/
def wipe (_ : BoundedText n) : BoundedText n := empty n

/-- Append the characters before the last boundary for which there is room. -/
def appendChars (t : BoundedText n) (cs : List Char) : BoundedText n :=
  let kept := Text.floorBoundary cs (n - t.used)
  ⟨overwrite t.buffer t.used ((encode cs).take kept), t.used + kept⟩

def hasRoom (t : BoundedText n) (cs : List Char) : Bool :=
  Text.floorBoundary cs (n - t.used) == Text.size cs

/-- Append what fits of a text, and say whether that is all of it. -/
def append (t : BoundedText n) (s : String) : BoundedText n × Bool :=
  (t.appendChars s.toList, t.hasRoom s.toList)

def push (t : BoundedText n) (c : Char) : BoundedText n × Bool :=
  (t.appendChars [c], t.hasRoom [c])

def set (t : BoundedText n) (s : String) : BoundedText n × Bool := t.clear.append s

/-- The characters before the last boundary within `k` bytes, the rest wiped. -/
def truncate (t : BoundedText n) (k : Nat) : BoundedText n :=
  if t.used ≤ k then t
  else
    let kept := Text.floorBoundary t.text.toList k
    ⟨overwrite t.buffer kept (.replicate (t.used - kept) 0), kept⟩

/-- Append texts in turn up to the first that does not fit; say whether all did. -/
def appendAll (t : BoundedText n) : List String → BoundedText n × Bool
  | [] => (t, true)
  | s :: rest =>
    match t.append s with
    | (t, true) => appendAll t rest
    | (t, false) => (t, false)

/-- Everything that can be done to a bounded text. -/
inductive Edit
  | set (s : String)
  | append (s : String)
  | push (c : Char)
  | write (parts : List String)
  | truncate (size : Nat)
  | clear
  | wipe
  deriving DecidableEq

def Edit.perform (t : BoundedText n) : Edit → BoundedText n × Bool
  | set s => t.set s
  | append s => t.append s
  | push c => t.push c
  | write parts => t.appendAll parts
  | truncate size => (t.truncate size, true)
  | clear => (t.clear, true)
  | wipe => (t.wipe, true)

def ofEdits (n : Nat) (edits : List Edit) : BoundedText n :=
  edits.foldl (fun t e => (e.perform t).1) (empty n)

end BoundedText
end WalletReview
