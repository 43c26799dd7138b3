/-! The causes for which an operation of a review is refused or aborted. -/
namespace WalletReview

inductive Error
  /-- There is nothing at the requested index or page. -/
  | noData
  | outOfBounds
  | bufferTooSmall
  | notInitialised
  | invalidState
  | unexpectedEvent
  | notInspectable
  | maxDepth
  | invalidKind
  /-- A content gave answers that do not fit together. -/
  | unknown
  deriving DecidableEq, Inhabited

namespace Error

def all : List Error :=
  [noData, outOfBounds, bufferTooSmall, notInitialised, invalidState, unexpectedEvent,
    notInspectable, maxDepth, invalidKind, unknown]

def code : Error → UInt8
  | noData => 0x00
  | outOfBounds => 0x01
  | bufferTooSmall => 0x02
  | notInitialised => 0x03
  | invalidState => 0x04
  | unexpectedEvent => 0x05
  | notInspectable => 0x06
  | maxDepth => 0x07
  | invalidKind => 0x08
  | unknown => 0xf0

def name : Error → String
  | noData => "NoData"
  | outOfBounds => "OutOfBounds"
  | bufferTooSmall => "BufferTooSmall"
  | notInitialised => "NotInitialised"
  | invalidState => "InvalidState"
  | unexpectedEvent => "UnexpectedEvent"
  | notInspectable => "NotInspectable"
  | maxDepth => "MaxDepth"
  | invalidKind => "InvalidKind"
  | unknown => "Unknown"

def message : Error → String
  | noData => "no data"
  | outOfBounds => "index out of bounds"
  | bufferTooSmall => "buffer too small"
  | notInitialised => "provider not initialised"
  | invalidState => "invalid engine state"
  | unexpectedEvent => "unexpected event"
  | notInspectable => "field can not be inspected"
  | maxDepth => "maximum inspection depth reached"
  | invalidKind => "unknown review kind"
  | unknown => "unknown"

def ofName? (s : String) : Option Error := all.find? (·.name == s)

end Error
end WalletReview
