import WalletReview.Text.Label
import WalletReview.Text.Page

/-! The field that a content writes and a screen shows: a key, and one page of a value. -/
namespace WalletReview

abbrev keyCapacity : Nat := 64

abbrev valueCapacity : Nat := 256

structure Field where
  key : BoundedText keyCapacity
  value : BoundedText valueCapacity
  pageLength : Nat
  deriving DecidableEq

namespace Field

def empty (pageLength : Nat) : Field := ⟨.empty _, .empty _, pageLength⟩

instance : Inhabited Field := ⟨empty 0⟩

/-- The page length within the capacity of a value. -/
def setPageLength (f : Field) (pageLength : Nat) : Field :=
  { f with pageLength := min (max pageLength 1) valueCapacity }

def clear (f : Field) : Field := { f with key := f.key.clear, value := f.value.clear }

def wipe (f : Field) : Field := { f with key := f.key.wipe, value := f.value.wipe }

def setKey (f : Field) (key : String) : Field := { f with key := (f.key.set key).1 }

def setValue (f : Field) (value : String) : Field := { f with value := (f.value.set value).1 }

/-- One page of a value, with the number of its pages. -/
def setValuePage (f : Field) (value : String) (page : UInt8) : Field × UInt8 :=
  let (text, count) := f.value.setPage value f.pageLength page
  ({ f with value := text }, count)

def setPage (f : Field) (key value : String) (page : UInt8) : Field × UInt8 :=
  (f.setKey key).setValuePage value page

def labelKey (f : Field) (page count : UInt8) (style : LabelStyle) : Field :=
  { f with key := f.key.appendLabel page count style }

end Field
end WalletReview
