import WalletReview.Checked
import WalletReview.Text.Bounded

/-! Long texts shown page by page. A page is a chunk of the text; the number of pages is reported in
a byte and stops at 255. -/
namespace WalletReview.Text

/-- The pages of a text, of at most `width` bytes but never more than `capacity` nor less than one.
-/
def pages (capacity width : Nat) (s : String) : List (List Char) :=
  chunks (min (max width 1) capacity) s.toList

end WalletReview.Text

namespace WalletReview.BoundedText

variable {n : Nat}

/-- Replace the text by one page of `s`, by nothing if there is no such page; with the page count.
-/
def setPage (t : BoundedText n) (s : String) (width : Nat) (page : UInt8) :
    BoundedText n × UInt8 :=
  let all := Text.pages n width s
  (t.clear.appendChars (all[page.toNat]?.getD []), saturate8 all.length)

/-- Like `setPage`, where a text without any capacity has no page width. -/
def setPageChecked (t : BoundedText n) (s : String) (width : Nat) (page : UInt8) :
    Checked (BoundedText n × UInt8) :=
  if n = 0 then .error .outOfRange else .ok (t.setPage s width page)

end WalletReview.BoundedText
