import WalletReview.Button

/-! What a user types into the simulator: lines that end with a line feed, or with a carriage return
and a line feed, and on each of them a command. -/
namespace WalletReview

namespace Text

/-- A line without the carriage return at its end. -/
def dropReturn (line : List Char) : List Char :=
  if line.getLast? = some '\r' then line.dropLast else line

/-- The lines of a text; what follows the last line feed is a line unless it is empty. -/
def splitLines (s : String) : List String :=
  let pieces := s.toList.splitOn '\n'
  let rest := String.ofList (pieces.getLast?.getD [])
  pieces.dropLast.map (fun line => .ofList (dropReturn line)) ++ if rest = "" then [] else [rest]

/-- The code points of blank characters, those with the Unicode property `White_Space`, as closed
ranges. -/
def blankRanges : List (Nat × Nat) :=
  [(0x09, 0x0D), (0x20, 0x20), (0x85, 0x85), (0xA0, 0xA0), (0x1680, 0x1680), (0x2000, 0x200A),
    (0x2028, 0x2029), (0x202F, 0x202F), (0x205F, 0x205F), (0x3000, 0x3000)]

def isBlank (c : Char) : Bool := blankRanges.any fun (lo, hi) => lo ≤ c.toNat && c.toNat ≤ hi

theorem isBlank_of_isWhitespace {c : Char} (h : c.isWhitespace) : isBlank c := by
  simp only [Char.isWhitespace, Bool.or_eq_true, decide_eq_true_eq] at h
  rcases h with ((rfl | rfl) | rfl) | rfl <;> decide

def trim (s : String) : String :=
  .ofList (((s.toList.dropWhile isBlank).reverse.dropWhile isBlank).reverse)

end Text

namespace Simulator

inductive Command
  | button (button : Button)
  | event (event : Event)
  | quit
  deriving DecidableEq

/-- The command on a line, blanks at its ends aside; an empty line is the right button. -/
def Command.parse? (line : String) : Option Command :=
  match Text.trim line with
  | "l" => some (.button .left)
  | "r" | "" => some (.button .right)
  | "b" => some (.button .both)
  | "x" => some (.event .reject)
  | "u" => some (.event .inspectBack)
  | "t" => some (.event .inspectRoot)
  | "q" => some .quit
  | _ => none

def help : String := "[l]eft, [r]ight, [b]oth, reject [x], inspect [u]p / [t]op, [q]uit"

end Simulator
end WalletReview
