/-! Mode flags of the application, and their encoding as the low bits of a byte. -/
namespace WalletReview

structure Modes where
  expert : Bool := false
  account : Bool := false
  blindSign : Bool := false
  /-- The review at hand needs blind signing. -/
  blindSignRequired : Bool := false
  secret : Bool := false
  /-- Fields may be skipped by a shortcut. -/
  shortcut : Bool := false
  deriving DecidableEq, Inhabited

namespace Modes

def none : Modes := {}

def every : Modes := ⟨true, true, true, true, true, true⟩

def flags (m : Modes) : List (String × Bool) :=
  [("EXPERT", m.expert), ("ACCOUNT", m.account), ("BLINDSIGN", m.blindSign),
    ("BLINDSIGN_REQUIRED", m.blindSignRequired), ("SECRET", m.secret), ("SHORTCUT", m.shortcut)]

def bits (m : Modes) : UInt8 :=
  m.flags.foldr (fun flag acc => 2 * acc + flag.2.toUInt8) 0

/-- The flags among the bits of a byte; other bits are dropped. -/
def ofBits (b : UInt8) : Modes :=
  let bit (k : UInt8) : Bool := (b >>> k) &&& 1 == 1
  ⟨bit 0, bit 1, bit 2, bit 3, bit 4, bit 5⟩

/-- The flags of a byte that has no other bits. -/
def ofBits? (b : UInt8) : Option Modes := if b < 64 then some (ofBits b) else .none

def zipWith (f : Bool → Bool → Bool) (x y : Modes) : Modes :=
  ⟨f x.expert y.expert, f x.account y.account, f x.blindSign y.blindSign,
    f x.blindSignRequired y.blindSignRequired, f x.secret y.secret, f x.shortcut y.shortcut⟩

def union : Modes → Modes → Modes := zipWith or

def inter : Modes → Modes → Modes := zipWith and

def diff : Modes → Modes → Modes := zipWith fun a b => a && !b

def symmDiff : Modes → Modes → Modes := zipWith xor

def compl (x : Modes) : Modes := every.diff x

def contains (x y : Modes) : Bool := x.inter y == y

def intersects (x y : Modes) : Bool := x.inter y != none

def describe (m : Modes) : String :=
  match m.flags.filter (·.2) with
  | [] => "(empty)"
  | set => " | ".intercalate (set.map (·.1))

end Modes
end WalletReview
