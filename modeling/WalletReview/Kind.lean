/-! Kinds of content under review. -/
namespace WalletReview

inductive Kind
  | config
  | address
  | generic
  | transaction
  | message
  deriving DecidableEq, Inhabited

namespace Kind

def all : List Kind := [config, address, generic, transaction, message]

def name : Kind → String
  | config => "config"
  | address => "address"
  | generic => "generic"
  | transaction => "transaction"
  | message => "message"

/-- The name as the journal writes it inside an event. -/
def title : Kind → String
  | config => "Config"
  | address => "Address"
  | generic => "Generic"
  | transaction => "Transaction"
  | message => "Message"

def ofName? (s : String) : Option Kind := all.find? (·.name == s)

def ofCode? (code : UInt8) : Option Kind := all[code.toNat]?

/-- Transactions and messages are signed: they know blind signing and the offer to skip. -/
def isSigning : Kind → Bool
  | transaction | message => true
  | _ => false

end Kind
end WalletReview
