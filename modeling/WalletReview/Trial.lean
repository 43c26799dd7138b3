import WalletReview.Operation

/-! Trials of a machine: sequences of operations with demands on what they show. -/
namespace WalletReview

inductive Failure
  | refused (cause : Error)
  | told (text : String)
  /-- A demand that needs no words. -/
  | unmet

def Failure.message? : Failure → Option String
  | refused cause => some cause.message
  | told text => some text
  | unmet => none

abbrev Trial (μ σ : Type) := ExceptT Failure (StateT (Sitting μ σ) Checked)

namespace Trial

variable {μ σ α : Type}

def attempt (op : Operation μ σ α) : Trial μ σ (Except Error α) := fun s => do
  let (result, s) ← op s
  return (.ok result, s)

def perform (op : Operation μ σ α) : Trial μ σ α := do
  match ← attempt op with
  | .ok a => return a
  | .error cause => throw (.refused cause)

def machine : Trial μ σ μ := return (← get).machine

def content : Trial μ σ σ := return (← get).content

def modifyContent (f : σ → σ) : Trial μ σ Unit := modify fun s => { s with content := f s.content }

def restart (machine : μ) (content : σ) : Trial μ σ Unit :=
  modify fun s => { s with machine, content }

def remark (severity : Severity) (text : String) : Trial μ σ Unit :=
  modify fun s => { s with journal := .remark severity text :: s.journal }

def demand (holds : Bool) : Trial μ σ Unit := if holds then return else throw .unmet

/-- A demand that is told of if it is not met. -/
def demandOr (holds : Bool) (text : String) : Trial μ σ Unit :=
  if holds then return else throw (.told text)

def isRefused (result : Except Error α) (cause : Error) : Bool :=
  match result with
  | .ok _ => false
  | .error c => c == cause

def giveUp (text : String) : Trial μ σ α := throw (.told text)

end Trial
end WalletReview
