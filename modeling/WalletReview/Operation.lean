import WalletReview.Provider

/-! Operations on a machine in front of a content. An operation succeeds or is refused with an
`Error`, and either way leaves a machine, a content and a journal behind; only a `Fault` leaves
nothing. -/
namespace WalletReview

/-- A machine, the state of the provider that it asks, and the journal, its latest notice first. -/
structure Sitting (μ σ : Type) where
  machine : μ
  content : σ
  journal : List Notice := []

abbrev Operation (μ σ : Type) := ExceptT Error (StateT (Sitting μ σ) Checked)

namespace Operation

variable {μ σ α : Type}

def machine : Operation μ σ μ := return (← get).machine

def setMachine (m : μ) : Operation μ σ Unit := modify fun s => { s with machine := m }

def modifyMachine (f : μ → μ) : Operation μ σ Unit :=
  modify fun s => { s with machine := f s.machine }

def note (notice : Notice) : Operation μ σ Unit :=
  modify fun s => { s with journal := notice :: s.journal }

def settle (reply : Except Error α) : Operation μ σ α :=
  match reply with
  | .ok a => pure a
  | .error e => throw e

/-- The result of an operation, a refusal being a result as well. -/
def attempt (op : Operation μ σ α) : Operation μ σ (Except Error α) := fun s => do
  let (result, s) ← op s
  return (.ok result, s)

def ask (question : σ → α × σ) : Operation μ σ α :=
  modifyGet fun s =>
    let (answer, content) := question s.content
    (answer, { s with content })

/-- Put a question to the provider that comes with a field to write on. -/
def askField (question : σ → Except Error α × Field × σ) : Operation μ σ (Except Error α × Field) :=
  ask fun content =>
    let (reply, field, content) := question content
    ((reply, field), content)

/-- Rounds up to the first that has an answer. If none of them has one, `after` follows the loop. -/
def loop (round : Operation μ σ (Option α)) (after : Operation μ σ α) :
    (rounds : Nat) → Operation μ σ α
  | 0 => after
  | rounds + 1 => do
    match ← round with
    | some a => return a
    | none => loop round after rounds

/-- Tell the provider how the review ended, and note what it has to remark. -/
def conclude (p : Provider σ) (outcome : Outcome) : Operation μ σ Unit :=
  modify fun s =>
    { s with
      content := p.conclude outcome s.content
      journal := (p.remarks outcome).reverse ++ s.journal }

end Operation
end WalletReview
