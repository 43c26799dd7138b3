import WalletReview.Proofs.Moves

/-! Runs of an engine: actions in any order, with a provider that may change in between. -/
namespace WalletReview.Engine

variable {σ : Type} {config : Config} {C : Contract config}

/-- An action of a run, with the engine before it, its reply, and the engine after it. -/
structure Step where
  action : Action
  before : Engine
  reply : Except Error Reply
  after : Engine

/-- The steps of a run, the latest first, and what it leaves behind. -/
inductive Run (p : Provider σ) (config : Config) : List Step → Sitting Engine σ → Prop
  | start (content : σ) : Run p config [] ⟨.start config, content, []⟩
  | act {steps : List Step} {t t' : Sitting Engine σ} {reply : Except Error Reply}
    (action : Action) : Run p config steps t →
    action.perform p t = .ok (reply, t') →
    Run p config (⟨action, t.machine, reply, t'.machine⟩ :: steps) t'
  | meddle {steps : List Step} {t : Sitting Engine σ} (content : σ) : Run p config steps t →
    Run p config steps { t with content }

/-- The steps since the review at hand began, the latest first. -/
def sinceBegin : List Step → List Step
  | [] => []
  | x :: steps => if x.before.session.isSome then x :: sinceBegin steps else [x]

namespace Run

variable {p : Provider σ} {steps : List Step} {t t' : Sitting Engine σ} {action : Action}
  {reply : Except Error Reply}

theorem sound (h : Run p config steps t) (hp : p.Honours C)
    (hstart : C.field (Engine.start config).field) : Sound C t.machine := by
  induction h with
  | start => exact sound_start hstart
  | act _ _ hact ih => exact sound_of_acts ih ((perform_ensures hp ih _).of_eq hact)
  | meddle _ _ ih => exact ih

theorem acts (h : Run p config steps t) (hp : p.Honours C)
    (hstart : C.field (Engine.start config).field)
    (hact : action.perform p t = .ok (reply, t')) : Acts C t.machine action reply t'.machine :=
  (perform_ensures hp (h.sound hp hstart) action).of_eq hact

end Run

/-- Carried out one after another behind `steps`, the actions have results, and `post` holds of all
the steps and of what they leave behind. -/
def After (p : Provider σ) (post : List Step → Sitting Engine σ → Prop) :
    List Action → List Step → Sitting Engine σ → Prop
  | [], steps, t => post steps t
  | action :: actions, steps, t => (action.perform p).Ensures t fun reply t' =>
    After p post actions (⟨action, t.machine, reply, t'.machine⟩ :: steps) t'

instance decidableAfter {p : Provider σ} {post : List Step → Sitting Engine σ → Prop}
    [∀ steps t, Decidable (post steps t)] (actions : List Action) (steps : List Step)
    (t : Sitting Engine σ) : Decidable (After p post actions steps t) :=
  match actions with
  | [] => inferInstanceAs (Decidable (post steps t))
  | action :: actions =>
    have (reply : Except Error Reply) (t' : Sitting Engine σ) : Decidable
        (After p post actions (⟨action, t.machine, reply, t'.machine⟩ :: steps) t') :=
      decidableAfter actions _ t'
    inferInstanceAs (Decidable ((action.perform p).Ensures t _))

theorem After.run {p : Provider σ} {post : List Step → Sitting Engine σ → Prop}
    {actions : List Action} {steps : List Step} {t : Sitting Engine σ}
    (h : After p post actions steps t) (hrun : Run p config steps t) :
    ∃ steps' t', Run p config steps' t' ∧ post steps' t' := by
  induction actions generalizing steps t with
  | nil => exact ⟨steps, t, hrun, h⟩
  | cons action actions ih =>
    obtain ⟨reply, t', hact, hrest⟩ := h
    exact ih hrest (.act action hrun hact)

end WalletReview.Engine
