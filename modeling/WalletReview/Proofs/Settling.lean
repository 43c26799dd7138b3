import WalletReview.Proofs.Moves
import WalletReview.Proofs.Silence

/-! What the provider learns by an action. It is told of an end exactly if that end is the answer;
an action that is refused tells it nothing. -/
namespace WalletReview

variable {σ α : Type} {config : Config} {C : Contract config}

def Output.outcomes : Output → List Outcome
  | approved => [.accepted]
  | rejected => [.rejected]
  | idle => [.error]
  | none | redraw => []

theorem Operation.Ensures.and {μ : Type} {op : Operation μ σ α} {s : Sitting μ σ}
    {post post' : Except Error α → Sitting μ σ → Prop} (h : op.Ensures s post)
    (h' : op.Ensures s post') : op.Ensures s fun r t => post r t ∧ post' r t := by
  obtain ⟨r, t, hr, hpost⟩ := h
  exact ⟨r, t, hr, hpost, h'.of_eq hr⟩

namespace Engine

def outcomesOf : Except Error Output → List Outcome
  | .ok out => out.outcomes
  | .error _ => []

/-- From `t` to `t'` the provider has learned of the ends `told`, the latest first. Where the result
`r` is a refusal, an error screen that has come up stands for its cause, which is the last thing
noted. -/
structure Told (t : Sitting Engine (Recorded σ)) (told : List Outcome) (r : Except Error α)
    (t' : Sitting Engine (Recorded σ)) : Prop where
  conclusions : t'.content.conclusions = told ++ t.content.conclusions
  failed : ∀ cause, r = .error cause → t'.machine.state = .error → t.machine.state = .error ∨
    ∃ notes, t'.journal = .failed cause :: notes ∧ t.journal <:+ notes

/-- The provider has learned of the end that the answer stands for, if any, and of nothing else. -/
def Settles (t : Sitting Engine (Recorded σ)) (r : Except Error Output)
    (t' : Sitting Engine (Recorded σ)) : Prop :=
  Told t (outcomesOf r) r t'

variable {p : Provider σ} {t t' : Sitting Engine (Recorded σ)} {e e' : Engine} {out : Output}
  {dir : Direction} {kind : Kind} {confirmation : Bool} {intent : Option String}
  {op : Operation Engine (Recorded σ) Output} {refuses cause : Prop} {r : Except Error Output}

theorem Settles.of_note {notice : Notice}
    (h : Settles { t with journal := notice :: t.journal } r t') : Settles t r t' := by
  refine ⟨h.conclusions, fun cause hr herror => (h.failed cause hr herror).imp id ?_⟩
  rintro ⟨notes, hnotes, hsuffix⟩
  exact ⟨notes, hnotes, (List.suffix_cons notice t.journal).trans hsuffix⟩

theorem Undecided.settles (h : Undecided true t r t') (hout : outcomesOf r = []) :
    Settles t r t' := by
  refine ⟨by rw [hout, h.conclusions, List.nil_append], fun cause hr herror => ?_⟩
  rcases h.failed herror with hstart | ⟨-, cause', notes, hr', hnotes⟩
  · exact Or.inl hstart
  · cases hr.symm.trans hr'
    exact Or.inr ⟨notes, hnotes⟩

theorem settles_of_silent {post : Output → Engine → Prop} (hop : Silent true op)
    (h : op.Ensures t fun r t' => t.machine.Yields C refuses cause post r t'.machine)
    (hpost : ∀ out e', post out e' → out.outcomes = []) : op.Ensures t (Settles t) := by
  obtain ⟨r, t', hr, hyields⟩ := h
  refine ⟨r, t', hr, (hop t r t' hr).settles ?_⟩
  cases r with
  | ok out => exact hpost out _ hyields
  | error cause => rfl

theorem Begins.outcomes (h : Begins C e kind confirmation intent out e') : out.outcomes = [] := by
  cases h
  rfl

theorem Visits.outcomes (h : Visits C e out e') : out.outcomes = [] := by cases h <;> rfl

theorem Goes.outcomes (h : Goes C e dir out e') : out.outcomes = [] := by
  cases h with
  | offer => rfl
  | step _ _ _ _ hstep => cases hstep <;> rfl
  | resume => rfl
  | visit _ hvisit => exact hvisit.outcomes

theorem Skips.outcomes (h : Skips C e out e') : out.outcomes = [] := by
  cases h
  rfl

theorem begin_settles (hp : p.recorded.Honours C) (he : Sound C t.machine) :
    (begin p.recorded kind confirmation intent).Ensures t (Settles t) :=
  settles_of_silent (silent_begin p kind confirmation intent) (begin_ensures hp he)
    fun _ _ h => h.outcomes

theorem advance_settles (hp : p.recorded.Honours C) (he : Sound C t.machine) :
    (advance p.recorded).Ensures t (Settles t) :=
  settles_of_silent (silent_advance p) (advance_ensures hp he) fun _ _ h => h.outcomes

theorem retreat_settles (hp : p.recorded.Honours C) (he : Sound C t.machine) :
    (retreat p.recorded).Ensures t (Settles t) :=
  settles_of_silent (silent_retreat p) (retreat_ensures hp he) fun _ _ h => h.outcomes

theorem skipToApprove_settles (hp : p.recorded.Honours C) (he : Sound C t.machine) :
    (skipToApprove p.recorded).Ensures t (Settles t) :=
  settles_of_silent (silent_skipToApprove p) (skipToApprove_ensures hp he) fun _ _ h => h.outcomes

theorem enterInspect_settles (hp : p.recorded.Honours C) (he : Sound C t.machine) :
    (enterInspect p.recorded).Ensures t (Settles t) :=
  settles_of_silent (silent_enterInspect p) (enterInspect_ensures hp he) fun _ _ h => h.outcomes

theorem descend_settles (hp : p.recorded.Honours C) (he : Sound C t.machine) :
    (descend p.recorded).Ensures t (Settles t) :=
  settles_of_silent (silent_descend p) (descend_ensures hp he) fun _ _ h => h.outcomes

theorem exitLevel_settles (hp : p.recorded.Honours C) (he : Sound C t.machine) :
    (exitLevel p.recorded).Ensures t (Settles t) :=
  settles_of_silent (silent_exitLevel p) (exitLevel_ensures hp he) fun _ _ h => h.outcomes

theorem exitToRoot_settles (hp : p.recorded.Honours C) (he : Sound C t.machine) :
    (exitToRoot p.recorded).Ensures t (Settles t) :=
  settles_of_silent (silent_exitToRoot p) (exitToRoot_ensures hp he) fun _ _ h => h.outcomes

theorem finish_settles (p : Provider σ) (approved : Bool) (t : Sitting Engine (Recorded σ)) :
    (finish p.recorded approved).Ensures t (Settles t) := by
  rw [finish_ensures]
  cases approved with
  | true => exact ⟨rfl, fun cause hr => by cases hr⟩
  | false => exact ⟨rfl, fun cause hr => by cases hr⟩

theorem Settles.refused (cause : Error) (t : Sitting Engine (Recorded σ)) :
    Settles t (.error cause) t :=
  ⟨rfl, fun _ _ => Or.inl⟩

theorem settles_throw (cause : Error) (t : Sitting Engine (Recorded σ)) :
    (throw cause : Operation Engine (Recorded σ) Output).Ensures t (Settles t) :=
  Operation.ensures_throw.2 (.refused cause t)

theorem approve_settles (p : Provider σ) (t : Sitting Engine (Recorded σ)) :
    (approve p.recorded).Ensures t (Settles t) := by
  simp only [approve, Operation.ensures_bind, Operation.ensures_machine]
  split
  · apply finish_settles
  · apply settles_throw

theorem reject_settles (p : Provider σ) (t : Sitting Engine (Recorded σ)) :
    (reject p.recorded).Ensures t (Settles t) := by
  simp only [reject, Operation.ensures_bind, Operation.ensures_machine]
  split
  · apply settles_throw
  · apply settles_throw
  · apply finish_settles

theorem acknowledge_settles (p : Provider σ) (t : Sitting Engine (Recorded σ)) :
    (acknowledge p.recorded).Ensures t (Settles t) := by
  simp only [acknowledge, Operation.ensures_bind, Operation.ensures_machine]
  by_cases hstate : t.machine.state = .error
  · simp only [hstate, ne_eq, not_true_eq_false, ↓reduceIte, Operation.ensures_bind,
      Operation.ensures_modifyMachine, Operation.ensures_conclude, Operation.ensures_pure]
    exact ⟨rfl, fun cause hr => by cases hr⟩
  · simp only [ne_eq, hstate, not_false_eq_true, ↓reduceIte, Operation.ensures_bind,
      Operation.ensures_throw]
    exact .refused _ t

theorem showErrorScreen_settles (upper lower : String) (t : Sitting Engine (Recorded σ)) :
    (do showErrorScreen upper lower; return .redraw :
      Operation Engine (Recorded σ) Output).Ensures t (Settles t) := by
  simp only [showErrorScreen, Operation.ensures_bind, Operation.ensures_modifyMachine,
    Operation.ensures_pure]
  exact ⟨rfl, fun cause hr => by cases hr⟩

/-- Where a refusal counts as no change, the provider learns no less and no more. -/
theorem orNothing_settles {causes : List Error} (h : op.Ensures t (Settles t)) :
    (orNothing causes op).Ensures t (Settles t) := by
  simp only [orNothing, Operation.ensures_bind, Operation.ensures_attempt]
  refine h.mono fun r t' hr => ?_
  cases r with
  | ok out => exact Operation.ensures_pure.2 hr
  | error cause =>
    simp only
    split
    · exact Operation.ensures_pure.2 ⟨hr.conclusions, fun _ h => by cases h⟩
    · exact Operation.ensures_throw.2 hr

theorem settles_none (t : Sitting Engine (Recorded σ)) :
    (pure .none : Operation Engine (Recorded σ) Output).Ensures t (Settles t) :=
  Operation.ensures_pure.2 ⟨rfl, fun _ h => by cases h⟩

theorem select_settles (hp : p.recorded.Honours C) (he : Sound C t.machine) :
    (select p.recorded).Ensures t (Settles t) := by
  rw [select, Loader.select, Operation.ensures_bind]
  apply Operation.ensures_machine.2
  cases hposition : t.machine.position with
  | intro screen =>
    cases screen with
    | shortcut =>
      simp only [hposition]
      exact skipToApprove_settles hp he
    | _ =>
      simp only [hposition]
      apply settles_none
  | interstitial =>
    simp only [hposition]
    exact skipToApprove_settles hp he
  | approve =>
    simp only [hposition]
    apply approve_settles
  | reject =>
    simp only [hposition]
    apply reject_settles
  | item =>
    simp only [hposition]
    exact orNothing_settles (enterInspect_settles hp he)
  | goToRoot =>
    simp only [hposition]
    exact exitToRoot_settles hp he
  | back =>
    simp only [hposition]
    exact exitLevel_settles hp he
  | child =>
    simp only [hposition]
    exact orNothing_settles (descend_settles hp he)
  | idle =>
    simp only [hposition]
    apply settles_none
  | error =>
    simp only [hposition]
    apply settles_none

theorem update_settles (hp : p.recorded.Honours C) (he : Sound C t.machine) (event : Event) :
    (update p.recorded event).Ensures t (Settles t) := by
  simp only [update, Loader.update, Operation.ensures_bind, Operation.ensures_machine,
    Operation.ensures_note]
  suffices h : Operation.Ensures _ _ (Settles
      { t with journal := .event event t.machine.state :: t.journal }) from
    h.mono fun _ _ => Settles.of_note
  split
  · apply settles_none
  · exact begin_settles hp he
  · apply acknowledge_settles
  · apply acknowledge_settles
  · apply settles_throw
  · apply settles_throw
  · apply settles_throw
  · apply settles_throw
  · exact advance_settles hp he
  · exact retreat_settles hp he
  · exact select_settles hp he
  · apply approve_settles
  · apply reject_settles
  · exact skipToApprove_settles hp he
  · exact exitToRoot_settles hp he
  · exact exitLevel_settles hp he
  · apply settles_throw

/-- What the provider learns by a reply. A release of a button leaves with `false` both when a
review is rejected and when an error is acknowledged; `e` is the engine before. -/
def Reply.outcomes (e : Engine) : Reply → List Outcome
  | output out => out.outcomes
  | response (.exit true) => [.accepted]
  | response (.exit false) => if e.state = .error then [.error] else [.rejected]
  | _ => []

def replyOutcomes (e : Engine) : Except Error Reply → List Outcome
  | .ok reply => reply.outcomes e
  | .error _ => []

theorem ends_of_moves {skips : Bool} (h : Moves C skips e (.ok out) e') (hout : out.outcomes ≠ []) :
    Ends e out e' := by
  cases h with
  | nothing => exact absurd rfl hout
  | lost => exact absurd rfl hout
  | begins _ h => exact absurd h.outcomes hout
  | goes _ h => exact absurd h.outcomes hout
  | jumps _ h => exact absurd h.outcomes hout
  | visits _ h => exact absurd h.outcomes hout
  | ends h => exact h

/-- The state before tells the two ends apart that a button answers with `false`. -/
theorem Moves.buttonResponse_outcomes {skips : Bool} (he : Sound C e) (h : Moves C skips e r e') :
    (Reply.response (buttonResponse r e')).outcomes e = outcomesOf r := by
  cases r with
  | error cause =>
    unfold buttonResponse
    simp only
    split <;> rfl
  | ok out =>
    cases out with
    | none => rfl
    | redraw => rfl
    | approved => rfl
    | rejected =>
      cases ends_of_moves h (by simp [Output.outcomes]) with
      | reject hs =>
        have hstate : e.state ≠ .error := by
          intro herror
          simp [he.session_eq_none (Or.inr herror)] at hs
        simp [buttonResponse, Reply.outcomes, hstate, outcomesOf, Output.outcomes]
    | idle =>
      cases ends_of_moves h (by simp [Output.outcomes]) with
      | acknowledge hstate =>
        simp [buttonResponse, Reply.outcomes, hstate, outcomesOf, Output.outcomes]

theorem press_told (hp : p.recorded.Honours C) (he : Sound C t.machine) (button : Button) :
    (button.press p.recorded).Ensures t fun r t' => ∃ response, r = .ok response ∧
      t'.content.conclusions =
        (Reply.response response).outcomes t.machine ++ t.content.conclusions := by
  simp only [Button.press, Button.pressWith, Operation.ensures_bind, Operation.ensures_machine,
    Operation.ensures_attempt]
  have h := (update_settles hp he (button.event t.machine.position)).and
    (update_moves hp he (button.event t.machine.position))
  refine h.mono fun r t' hr => ?_
  obtain ⟨hsettles, hmoves⟩ := hr
  have htold := hsettles.conclusions
  rw [← hmoves.buttonResponse_outcomes he] at htold
  cases r with
  | error cause =>
    simp only [Operation.ensures_bind, Operation.ensures_machine, Operation.ensures_pure]
    exact ⟨_, rfl, htold⟩
  | ok out =>
    cases out
    all_goals
      simp only [Operation.ensures_pure]
      exact ⟨_, rfl, htold⟩

theorem Settles.told (h : Settles t r t') :
    Told t (replyOutcomes t.machine (r.map Reply.output)) (r.map Reply.output) t' := by
  cases r with
  | ok out => exact ⟨h.conclusions, fun _ hr => by cases hr⟩
  | error cause =>
    refine ⟨h.conclusions, fun cause' hr => ?_⟩
    cases hr
    exact h.failed cause rfl

theorem told_of_settles (h : op.Ensures t (Settles t)) :
    (Reply.output <$> op).Ensures t fun r t' => Told t (replyOutcomes t.machine r) r t' := by
  rw [Operation.ensures_map]
  exact h.mono fun _ _ hr => Settles.told hr

/-- An action tells the provider of the end that its reply stands for, and of nothing else. -/
theorem perform_told (hp : p.recorded.Honours C) (he : Sound C t.machine) (action : Action) :
    (action.perform p.recorded).Ensures t fun r t' =>
      Told t (replyOutcomes t.machine r) r t' := by
  cases action with
  | canDescend =>
    simp only [Action.perform, Loader.perform, Operation.ensures_map]
    obtain ⟨r, t', hr, holds, rfl, -⟩ := canDescend_ensures p.recorded he
    exact ⟨_, t', hr, (@silent_canDescend σ true p t _ t' hr).conclusions,
      fun _ h => by cases h⟩
  | setModes modes =>
    exact ensures_perform_setModes.2 ⟨rfl, fun _ h => by cases h⟩
  | press button =>
    simp only [Action.perform, Loader.perform, Operation.ensures_map]
    refine (press_told hp he button).mono fun r t' hr => ?_
    obtain ⟨response, rfl, hconclusions⟩ := hr
    exact ⟨hconclusions, fun _ h => by cases h⟩
  | take event => exact told_of_settles (update_settles hp he event)
  | begin kind confirmation intent => exact told_of_settles (begin_settles hp he)
  | advance => exact told_of_settles (advance_settles hp he)
  | retreat => exact told_of_settles (retreat_settles hp he)
  | skipToApprove => exact told_of_settles (skipToApprove_settles hp he)
  | enterInspect => exact told_of_settles (enterInspect_settles hp he)
  | descend => exact told_of_settles (descend_settles hp he)
  | exitLevel => exact told_of_settles (exitLevel_settles hp he)
  | exitToRoot => exact told_of_settles (exitToRoot_settles hp he)
  | approve => exact told_of_settles (approve_settles p t)
  | reject => exact told_of_settles (reject_settles p t)
  | acknowledge => exact told_of_settles (acknowledge_settles p t)
  | showError => exact told_of_settles (showErrorScreen_settles _ _ t)
  | showBlindSignError => exact told_of_settles (showErrorScreen_settles _ _ t)
  | showCustomError upper lower => exact told_of_settles (showErrorScreen_settles upper lower t)

end Engine
end WalletReview
