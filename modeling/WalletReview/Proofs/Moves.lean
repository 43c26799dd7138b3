import WalletReview.Engine.Action
import WalletReview.Proofs.Lifecycle
import WalletReview.Proofs.Navigation

/-! Everything that an action can do to an engine. The operations of the engine each have a relation
of their own; here they are put together for events, releases of buttons, and actions in general. -/
namespace WalletReview

variable {σ : Type} {config : Config} {C : Contract config}

namespace Engine

def skipsOn (e : Engine) : Event → Bool
  | .skipToApprove => true
  | .select =>
    match e.position with
    | .intro .shortcut | .interstitial _ => true
    | _ => false
  | _ => false

/-- The action comes down to jumping to the end of the review. -/
def Action.skips (e : Engine) : Action → Bool
  | skipToApprove => true
  | take event => e.skipsOn event
  | press button => e.skipsOn (button.event e.position)
  | _ => false

/-- The text of the error screen that an action puts up in place of any review. -/
def Action.errorText? : Action → Option (String × String)
  | showError => some ("ERROR", "SHOWING DATA")
  | showBlindSignError => some ("Blind signing must be", "enabled in Settings")
  | showCustomError upper lower => some (upper, lower)
  | _ => none

/-- Why a review may be aborted, or not let begin. -/
inductive Hazards (C : Contract config) (e : Engine) : Prop
  | barred {kind : Kind} : e.state = .idle → Barred C e kind → Hazards C e
  | endangered : Endangered C e → Hazards C e

/-- What an event does; `skips` tells whether it jumps to the end, if it does anything. A review
that is aborted on the way into a field passes for no change where the provider fails for want of
something to inspect. -/
inductive Moves (C : Contract config) (skips : Bool) (e : Engine) :
    Except Error Output → Engine → Prop
  | refused {cause : Error} : cause ∈ refusals → Moves C skips e (.error cause) e
  | aborted {cause : Error} {e' : Engine} : C.Aborted e e' → Hazards C e →
    Moves C skips e (.error cause) e'
  | nothing : Moves C skips e (.ok .none) e
  | lost {e' : Engine} : C.Aborted e e' → Hazards C e → Moves C skips e (.ok .none) e'
  | begins {kind : Kind} {confirmation : Bool} {intent : Option String} {out : Output}
    {e' : Engine} : skips = false → Begins C e kind confirmation intent out e' →
    Moves C skips e (.ok out) e'
  | goes {dir : Direction} {out : Output} {e' : Engine} : skips = false → Goes C e dir out e' →
    Moves C skips e (.ok out) e'
  | jumps {out : Output} {e' : Engine} : skips = true → Skips C e out e' →
    Moves C skips e (.ok out) e'
  | visits {out : Output} {e' : Engine} : skips = false → Visits C e out e' →
    Moves C skips e (.ok out) e'
  | ends {out : Output} {e' : Engine} : Ends e out e' → Moves C skips e (.ok out) e'

variable {p : Provider σ} {t : Sitting Engine σ} {e e' : Engine} {skips : Bool}
  {action : Action} {text : String × String} {refuses why : Prop}

theorem Hazards.state_ne_error (h : Hazards C e) (he : Sound C e) : e.state ≠ .error := by
  intro hstate
  have hnone := he.session_eq_none (Or.inr hstate)
  cases h with
  | barred hidle => simp [hidle] at hstate
  | endangered h =>
    cases h with
    | list hs => simp [hnone] at hs
    | enter hreview => simp [hreview] at hstate
    | descend hi => simp [hi.state] at hstate
    | ascend hi => simp [hi.state] at hstate
    | within hi => simp [hi.state] at hstate

theorem Yields.moves {post : Output → Engine → Prop} {r : Except Error Output}
    (h : e.Yields C refuses why post r e') (hwhy : why → Hazards C e)
    (hpost : ∀ out, post out e' → Moves C skips e (.ok out) e') :
    Moves C skips e r e' := by
  cases r with
  | ok out => exact hpost out h
  | error cause =>
    rcases h with ⟨rfl, -, hcause⟩ | ⟨h, hwhy'⟩
    · exact .refused hcause
    · exact .aborted h (hwhy hwhy')

theorem begin_moves {kind : Kind} {confirmation : Bool} {intent : Option String}
    (hp : p.Honours C) (he : Sound C t.machine) :
    (begin p kind confirmation intent).Ensures t fun r t' =>
      Moves C false t.machine r t'.machine :=
  (begin_ensures hp he).mono fun _ _ hr =>
    hr.moves (fun h => .barred h.1 h.2) fun _ h => .begins rfl h

theorem orNothing_moves {causes : List Error} {op : Operation Engine σ Output}
    (hskips : skips = false) (h : op.Ensures t fun r t' =>
      t.machine.Yields C refuses (t.machine.Endangered C) (t.machine.Visits C) r t'.machine) :
    (orNothing causes op).Ensures t fun r t' => Moves C skips t.machine r t'.machine := by
  simp only [orNothing, Operation.ensures_bind, Operation.ensures_attempt]
  refine h.mono fun r t' hr => ?_
  cases r with
  | ok out =>
    simp only [Operation.ensures_pure]
    exact .visits hskips hr
  | error cause =>
    simp only
    split
    · simp only [Operation.ensures_pure]
      rcases hr with ⟨hr, -⟩ | ⟨hr, hwhy⟩
      · rw [hr]
        exact .nothing
      · exact .lost hr (.endangered hwhy)
    · simp only [Operation.ensures_throw]
      rcases hr with ⟨hr, -, hcause⟩ | ⟨hr, hwhy⟩
      · rw [hr]
        exact .refused hcause
      · exact .aborted hr (.endangered hwhy)

theorem select_moves (hp : p.Honours C) (he : Sound C t.machine) :
    (select p).Ensures t fun r t' =>
      Moves C (t.machine.skipsOn .select) t.machine r t'.machine := by
  have hskip (hskips : t.machine.skipsOn .select = true) : (skipToApprove p).Ensures t fun r t' =>
      Moves C (t.machine.skipsOn .select) t.machine r t'.machine :=
    (skipToApprove_ensures hp he).mono fun r t' hr =>
      hr.moves .endangered fun out h => .jumps hskips h
  rw [select, Loader.select, Operation.ensures_bind]
  refine Operation.ensures_machine.2 ?_
  cases hpos : t.machine.position with
  | intro screen =>
    cases screen with
    | shortcut =>
      simp only [hpos]
      exact hskip (by simp [skipsOn, hpos])
    | _ =>
      simp only [hpos, Operation.ensures_pure]
      exact .nothing
  | interstitial index =>
    simp only [hpos]
    exact hskip (by simp [skipsOn, hpos])
  | approve =>
    simp only [hpos]
    exact (approve_ensures p t).mono fun r t' hr => hr.moves False.elim fun out h => .ends h
  | reject =>
    simp only [hpos]
    exact (reject_ensures p he).mono fun r t' hr => hr.moves False.elim fun out h => .ends h
  | item =>
    have hskips : t.machine.skipsOn .select = false := by simp [skipsOn, hpos]
    simp only [hpos]
    exact orNothing_moves hskips (enterInspect_ensures hp he)
  | goToRoot =>
    have hskips : t.machine.skipsOn .select = false := by simp [skipsOn, hpos]
    simp only [hpos]
    exact (exitToRoot_ensures hp he).mono fun r t' hr =>
      hr.moves .endangered fun out h => .visits hskips h
  | back =>
    have hskips : t.machine.skipsOn .select = false := by simp [skipsOn, hpos]
    simp only [hpos]
    exact (exitLevel_ensures hp he).mono fun r t' hr =>
      hr.moves .endangered fun out h => .visits hskips h
  | child =>
    have hskips : t.machine.skipsOn .select = false := by simp [skipsOn, hpos]
    simp only [hpos]
    exact orNothing_moves hskips (descend_ensures hp he)
  | idle =>
    simp only [hpos, Operation.ensures_pure]
    exact .nothing
  | error =>
    simp only [hpos, Operation.ensures_pure]
    exact .nothing

theorem update_moves (hp : p.Honours C) (he : Sound C t.machine) (event : Event) :
    (update p event).Ensures t fun r t' =>
      Moves C (t.machine.skipsOn event) t.machine r t'.machine := by
  simp only [update, Loader.update, Operation.ensures_bind, Operation.ensures_machine,
    Operation.ensures_note]
  split
  · simp only [Operation.ensures_pure]
    exact .nothing
  · exact begin_moves hp he
  · exact (acknowledge_ensures p _).mono fun r t' hr => hr.moves False.elim fun out h => .ends h
  · exact (acknowledge_ensures p _).mono fun r t' hr => hr.moves False.elim fun out h => .ends h
  · simp only [Operation.ensures_throw]
    exact .refused (by decide)
  · simp only [Operation.ensures_throw]
    exact .refused (by decide)
  · simp only [Operation.ensures_throw]
    exact .refused (by decide)
  · simp only [Operation.ensures_throw]
    exact .refused (by decide)
  · exact Operation.Ensures.mono (advance_ensures hp he)
      fun r t' hr => Yields.moves hr (fun h => .endangered h.endangered) fun out h => .goes rfl h
  · exact Operation.Ensures.mono (retreat_ensures hp he)
      fun r t' hr => Yields.moves hr (fun h => .endangered h.endangered) fun out h => .goes rfl h
  · exact select_moves hp he
  · exact (approve_ensures p _).mono fun r t' hr => hr.moves False.elim fun out h => .ends h
  · exact Operation.Ensures.mono (reject_ensures p he)
      fun r t' hr => Yields.moves hr False.elim fun out h => .ends h
  · exact Operation.Ensures.mono (skipToApprove_ensures hp he)
      fun r t' hr => Yields.moves hr .endangered fun out h => .jumps rfl h
  · exact Operation.Ensures.mono (exitToRoot_ensures hp he)
      fun r t' hr => Yields.moves hr .endangered fun out h => .visits rfl h
  · exact Operation.Ensures.mono (exitLevel_ensures hp he)
      fun r t' hr => Yields.moves hr .endangered fun out h => .visits rfl h
  · simp only [Operation.ensures_throw]
    exact .refused (by decide)

def buttonResponse (r : Except Error Output) (e' : Engine) : Response Bool :=
  match r with
  | .ok .none => .none
  | .ok .redraw => .update
  | .ok .approved => .exit true
  | .ok .rejected | .ok .idle => .exit false
  | .error _ => if e'.state = .error then .update else .none

inductive Acts (C : Contract config) (e : Engine) : Action → Except Error Reply → Engine → Prop
  | output {a : Action} {r : Except Error Output} {e' : Engine} :
    Moves C (a.skips e) e r e' → Acts C e a (r.map .output) e'
  | press {button : Button} {r : Except Error Output} {e' : Engine} :
    Moves C ((Action.press button).skips e) e r e' →
    Acts C e (.press button) (.ok (.response (buttonResponse r e'))) e'
  | shows {a : Action} {text : String × String} : a.errorText? = some text →
    Acts C e a (.ok (.output .redraw)) (e.errorScreen text)
  | canDescend {holds : Bool} : Acts C e .canDescend (.ok (.flag holds)) e
  | setModes {modes : Modes} : Acts C e (.setModes modes) (.ok .done) { e with modes }

theorem press_ensures (hp : p.Honours C) (he : Sound C t.machine) (button : Button) :
    (button.press p).Ensures t fun r t' => ∃ r', r = .ok (buttonResponse r' t'.machine) ∧
      Moves C ((Action.press button).skips t.machine) t.machine r' t'.machine := by
  simp only [Button.press, Button.pressWith, Operation.ensures_bind, Operation.ensures_machine,
    Operation.ensures_attempt]
  refine (update_moves hp he (button.event t.machine.position)).mono fun r t' hr => ?_
  cases r with
  | error cause =>
    simp only [Operation.ensures_bind, Operation.ensures_machine, Operation.ensures_pure]
    exact ⟨_, by rfl, hr⟩
  | ok out =>
    cases out
    all_goals
      simp only [Operation.ensures_pure]
      exact ⟨_, by rfl, hr⟩

theorem canDescend_ensures (p : Provider σ) (he : Sound C t.machine) :
    (canDescend p).Ensures t fun r t' => ∃ holds, r = .ok holds ∧ t'.machine = t.machine := by
  simp only [canDescend, Operation.ensures_bind, Operation.ensures_machine]
  cases hi : t.machine.session.bind (·.inspection) with
  | none =>
    simp only [Operation.ensures_pure]
    exact ⟨_, rfl, trivial⟩
  | some i =>
    obtain ⟨s, hs, hi⟩ := Option.bind_eq_some_iff.1 hi
    obtain ⟨root, -, hstands⟩ := he.of_inspects (he.inspects hs hi)
    cases hchild : i.childIndex with
    | none =>
      simp only [hchild, Operation.ensures_pure]
      exact ⟨_, rfl, trivial⟩
    | some child =>
      simp only [hchild, Inspection.canDescend]
      by_cases hdepth : maxDepth ≤ i.depth.toNat
      · simp only [if_pos hdepth, Operation.ensures_pure]
        exact ⟨_, rfl, trivial⟩
      · simp only [if_neg hdepth, Operation.ensures_bind, Operation.ensures_liftM,
          hstands.fits.trace, Except.ok.injEq, exists_eq_left', Operation.ensures_ask]

theorem perform_errorText (haction : action.errorText? = some text)
    {post : Except Error Reply → Sitting Engine σ → Prop} :
    (action.perform p).Ensures t post ↔ post (.ok (.output .redraw))
      { t with machine := t.machine.errorScreen text } := by
  cases action <;> cases haction <;> exact Operation.ensures_iff_of_eq rfl

theorem acts_of_moves {op : Operation Engine σ Output}
    (h : op.Ensures t fun r t' => Moves C (action.skips t.machine) t.machine r t'.machine) :
    (Reply.output <$> op).Ensures t fun r t' => Acts C t.machine action r t'.machine := by
  rw [Operation.ensures_map]
  exact h.mono fun _ _ hr => .output hr

theorem acts_of_yields {op : Operation Engine σ Output} {post : Output → Engine → Prop}
    (h : op.Ensures t fun r t' => t.machine.Yields C refuses why post r t'.machine)
    (hwhy : why → Hazards C t.machine)
    (hpost : ∀ out e', post out e' → Moves C (action.skips t.machine) t.machine (.ok out) e') :
    (Reply.output <$> op).Ensures t fun r t' => Acts C t.machine action r t'.machine :=
  acts_of_moves (h.mono fun _ _ hr => hr.moves hwhy fun out hout => hpost out _ hout)

theorem perform_canDescend_ensures (p : Provider σ) (he : Sound C t.machine) :
    (Action.canDescend.perform p).Ensures t fun r t' =>
      ∃ holds, r = .ok (.flag holds) ∧ t'.machine = t.machine := by
  simp only [Action.perform, Loader.perform, Operation.ensures_map]
  refine (canDescend_ensures p he).mono fun r t' hr => ?_
  obtain ⟨holds, rfl, ht'⟩ := hr
  exact ⟨holds, rfl, ht'⟩

theorem ensures_perform_setModes {modes : Modes}
    {post : Except Error Reply → Sitting Engine σ → Prop} :
    ((Action.setModes modes).perform p).Ensures t post ↔
      post (.ok .done) { t with machine := { t.machine with modes } } := by
  simp only [Action.perform, Loader.perform, setModes, Operation.ensures_bind,
    Operation.ensures_modifyMachine, Operation.ensures_pure]

/-- Every action has a result, be it a refusal, and does one of the things above. -/
theorem perform_ensures (hp : p.Honours C) (he : Sound C t.machine) (action : Action) :
    (action.perform p).Ensures t fun r t' => Acts C t.machine action r t'.machine := by
  cases action with
  | canDescend =>
    refine (perform_canDescend_ensures p he).mono fun r t' hr => ?_
    obtain ⟨holds, rfl, ht'⟩ := hr
    rw [ht']
    exact .canDescend
  | setModes modes =>
    exact ensures_perform_setModes.2 .setModes
  | press button =>
    simp only [Action.perform, Loader.perform, Operation.ensures_map]
    refine (press_ensures hp he button).mono fun r t' hr => ?_
    obtain ⟨r', rfl, hr⟩ := hr
    exact .press hr
  | take event => exact acts_of_moves (update_moves hp he event)
  | begin kind confirmation intent => exact acts_of_moves (begin_moves hp he)
  | advance =>
    exact acts_of_yields (advance_ensures hp he) (fun h => .endangered h.endangered)
      fun _ _ h => .goes rfl h
  | retreat =>
    exact acts_of_yields (retreat_ensures hp he) (fun h => .endangered h.endangered)
      fun _ _ h => .goes rfl h
  | skipToApprove =>
    exact acts_of_yields (skipToApprove_ensures hp he) .endangered fun _ _ h => .jumps rfl h
  | enterInspect =>
    exact acts_of_yields (enterInspect_ensures hp he) .endangered fun _ _ h => .visits rfl h
  | descend =>
    exact acts_of_yields (descend_ensures hp he) .endangered fun _ _ h => .visits rfl h
  | exitLevel =>
    exact acts_of_yields (exitLevel_ensures hp he) .endangered fun _ _ h => .visits rfl h
  | exitToRoot =>
    exact acts_of_yields (exitToRoot_ensures hp he) .endangered fun _ _ h => .visits rfl h
  | approve => exact acts_of_yields (approve_ensures p t) False.elim fun _ _ h => .ends h
  | reject => exact acts_of_yields (reject_ensures p he) False.elim fun _ _ h => .ends h
  | acknowledge => exact acts_of_yields (acknowledge_ensures p t) False.elim fun _ _ h => .ends h
  | showError => exact (perform_errorText rfl).2 (.shows rfl)
  | showBlindSignError => exact (perform_errorText rfl).2 (.shows rfl)
  | showCustomError => exact (perform_errorText rfl).2 (.shows rfl)

theorem sound_of_moves {r : Except Error Output} (he : Sound C e) (h : Moves C skips e r e') :
    Sound C e' := by
  cases h with
  | refused => exact he
  | nothing => exact he
  | aborted h => exact sound_of_aborted h he.config
  | lost h => exact sound_of_aborted h he.config
  | begins _ h => exact sound_of_begins he h
  | goes _ h => exact sound_of_goes he h
  | jumps _ h => exact sound_of_skips he h
  | visits _ h => exact sound_of_visits he h
  | ends h => exact sound_of_ends he h

/-- Every action keeps an engine sound. -/
theorem sound_of_acts {action : Action} {r : Except Error Reply} (he : Sound C e)
    (h : Acts C e action r e') : Sound C e' := by
  cases h with
  | output h => exact sound_of_moves he h
  | press h => exact sound_of_moves he h
  | shows => exact sound_errorScreen he _
  | canDescend => exact he
  | setModes => exact he.withModes _

end Engine
end WalletReview
