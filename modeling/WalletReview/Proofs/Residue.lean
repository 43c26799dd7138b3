import WalletReview.Proofs.Decisions
import WalletReview.Proofs.Replay
import WalletReview.Proofs.Writing

/-! What is left of a review when it is over. Both texts of the field are wiped to their last byte,
and an engine that is idle again goes on as one does that is new, whatever it has shown before. -/
namespace WalletReview

/-- Key and value hold what fits of a text, with nothing but zeros behind it. -/
structure Field.Fitted (f : Field) (text : String × String) : Prop where
  key : f.key.Holds (Text.fitting keyCapacity text.1.toList)
  value : f.value.Holds (Text.fitting valueCapacity text.2.toList)

theorem Field.fitted_setText (f : Field) (text : String × String) :
    ((f.wipe.setKey text.1).setValue text.2).Fitted text :=
  ⟨(BoundedText.holds_wipe f.key).set text.1, (BoundedText.holds_wipe f.value).set text.2⟩

namespace Engine

variable {σ : Type} {config : Config} {C : Contract config} {p : Provider σ} {e e' : Engine}

/-- What has an engine left without a review: it had none before, the review was aborted, or ended,
or made way for an error screen. -/
inductive Clears (C : Contract config) (e : Engine) (action : Action) : Engine → Prop
  | same (modes : Modes) : Clears C e action { e with modes }
  | aborted {e' : Engine} : C.Aborted e e' → Hazards C e → Clears C e action e'
  | ended {out : Output} {e' : Engine} : Ends e out e' → Clears C e action e'
  | shown {text : String × String} : action.errorText? = some text →
    Clears C e action (e.errorScreen text)

theorem clears_of_moves {skips : Bool} {action : Action} {r : Except Error Output}
    (h : Moves C skips e r e') (hs : e'.session = none) : Clears C e action e' := by
  have hsome (s : Session) (h : e'.session = some s) : Clears C e action e' := by
    cases hs.symm.trans h
  cases h with
  | refused => exact .same e.modes
  | aborted h hwhy => exact .aborted h hwhy
  | nothing => exact .same e.modes
  | lost h hwhy => exact .aborted h hwhy
  | begins _ h =>
    cases h with
    | begin => exact hsome _ rfl
  | goes _ h =>
    obtain ⟨s, hs'⟩ := h.exists_session
    obtain ⟨s', hs'', -⟩ := continues_of_goes h hs'
    exact hsome s' hs''
  | jumps _ h =>
    cases h with
    | skip => exact hsome _ rfl
  | visits _ h =>
    obtain ⟨s, hs'⟩ := h.exists_session
    obtain ⟨s', hs'', -⟩ := continues_of_visits h hs'
    exact hsome s' hs''
  | ends h => exact .ended h

theorem clears_of_acts {action : Action} {reply : Except Error Reply}
    (h : Acts C e action reply e') (hs : e'.session = none) : Clears C e action e' := by
  cases h with
  | output h => exact clears_of_moves h hs
  | press h => exact clears_of_moves h hs
  | shows htext => exact .shown htext
  | canDescend => exact .same e.modes
  | setModes => exact .same _

/-- The text of the error screen that a run has come to, if it has come to one: the text that an
action has put up, or the general one. -/
def errorText : List Step → String × String
  | [] => ("ERROR", "SHOWING DATA")
  | x :: steps =>
    match x.action.errorText? with
    | some text => text
    | none => if x.before.state = .error then errorText steps else ("ERROR", "SHOWING DATA")

/-- An error that has come up is on screen with its text, and stays so until the screen is left. -/
theorem Clears.fitted {steps : List Step} {action : Action} {reply : Except Error Reply}
    (h : Clears C e action e') (he : Sound C e) (haction : action.errorText? = none)
    (hstate : e'.state = .error) (hbefore : e.state = .error → e.field.Fitted (errorText steps)) :
    e'.field.Fitted (errorText (⟨action, e, reply, e'⟩ :: steps)) := by
  simp only [errorText, haction]
  cases h with
  | same modes =>
    rw [if_pos hstate]
    exact hbefore hstate
  | aborted h hwhy =>
    rw [if_neg (hwhy.state_ne_error he)]
    obtain ⟨g, -, rfl⟩ := h
    exact g.fitted_setText ("ERROR", "SHOWING DATA")
  | ended h => cases h <;> cases hstate
  | shown htext => cases haction.symm.trans htext

/-- An engine that comes to be idle is as it was when it was new, apart from its mode flags. -/
theorem Clears.eq_start {action : Action} (h : Clears (Contract.written config) e action e')
    (he : Sound (Contract.written config) e) (hstate : e'.state = .idle)
    (hbefore : e.state = .idle → e = { start config with modes := e.modes }) :
    e' = { start config with modes := e'.modes } := by
  have hwipe : e.field.wipe = (start config).field := Field.Clean.wipe_eq he.field
  cases h with
  | same modes => rw [hbefore hstate]
  | aborted h =>
    obtain ⟨g, -, rfl⟩ := h
    cases hstate
  | ended h =>
    cases h with
    | approve =>
      rw [hwipe, he.config]
      rfl
    | reject =>
      rw [hwipe, he.config]
      rfl
    | acknowledge herror =>
      rw [hwipe, he.config, he.session_eq_none (Or.inr herror)]
      rfl
  | shown => cases hstate

namespace Run

variable {steps : List Step}

theorem clears {t t' : Sitting Engine σ} {action : Action} {reply : Except Error Reply}
    (h : Run p config steps t) (hp : p.Honours C) (hstart : C.field (Engine.start config).field)
    (hact : action.perform p t = .ok (reply, t'))
    (hstate : t'.machine.state = .idle ∨ t'.machine.state = .error) :
    Clears C t.machine action t'.machine :=
  clears_of_acts (h.acts hp hstart hact)
    (((h.act action hact).sound hp hstart).session_eq_none hstate)

theorem fitted {t : Sitting Engine σ} (h : Run p config steps t)
    (hstate : t.machine.state = .error) : t.machine.field.Fitted (errorText steps) := by
  have hp := Contract.honours_any p config
  induction h with
  | start => cases hstate
  | meddle _ _ ih => exact ih hstate
  | @act _ s _ _ action hrun hact ih =>
    cases htext : action.errorText? with
    | none =>
      exact (hrun.clears hp trivial hact (Or.inr hstate)).fitted (hrun.sound hp trivial) htext
        hstate ih
    | some text =>
      have hshown : (action.perform p).Ensures s fun _ s' =>
          s'.machine = s.machine.errorScreen text := (perform_errorText htext).2 rfl
      simp only [errorText, htext, hshown.of_eq hact]
      exact Field.fitted_setText _ text

theorem eq_start {t : Sitting Engine σ} (h : Run p config steps t) (hp : p.Writes)
    (hstate : t.machine.state = .idle) :
    t.machine = { Engine.start config with modes := t.machine.modes } := by
  have hhonours := hp.honours config
  induction h with
  | start => rfl
  | meddle _ _ ih => exact ih hstate
  | act action hrun hact ih =>
    exact (hrun.clears hhonours Field.clean_blank hact (Or.inl hstate)).eq_start
      (hrun.sound hhonours Field.clean_blank) hstate ih

end Run

/-- The engine is as if it were new: without a session, and with nothing but zeros in its texts. -/
structure Wiped (config : Config) (e : Engine) : Prop where
  engine : e = { start config with modes := e.modes }
  session : e.session = none
  key : e.field.key = ⟨.replicate keyCapacity 0, 0⟩
  value : e.field.value = ⟨.replicate valueCapacity 0, 0⟩
  pageLength : e.field.pageLength = min (max config.pageLength 1) valueCapacity

theorem wiped_start (config : Config) (modes : Modes) : Wiped config { start config with modes } :=
  ⟨rfl, rfl, rfl, rfl, rfl⟩

/-- In front of a provider that writes by methods, nothing of a review outlives it. An engine that
is idle is wiped, and one that shows an error holds its text and zeros. Idle engines of the same
mode flags cannot be told apart by what they do next, whatever reviews went before. -/
theorem wiped_of_run (hp : p.Writes) {steps : List Step} {t : Sitting Engine (Recorded σ)}
    (h : Run p.recorded config steps t) :
    (t.machine.state = .idle → Wiped config t.machine) ∧
    (t.machine.state = .error →
      t.machine.session = none ∧ t.machine.field.Fitted (errorText steps)) ∧
    ∀ steps' u, Run p.recorded config steps' u → t.machine.state = .idle →
      u.machine.state = .idle → u.machine.modes = t.machine.modes →
      u.content.content = t.content.content → Repeats p t u := by
  refine ⟨fun hidle => ?_, fun herror => ⟨?_, h.fitted herror⟩,
    fun steps' u hu hidle hidle' hmodes hcontent => ?_⟩
  · rw [h.eq_start hp.recorded hidle]
    exact wiped_start config _
  · exact (h.sound (Contract.honours_any _ config) trivial).session_eq_none (Or.inr herror)
  · refine repeats_of_matches p.matches_self ?_ hcontent.symm
    rw [h.eq_start hp.recorded hidle, hu.eq_start hp.recorded hidle', hmodes]

theorem wiped_of_run_rejected : ∃ steps t t',
    Run Fixture.provider.recorded .nanoS steps t ∧ steps.length = 3 ∧ Wiped .nanoS t.machine ∧
      Repeats Fixture.provider t ⟨.start .nanoS, ⟨t.content.content, []⟩, []⟩ ∧
      (Action.showCustomError "Wrong" "network").perform Fixture.provider.recorded t =
        .ok (.ok (.output .redraw), t') ∧ t'.machine.field.Fitted ("Wrong", "network") := by
  have h : ∃ steps t t', Run Fixture.provider.recorded .nanoS steps t ∧ steps.length = 3 ∧
      t.machine.state = .idle ∧ t.machine.modes = .none ∧
      (Action.showCustomError "Wrong" "network").perform Fixture.provider.recorded t =
        .ok (.ok (.output .redraw), t') ∧ t'.machine.state = .error :=
    ⟨_, _, _, .act .reject (.act .advance (.act (.begin .transaction false none)
      (.start ⟨Fixture.ofPages [2, 1], []⟩) rfl) rfl) rfl, rfl, rfl, rfl, rfl, rfl⟩
  obtain ⟨steps, t, t', hrun, hlength, hidle, hmodes, hshow, herror⟩ := h
  obtain ⟨hwiped, -, hrepeats⟩ := wiped_of_run Fixture.writes hrun
  obtain ⟨-, hfitted, -⟩ := wiped_of_run Fixture.writes (hrun.act _ hshow)
  exact ⟨steps, t, t', hrun, hlength, hwiped hidle,
    hrepeats [] _ (.start _) hidle rfl hmodes.symm rfl, hshow, (hfitted herror).2⟩

end Engine
end WalletReview
