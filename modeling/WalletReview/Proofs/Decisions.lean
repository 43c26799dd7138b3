import WalletReview.Fixture
import WalletReview.Proofs.Reviews
import WalletReview.Proofs.Runs
import WalletReview.Proofs.Settling

/-! The decisions of a run. A review is decided once, on a screen that offers the decision, and not
at all if it is aborted; the provider hears of every decision and of nothing that was not decided.
-/
namespace WalletReview

variable {σ : Type} {config : Config} {C : Contract config}

namespace Engine

def Action.begins : Action → Bool
  | begin _ _ _ => true
  | take (.begin _ _) => true
  | _ => false

variable {p : Provider σ} {t t' : Sitting Engine σ} {e e' : Engine} {out : Output}
  {skips : Bool} {action : Action}

theorem Goes.session_ne_none {dir : Direction} (h : Goes C e dir out e') : e.session ≠ none := by
  obtain ⟨s, hs⟩ := h.exists_session
  simp [hs]

theorem Visits.session_ne_none (h : Visits C e out e') : e.session ≠ none := by
  obtain ⟨s, hs⟩ := h.exists_session
  simp [hs]

theorem Skips.session_ne_none (h : Skips C e out e') : e.session ≠ none := by
  cases h with
  | skip hs => simp [hs]

theorem Ends.session_eq_none (h : Ends e out e') (hs : e.session = none) : e'.session = none := by
  cases h with
  | acknowledge => exact hs
  | _ => rfl

theorem Yields.session_eq_none {refuses cause : Prop} {post : Output → Engine → Prop}
    {r : Except Error Output} (h : e.Yields C refuses cause post r e') (hs : e.session = none)
    (hpost : ∀ out, post out e' → e'.session = none) : e'.session = none := by
  cases r with
  | ok out => exact hpost out h
  | error _ =>
    rcases h with ⟨rfl, -⟩ | ⟨⟨g, -, rfl⟩, -⟩
    · exact hs
    · rfl

theorem Sound.idle_or_error (he : Sound C e) (hs : e.session = none) :
    e.state = .idle ∨ e.state = .error := by
  by_cases hidle : e.state = .idle
  · exact Or.inl hidle
  · by_cases herror : e.state = .error
    · exact Or.inr herror
    · obtain ⟨s, hs'⟩ := he.exists_session hidle herror
      simp [hs] at hs'

theorem update_session_eq_none (he : Sound C t.machine) (hs : t.machine.session = none)
    {event : Event} (hevent : (Action.take event).begins = false) :
    (update p event).Ensures t fun _ t' => t'.machine.session = none := by
  have hstate := he.idle_or_error hs
  have hacknowledge : (acknowledge p).Ensures
      { t with journal := .event event t.machine.state :: t.journal }
      fun _ t' => t'.machine.session = none :=
    (acknowledge_ensures (C := C) p _).mono fun r t' hr =>
      hr.session_eq_none hs fun out h => h.session_eq_none hs
  simp only [update, Loader.update, Operation.ensures_bind, Operation.ensures_machine,
    Operation.ensures_note]
  rcases hstate with hstate | hstate
  · cases event with
    | begin => simp [Action.begins] at hevent
    | _ => simp [hstate, hs]
  · rw [hstate] at hacknowledge
    cases event with
    | begin => simp [Action.begins] at hevent
    | acknowledge => simpa only [hstate] using hacknowledge
    | select => simpa only [hstate] using hacknowledge
    | _ => simp [hstate, hs]

theorem begins_event (button : Button) (position : Position) :
    (Action.take (button.event position)).begins = false := by
  cases button with
  | both =>
    simp only [Button.event]
    split <;> rfl
  | _ => rfl

theorem press_session_eq_none (he : Sound C t.machine) (hs : t.machine.session = none)
    (button : Button) :
    (button.press p).Ensures t fun _ t' => t'.machine.session = none := by
  simp only [Button.press, Button.pressWith, Operation.ensures_bind, Operation.ensures_machine,
    Operation.ensures_attempt]
  refine (update_session_eq_none he hs (begins_event button _)).mono fun r t' hr => ?_
  cases r with
  | error cause =>
    simp only [Operation.ensures_bind, Operation.ensures_machine, Operation.ensures_pure]
    exact hr
  | ok out =>
    cases out
    all_goals
      simp only [Operation.ensures_pure]
      exact hr

theorem perform_session_eq_none (hp : p.Honours C) (he : Sound C t.machine)
    (hs : t.machine.session = none) (haction : action.begins = false) :
    (action.perform p).Ensures t fun _ t' => t'.machine.session = none := by
  have houtput {op : Operation Engine σ Output}
      (h : op.Ensures t fun _ t' => t'.machine.session = none) :
      (Reply.output <$> op).Ensures t fun _ t' => t'.machine.session = none :=
    Operation.ensures_map.2 h
  have hyields {op : Operation Engine σ Output} {refuses cause : Prop}
      {post : Output → Engine → Prop}
      (h : op.Ensures t fun r t' => t.machine.Yields C refuses cause post r t'.machine)
      (hpost : ∀ out e', post out e' → e'.session = none) :
      (Reply.output <$> op).Ensures t fun _ t' => t'.machine.session = none :=
    houtput (h.mono fun _ _ hr => hr.session_eq_none hs fun out => hpost out _)
  cases action with
  | begin => simp [Action.begins] at haction
  | take event => exact houtput (update_session_eq_none he hs haction)
  | press button =>
    exact Operation.ensures_map.2 (press_session_eq_none he hs button)
  | advance => exact hyields (advance_ensures hp he) fun _ _ h => absurd hs h.session_ne_none
  | retreat => exact hyields (retreat_ensures hp he) fun _ _ h => absurd hs h.session_ne_none
  | skipToApprove =>
    exact hyields (skipToApprove_ensures hp he) fun _ _ h => absurd hs h.session_ne_none
  | enterInspect =>
    exact hyields (enterInspect_ensures hp he) fun _ _ h => absurd hs h.session_ne_none
  | descend => exact hyields (descend_ensures hp he) fun _ _ h => absurd hs h.session_ne_none
  | exitLevel => exact hyields (exitLevel_ensures hp he) fun _ _ h => absurd hs h.session_ne_none
  | exitToRoot => exact hyields (exitToRoot_ensures hp he) fun _ _ h => absurd hs h.session_ne_none
  | approve => exact hyields (approve_ensures p t) fun _ _ h => h.session_eq_none hs
  | reject => exact hyields (reject_ensures p he) fun _ _ h => h.session_eq_none hs
  | acknowledge => exact hyields (acknowledge_ensures p t) fun _ _ h => h.session_eq_none hs
  | showError => exact (perform_errorText rfl).2 rfl
  | showBlindSignError => exact (perform_errorText rfl).2 rfl
  | showCustomError => exact (perform_errorText rfl).2 rfl
  | canDescend =>
    refine (perform_canDescend_ensures p he).mono fun r t' hr => ?_
    obtain ⟨holds, -, ht'⟩ := hr
    rw [ht']
    exact hs
  | setModes modes =>
    exact ensures_perform_setModes.2 hs

theorem Sound.canApprove_eq (he : Sound C e) : e.canApprove = e.isAtApprove := by
  cases he.standing with
  | idle hstate hs => simp [canApprove, isAtApprove, position, hstate]
  | error hstate hs => simp [canApprove, isAtApprove, position, hstate]
  | confirm hstate hs => simp [canApprove, isAtApprove, position, hstate, hs]
  | interstitial hstate hs => simp [canApprove, isAtApprove, position, hstate, hs]
  | inspect hi =>
    simp only [canApprove, isAtApprove, position, hi.state, hi.session, hi.inspection]
    unfold inspectPosition
    repeat' split
    all_goals rfl
  | @review s hstate hs _ _ hruns =>
    simp only [canApprove, isAtApprove, position, hstate, hs]
    unfold topPosition
    split
    · rename_i hintro
      have hleading := hruns.fits.leading
      have happrove : s.isApprove = false := by
        simp only [Session.isApprove, Session.approveIndex, Bool.and_eq_false_iff,
          beq_eq_false_iff_ne]
        exact Or.inr (by omega)
      rw [happrove]
      rfl
    · cases happrove : s.isApprove with
      | true => simp
      | false =>
        simp only [Bool.false_eq_true, ↓reduceIte]
        split <;> rfl

/-- An action that is refused changes nothing, unless it aborts the review. -/
theorem Acts.refused {cause : Error} (h : Acts C e action (.error cause) e') :
    e' = e ∧ cause ∈ refusals ∨ C.Aborted e e' ∧ Hazards C e := by
  generalize hreply : (Except.error cause : Except Error Reply) = reply at h
  cases h with
  | @output _ r e' hmoves =>
    cases r with
    | ok out => cases hreply
    | error cause =>
      cases hreply
      cases hmoves with
      | refused hcause => exact Or.inl ⟨rfl, hcause⟩
      | aborted h hwhy => exact Or.inr ⟨h, hwhy⟩
  | press => cases hreply
  | shows => cases hreply
  | canDescend => cases hreply
  | setModes => cases hreply

/-- What the provider has learned by an action, an end that is not an error, tells that there was a
review and that there is none any more. -/
theorem Acts.ends {r : Except Error Reply} (he : Sound C e) (h : Acts C e action r e')
    (hr : .accepted ∈ replyOutcomes e r ∨ .rejected ∈ replyOutcomes e r) :
    e.session ≠ none ∧ e'.session = none ∧ e'.state = .idle := by
  have hmoves {r : Except Error Output} (h : Moves C (action.skips e) e r e')
      (hr : .accepted ∈ outcomesOf r ∨ .rejected ∈ outcomesOf r) :
      e.session ≠ none ∧ e'.session = none ∧ e'.state = .idle := by
    cases r with
    | error cause => simp [outcomesOf] at hr
    | ok out =>
      have hout : out.outcomes ≠ [] := by
        intro hnil
        simp [outcomesOf, hnil] at hr
      cases ends_of_moves h hout with
      | approve hcan =>
        refine ⟨fun hs => ?_, rfl, rfl⟩
        unfold canApprove at hcan
        rw [hs] at hcan
        split at hcan <;> simp_all
      | reject hs => exact ⟨by simp [hs], rfl, rfl⟩
      | acknowledge => simp [outcomesOf, Output.outcomes] at hr
  cases h with
  | @output _ r e' h =>
    refine hmoves h ?_
    cases r <;> exact hr
  | @press button r e' h =>
    refine hmoves h ?_
    rwa [replyOutcomes, h.buttonResponse_outcomes he] at hr
  | shows => simp [replyOutcomes, Reply.outcomes, Output.outcomes] at hr
  | canDescend => simp [replyOutcomes, Reply.outcomes] at hr
  | setModes => simp [replyOutcomes, Reply.outcomes] at hr

namespace Step

/-- What the provider learned by the step. -/
def outcomes (x : Step) : List Outcome := replyOutcomes x.before x.reply

def Decides (x : Step) : Prop := .accepted ∈ x.outcomes ∨ .rejected ∈ x.outcomes

def Aborts (x : Step) : Prop := x.before.session ≠ none ∧ x.after.state = .error

def Begins (x : Step) : Prop := x.action.begins = true ∧ ∃ reply, x.reply = .ok reply

end Step

variable {steps : List Step}

namespace Run

theorem session_of_act (h : Run p config steps t) {reply : Except Error Reply}
    (hact : action.perform p t = .ok (reply, t')) (hs : t.machine.session = none)
    (hnot : ¬Step.Begins ⟨action, t.machine, reply, t'.machine⟩) : t'.machine.session = none := by
  have hp := Contract.honours_any p config
  have he := h.sound hp trivial
  cases haction : action.begins with
  | false => exact (perform_session_eq_none hp he hs haction).of_eq hact
  | true =>
    cases reply with
    | ok reply => exact absurd ⟨haction, reply, rfl⟩ hnot
    | error cause =>
      rcases (h.acts hp trivial hact).refused with ⟨heq, -⟩ | ⟨⟨g, -, heq⟩, -⟩
      · rw [heq]
        exact hs
      · rw [heq]

theorem session_eq_none (h : Run p config steps t) :
    ∀ mid a earlier, steps = mid ++ a :: earlier → a.after.session = none →
      (∀ c ∈ mid, ¬c.Begins) → t.machine.session = none := by
  induction h with
  | start => intro mid a earlier hsteps; simp at hsteps
  | meddle _ _ ih => exact ih
  | act action hrun hact ih =>
    intro mid a earlier hsteps hnone hmid
    cases mid with
    | nil =>
      obtain ⟨rfl, rfl⟩ := List.cons_eq_cons.1 hsteps
      exact hnone
    | cons c mid =>
      obtain ⟨rfl, hrest⟩ := List.cons_eq_cons.1 hsteps
      have hs := ih mid a earlier hrest hnone fun c hc => hmid c (List.mem_cons_of_mem _ hc)
      exact hrun.session_of_act hact hs (hmid _ List.mem_cons_self)

/-- Between the end of a review and a step within a review there is a beginning. -/
theorem exists_begins (h : Run p config steps t) :
    ∀ later b mid a earlier, steps = later ++ b :: (mid ++ a :: earlier) →
      a.after.session = none → b.before.session ≠ none → ∃ c ∈ mid, c.Begins := by
  induction h with
  | start => intro later b mid a earlier hsteps; simp at hsteps
  | meddle _ _ ih => exact ih
  | act action hrun hact ih =>
    intro later b mid a earlier hsteps hnone hsome
    cases later with
    | nil =>
      obtain ⟨rfl, hrest⟩ := List.cons_eq_cons.1 hsteps
      by_cases hbegins : ∃ c ∈ mid, c.Begins
      · exact hbegins
      · have hnot : ∀ c ∈ mid, ¬c.Begins := fun c hc h => hbegins ⟨c, hc, h⟩
        exact absurd (hrun.session_eq_none mid a earlier hrest hnone hnot) hsome
    | cons c later =>
      obtain ⟨-, hrest⟩ := List.cons_eq_cons.1 hsteps
      exact ih later b mid a earlier hrest hnone hsome

theorem acts_of_mem (h : Run p config steps t) (hp : p.Honours C)
    (hstart : C.field (Engine.start config).field) :
    ∀ x ∈ steps, Sound C x.before ∧ Acts C x.before x.action x.reply x.after := by
  induction h with
  | start => intro x hx; simp at hx
  | meddle _ _ ih => exact ih
  | act action hrun hact ih =>
    intro x hx
    rcases List.mem_cons.1 hx with rfl | hx
    · exact ⟨hrun.sound hp hstart, hrun.acts hp hstart hact⟩
    · exact ih x hx

end Run

/-- A run in front of a provider whose conversations are on record. In between, the provider may
change, but not the record. -/
inductive RecordedRun (p : Provider σ) (config : Config) :
    List Step → Sitting Engine (Recorded σ) → Prop
  | start (content : σ) : RecordedRun p config [] ⟨.start config, ⟨content, []⟩, []⟩
  | act {steps : List Step} {t t' : Sitting Engine (Recorded σ)} {reply : Except Error Reply}
    (action : Action) : RecordedRun p config steps t →
    action.perform p.recorded t = .ok (reply, t') →
    RecordedRun p config (⟨action, t.machine, reply, t'.machine⟩ :: steps) t'
  | meddle {steps : List Step} {t : Sitting Engine (Recorded σ)} (content : σ) :
    RecordedRun p config steps t →
    RecordedRun p config steps { t with content := { t.content with content } }

namespace RecordedRun

variable {t t' : Sitting Engine (Recorded σ)}

theorem run (h : RecordedRun p config steps t) : Run p.recorded config steps t := by
  induction h with
  | start content => exact .start _
  | act action _ hact ih => exact .act action ih hact
  | meddle content _ ih => exact .meddle _ ih

theorem told (h : RecordedRun p config steps t) {reply : Except Error Reply}
    (hact : action.perform p.recorded t = .ok (reply, t')) :
    t'.content.conclusions = replyOutcomes t.machine reply ++ t.content.conclusions := by
  have hp := Contract.honours_any p.recorded config
  exact ((perform_told hp (h.run.sound hp trivial) action).of_eq hact).conclusions

/-- The provider has learned of what was decided, in that order, and of nothing else. -/
theorem conclusions (h : RecordedRun p config steps t) :
    t.content.conclusions = steps.flatMap Step.outcomes := by
  induction h with
  | start content => rfl
  | meddle content _ ih => exact ih
  | act action hrun hact ih => rw [hrun.told hact, ih, List.flatMap_cons, Step.outcomes]

end RecordedRun

/-- How the reviews of a run were decided, and how the one at hand can be. -/
structure Decided (p : Provider σ) (steps : List Step) (t : Sitting Engine (Recorded σ)) :
    Prop where
  conclusions : t.content.conclusions = steps.flatMap Step.outcomes
  told (action : Action) (reply : Except Error Reply) (t' : Sitting Engine (Recorded σ)) :
    action.perform p.recorded t = .ok (reply, t') →
    t'.content.conclusions = replyOutcomes t.machine reply ++ t.content.conclusions
  /-- Nothing is decided twice, or after it was aborted. -/
  once (later : List Step) (b : Step) (mid : List Step) (a : Step) (earlier : List Step) :
    steps = later ++ b :: (mid ++ a :: earlier) → a.Decides ∨ a.after.state = .error → b.Decides →
    ∃ c ∈ mid, c.Begins
  /-- Nothing is aborted that has been decided. -/
  aborted (later : List Step) (b : Step) (mid : List Step) (a : Step) (earlier : List Step) :
    steps = later ++ b :: (mid ++ a :: earlier) → a.Decides → b.Aborts → ∃ c ∈ mid, c.Begins
  undecided (x : Step) : x ∈ steps → x.after.state = .error → ¬x.Decides
  approve : (approve p.recorded).Ensures t fun r t' =>
    if t.machine.isAtApprove = true then
      r = .ok .approved ∧ t'.machine.state = .idle ∧ t'.machine.session = none
    else ∃ cause, r = .error cause
  reject : (reject p.recorded).Ensures t fun r t' =>
    if t.machine.session ≠ none then
      r = .ok .rejected ∧ t'.machine.state = .idle ∧ t'.machine.session = none
    else ∃ cause, r = .error cause

/-- However the provider answers, every review of a run is decided once at most, the provider hears
of it, and a review that was aborted is not decided. -/
theorem decided_of_run {t : Sitting Engine (Recorded σ)} (h : RecordedRun p config steps t) :
    Decided p steps t := by
  have hp := Contract.honours_any p.recorded config
  have hrun := h.run
  have he := hrun.sound hp trivial
  have hdecides (x : Step) (hx : x ∈ steps) (h : x.Decides) :
      x.before.session ≠ none ∧ x.after.session = none ∧ x.after.state = .idle := by
    obtain ⟨hsound, hacts⟩ := hrun.acts_of_mem hp trivial x hx
    exact hacts.ends hsound h
  have herror (x : Step) (hx : x ∈ steps) (h : x.after.state = .error) :
      x.after.session = none := by
    obtain ⟨hsound, hacts⟩ := hrun.acts_of_mem hp trivial x hx
    exact (sound_of_acts hsound hacts).session_eq_none (Or.inr h)
  refine ⟨h.conclusions, fun action reply t' => h.told, ?_, ?_, ?_, ?_, ?_⟩
  · intro later b mid a earlier hsteps ha hb
    have hmem : a ∈ steps ∧ b ∈ steps := by simp [hsteps]
    refine hrun.exists_begins later b mid a earlier hsteps ?_ (hdecides b hmem.2 hb).1
    rcases ha with ha | ha
    · exact (hdecides a hmem.1 ha).2.1
    · exact herror a hmem.1 ha
  · intro later b mid a earlier hsteps ha hb
    have hmem : a ∈ steps := by simp [hsteps]
    exact hrun.exists_begins later b mid a earlier hsteps (hdecides a hmem ha).2.1 hb.1
  · intro x hx hstate hdecided
    have hidle := (hdecides x hx hdecided).2.2
    cases hstate.symm.trans hidle
  · simp only [Engine.approve, Operation.ensures_bind, Operation.ensures_machine,
      he.canApprove_eq]
    split
    · rw [finish_ensures]
      exact ⟨rfl, rfl, rfl⟩
    · exact Operation.ensures_throw.2 ⟨_, rfl⟩
  · simp only [Engine.reject, Operation.ensures_bind, Operation.ensures_machine]
    split
    · rename_i hidle
      simp only [he.session_eq_none (Or.inl hidle), ne_eq, not_true_eq_false, ↓reduceIte]
      exact Operation.ensures_throw.2 ⟨_, rfl⟩
    · rename_i hstate
      simp only [he.session_eq_none (Or.inr hstate), ne_eq, not_true_eq_false, ↓reduceIte]
      exact Operation.ensures_throw.2 ⟨_, rfl⟩
    · rename_i hidle hstate
      obtain ⟨s, hs⟩ := he.exists_session hidle hstate
      rw [finish_ensures, if_pos (by simp [hs])]
      exact ⟨rfl, rfl, rfl⟩

theorem decided_of_run_ofPages : ∃ steps t, RecordedRun Fixture.provider .stax steps t ∧
    t.content.conclusions = [.rejected, .accepted] ∧ Decided Fixture.provider steps t := by
  have h : ∃ steps t, RecordedRun Fixture.provider .stax steps t ∧
      t.content.conclusions = [.rejected, .accepted] :=
    ⟨_, _, .act .reject (.act (.begin .transaction false none) (.act .approve (.act .advance
      (.act (.begin .transaction false none) (.start (.ofPages [1])) rfl) rfl) rfl) rfl) rfl, rfl⟩
  obtain ⟨steps, t, hrun, hconclusions⟩ := h
  exact ⟨steps, t, hrun, hconclusions, decided_of_run hrun⟩

end Engine
end WalletReview
