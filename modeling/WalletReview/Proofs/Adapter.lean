import WalletReview.Proofs.Determined
import WalletReview.Proofs.Refusals

/-! What a user interface may rely on. A release of a button tells it of the end that the provider
learns of, and where the answer is that nothing has changed, nothing has; the one exception is a
review that is given up on the way into a field, for a cause that passes for no change there. -/
namespace WalletReview

variable {σ α : Type} {config : Config} {C : Contract config}

theorem Provider.Writes.fixed {p : Provider σ} (h : p.Writes) (st : σ) : (p.fixed st).Writes where
  item index page f _ := h.item index page f st
  title f _ := h.title f st
  child path child page f _ := h.child path child page f st

/-- Items that seem open to inspection, but whose children cannot be counted for `cause`. -/
def Fixture.uncounted (cause : Error) : Provider Fixture :=
  { Fixture.provider with
    childCount := fun _ x => (.error cause, x)
    canInspect := fun _ _ x => (true, x) }

theorem Fixture.writes_uncounted (cause : Error) : (uncounted cause).Writes :=
  ⟨Fixture.writes.item, Fixture.writes.title, Fixture.writes.child⟩

namespace Engine

/-- The causes of a refusal that pass for no change where an event activates the screen. -/
def tolerated (e : Engine) : Event → List Error
  | .select =>
    match e.position with
    | .item _ _ => [.notInspectable]
    | .child _ _ _ => [.notInspectable, .maxDepth]
    | _ => []
  | _ => []

/-- The review was given up for a cause that passes for no change. -/
def Swallows (t : Sitting Engine σ) (event : Event) (t' : Sitting Engine σ) : Prop :=
  ∃ cause ∈ t.machine.tolerated event, FailsFor t cause t'

/-- Where the answer is that nothing has changed, an error screen that has come up stands for one of
`causes`, which is the last thing noted. -/
def Covers (causes : List Error) (t : Sitting Engine (Recorded σ)) (r : Except Error Output)
    (t' : Sitting Engine (Recorded σ)) : Prop :=
  r = .ok .none → t'.machine.state = .error → t.machine.state = .error ∨
    ∃ cause ∈ causes, ∃ notes, t'.journal = .failed cause :: notes ∧ t.journal <:+ notes

variable {p : Provider σ} {t t' : Sitting Engine (Recorded σ)} {causes : List Error}
  {op : Operation Engine (Recorded σ) Output} {r : Except Error Output} {event : Event}

theorem Undecided.covers (h : Undecided true t r t') : Covers causes t r t' := by
  intro hr herror
  rcases h.failed herror with hstart | ⟨-, cause, notes, hcause, -⟩
  · exact Or.inl hstart
  · cases hr.symm.trans hcause

theorem Covers.of_note {notice : Notice}
    (h : Covers causes { t with journal := notice :: t.journal } r t') : Covers causes t r t' := by
  intro hr herror
  refine (h hr herror).imp id ?_
  rintro ⟨cause, hcause, notes, hnotes, hsuffix⟩
  exact ⟨cause, hcause, notes, hnotes, (List.suffix_cons notice t.journal).trans hsuffix⟩

theorem covers_of_silent {post : Except Error Output → Sitting Engine (Recorded σ) → Prop}
    (hop : Silent true op) (h : op.Ensures t post) : op.Ensures t (Covers causes t) := by
  obtain ⟨r, t', hr, -⟩ := h
  exact ⟨r, t', hr, (hop t r t' hr).covers⟩

theorem covers_of_yields {refuses why : Prop} {post : Output → Engine → Prop}
    (h : op.Ensures t fun r t' => t.machine.Yields C refuses why post r t'.machine)
    (hpost : ∀ e', ¬post .none e') : op.Ensures t (Covers causes t) := by
  refine h.mono fun r t' hyields hr => ?_
  rw [hr] at hyields
  exact absurd hyields (hpost _)

theorem covers_throw (cause : Error) (t : Sitting Engine (Recorded σ)) :
    (throw cause : Operation Engine (Recorded σ) Output).Ensures t (Covers causes t) :=
  Operation.ensures_throw.2 fun hr => by cases hr

theorem covers_none (t : Sitting Engine (Recorded σ)) :
    (pure .none : Operation Engine (Recorded σ) Output).Ensures t (Covers causes t) :=
  Operation.ensures_pure.2 fun _ => Or.inl

theorem Ends.ne_none {e e' : Engine} : ¬e.Ends .none e' := fun h => by cases h

theorem orNothing_covers (hop : Silent true op)
    {post : Except Error Output → Sitting Engine (Recorded σ) → Prop} (h : op.Ensures t post) :
    (orNothing causes op).Ensures t (Covers causes t) := by
  obtain ⟨r, t', hr, -⟩ := h
  have hsilent := hop t r t' hr
  simp only [orNothing, Operation.ensures_bind, Operation.ensures_attempt]
  refine ⟨r, t', hr, ?_⟩
  cases r with
  | ok out => exact Operation.ensures_pure.2 hsilent.covers
  | error cause =>
    simp only
    split
    · rename_i hcause
      refine Operation.ensures_pure.2 fun _ herror => (hsilent.failed herror).imp id ?_
      rintro ⟨-, cause', notes, hcause', hnotes⟩
      cases hcause'
      exact ⟨cause, hcause, notes, hnotes⟩
    · exact Operation.ensures_throw.2 fun hr => by cases hr

theorem select_covers (hp : p.recorded.Honours C) (he : Sound C t.machine) :
    (select p.recorded).Ensures t (Covers (t.machine.tolerated .select) t) := by
  rw [select, Loader.select, Operation.ensures_bind]
  apply Operation.ensures_machine.2
  cases hposition : t.machine.position with
  | intro screen =>
    cases screen with
    | shortcut =>
      simp only [hposition]
      exact covers_of_silent (silent_skipToApprove p) (skipToApprove_ensures hp he)
    | _ =>
      simp only [hposition]
      apply covers_none
  | interstitial =>
    simp only [hposition]
    exact covers_of_silent (silent_skipToApprove p) (skipToApprove_ensures hp he)
  | approve =>
    simp only [hposition]
    exact covers_of_yields (approve_ensures (C := C) _ t) fun _ => Ends.ne_none
  | reject =>
    simp only [hposition]
    exact covers_of_yields (reject_ensures _ he) fun _ => Ends.ne_none
  | item =>
    simp only [hposition, tolerated]
    exact orNothing_covers (silent_enterInspect p) (enterInspect_ensures hp he)
  | goToRoot =>
    simp only [hposition]
    exact covers_of_silent (silent_exitToRoot p) (exitToRoot_ensures hp he)
  | back =>
    simp only [hposition]
    exact covers_of_silent (silent_exitLevel p) (exitLevel_ensures hp he)
  | child =>
    simp only [hposition, tolerated]
    exact orNothing_covers (silent_descend p) (descend_ensures hp he)
  | idle =>
    simp only [hposition]
    apply covers_none
  | error =>
    simp only [hposition]
    apply covers_none

theorem update_covers (hp : p.recorded.Honours C) (he : Sound C t.machine) (event : Event) :
    (update p.recorded event).Ensures t (Covers (t.machine.tolerated event) t) := by
  simp only [update, Loader.update, Operation.ensures_bind, Operation.ensures_machine,
    Operation.ensures_note]
  suffices h : Operation.Ensures _ _ (Covers (t.machine.tolerated event)
      { t with journal := .event event t.machine.state :: t.journal }) from
    h.mono fun _ _ => Covers.of_note
  split
  · apply covers_none
  · exact covers_of_silent (silent_begin p _ _ _) (begin_ensures hp he)
  · exact covers_of_yields (acknowledge_ensures (C := C) _ _) fun _ => Ends.ne_none
  · exact covers_of_yields (acknowledge_ensures (C := C) _ _) fun _ => Ends.ne_none
  · apply covers_throw
  · apply covers_throw
  · apply covers_throw
  · apply covers_throw
  · exact covers_of_silent (silent_advance p) (advance_ensures hp he)
  · exact covers_of_silent (silent_retreat p) (retreat_ensures hp he)
  · exact select_covers hp he
  · exact covers_of_yields (approve_ensures (C := C) _ _) fun _ => Ends.ne_none
  · exact covers_of_yields (reject_ensures _ he) fun _ => Ends.ne_none
  · exact covers_of_silent (silent_skipToApprove p) (skipToApprove_ensures hp he)
  · exact covers_of_silent (silent_exitToRoot p) (exitToRoot_ensures hp he)
  · exact covers_of_silent (silent_exitLevel p) (exitLevel_ensures hp he)
  · apply covers_throw

theorem Moves.eq_of_error {skips : Bool} {e e' : Engine} {cause : Error}
    (h : Moves C skips e (.error cause) e') (hstate : e'.state ≠ .error) : e' = e := by
  cases h with
  | refused => rfl
  | aborted haborted => exact absurd haborted.state hstate

/-- An event that is refused without an error screen changes nothing, and neither does one that is
answered with no change, unless a failure passes for it. -/
theorem update_shows (hp : p.recorded.Honours C) (he : Sound C t.machine) (hC : C.Determined)
    (event : Event) : (update p.recorded event).Ensures t fun r t' =>
      (r = .ok .none → t'.machine = t.machine ∨ Swallows t event t') ∧
      (∀ cause, r = .error cause → t'.machine.state ≠ .error → t'.machine = t.machine) := by
  refine ((update_moves hp he event).and (update_covers hp he event)).mono fun r t' hr => ?_
  obtain ⟨hmoves, hcovers⟩ := hr
  constructor
  · rintro rfl
    rcases hmoves.eq_of_none he hC with heq | ⟨haborted, hwhy⟩
    · exact Or.inl heq
    · rcases hcovers rfl haborted.state with hstart | ⟨cause, hcause, hnotes⟩
      · exact absurd hstart (hwhy.state_ne_error he)
      · exact Or.inr ⟨cause, hcause, failsFor_of_aborted haborted hnotes⟩
  · rintro cause rfl hstate
    exact hmoves.eq_of_error hstate

theorem press_of_update {p : Provider σ} {t : Sitting Engine σ} {button : Button}
    {post : Sitting Engine σ → Prop}
    (h : (update p (button.event t.machine.position)).Ensures t fun r t' =>
      (r = .ok .none → post t') ∧
      (∀ cause, r = .error cause → t'.machine.state ≠ .error → post t')) :
    (button.press p).Ensures t fun r t' => ∃ response, r = .ok response ∧
      (response = .none → post t') := by
  simp only [Button.press, Button.pressWith, Operation.ensures_bind, Operation.ensures_machine,
    Operation.ensures_attempt]
  refine h.mono fun r t' hr => ?_
  obtain ⟨hnone, hrefused⟩ := hr
  cases r with
  | error cause =>
    simp only [Operation.ensures_bind, Operation.ensures_machine, Operation.ensures_pure]
    refine ⟨_, rfl, fun hresponse => hrefused cause rfl fun hstate => ?_⟩
    simp [hstate] at hresponse
  | ok out =>
    cases out with
    | none =>
      simp only [Operation.ensures_pure]
      exact ⟨_, rfl, fun _ => hnone rfl⟩
    | _ =>
      simp only [Operation.ensures_pure]
      exact ⟨_, rfl, fun hresponse => by cases hresponse⟩

theorem press_shows (hp : p.recorded.Honours C) (he : Sound C t.machine) (hC : C.Determined)
    (button : Button) : (button.press p.recorded).Ensures t fun r t' => ∃ response,
      r = .ok response ∧ (response = .none → t'.machine = t.machine ∨
        Swallows t (button.event t.machine.position) t') :=
  press_of_update ((update_shows hp he hC _).mono fun _ _ hr =>
    ⟨hr.1, fun cause hcause hstate => Or.inl (hr.2 cause hcause hstate)⟩)

theorem Yields.outcomes {refuses why : Prop} {post : Output → Engine → Prop} {e e' : Engine}
    (h : e.Yields C refuses why post r e') (hpost : ∀ out, post out e' → out.outcomes = []) :
    outcomesOf r = [] := by
  cases r with
  | ok out => exact hpost out h
  | error cause => rfl

theorem update_outcomes (hp : p.recorded.Honours C) (he : Sound C t.machine)
    (hevent : event = .next ∨ event = .previous) :
    (update p.recorded event).Ensures t fun r _ => outcomesOf r = [] := by
  have hadvance := Operation.Ensures.mono (advance_ensures (t := { t with
    journal := .event .next t.machine.state :: t.journal }) hp he)
    fun r t' hr => Yields.outcomes hr fun _ h => h.outcomes
  have hretreat := Operation.Ensures.mono (retreat_ensures (t := { t with
    journal := .event .previous t.machine.state :: t.journal }) hp he)
    fun r t' hr => Yields.outcomes hr fun _ h => h.outcomes
  simp only [update, Loader.update, Operation.ensures_bind, Operation.ensures_machine,
    Operation.ensures_note]
  rcases hevent with rfl | rfl
  · cases hstate : t.machine.state with
    | idle => exact Operation.ensures_throw.2 rfl
    | error => exact Operation.ensures_throw.2 rfl
    | _ =>
      rw [hstate] at hadvance
      exact hadvance
  · cases hstate : t.machine.state with
    | idle => exact Operation.ensures_throw.2 rfl
    | error => exact Operation.ensures_throw.2 rfl
    | _ =>
      rw [hstate] at hretreat
      exact hretreat

theorem press_tells (hp : p.recorded.Honours C) (he : Sound C t.machine) (button : Button) :
    (button.press p.recorded).Ensures t fun r t' => ∃ response told, r = .ok response ∧
      t'.content.conclusions = told ++ t.content.conclusions ∧
      (response = .exit true ↔ .accepted ∈ told) ∧
      (response = .exit false ↔ .rejected ∈ told ∨ .error ∈ told) := by
  refine (press_told hp he button).mono fun r t' hr => ?_
  obtain ⟨response, rfl, htold⟩ := hr
  refine ⟨response, _, rfl, htold, ?_⟩
  cases response with
  | none => simp [Reply.outcomes]
  | update => simp [Reply.outcomes]
  | exit approved =>
    cases approved with
    | true => simp [Reply.outcomes]
    | false =>
      by_cases hstate : t.machine.state = .error
      · simp [Reply.outcomes, hstate]
      · simp [Reply.outcomes, hstate]

theorem press_quiet (hp : p.recorded.Honours C) (he : Sound C t.machine) {button : Button}
    (hbutton : button ≠ .both) : (button.press p.recorded).Ensures t fun _ t' =>
      t'.content.conclusions = t.content.conclusions := by
  have hevent : button.event t.machine.position = .next ∨
      button.event t.machine.position = .previous := by
    cases button with
    | left => exact Or.inr rfl
    | right => exact Or.inl rfl
    | both => exact absurd rfl hbutton
  simp only [Button.press, Button.pressWith, Operation.ensures_bind, Operation.ensures_machine,
    Operation.ensures_attempt]
  refine ((update_settles hp he _).and (update_outcomes hp he hevent)).mono fun r t' hr => ?_
  obtain ⟨hsettles, hnil⟩ := hr
  have hconclusions := hsettles.conclusions
  rw [hnil, List.nil_append] at hconclusions
  cases r with
  | error cause =>
    simp only [Operation.ensures_bind, Operation.ensures_machine, Operation.ensures_pure]
    exact hconclusions
  | ok out =>
    cases out
    all_goals
      simp only [Operation.ensures_pure]
      exact hconclusions

/-- What the answers to buttons and events tell of what has come of them. -/
structure Candid (p : Provider σ) (t : Sitting Engine (Recorded σ)) : Prop where
  press (button : Button) : (button.press p.recorded).Ensures t fun r t' => ∃ response told,
    r = .ok response ∧ t'.content.conclusions = told ++ t.content.conclusions ∧
    (response = .exit true ↔ .accepted ∈ told) ∧
    (response = .exit false ↔ .rejected ∈ told ∨ .error ∈ told)
  quiet (button : Button) : button ≠ .both → (button.press p.recorded).Ensures t fun _ t' =>
    t'.content.conclusions = t.content.conclusions
  unchanged (button : Button) : (button.press p.recorded).Ensures t fun r t' =>
    r = .ok .none → t'.machine = t.machine ∨ Swallows t (button.event t.machine.position) t'
  update (event : Event) : (update p.recorded event).Ensures t fun r t' =>
    (r = .ok .none → t'.machine = t.machine ∨ Swallows t event t') ∧
    (∀ cause, r = .error cause → t'.machine.state ≠ .error → t'.machine = t.machine)

/-- In front of a provider whose answers depend on the questions only, be they refusals, buttons and
events are answered for what has come of them. -/
theorem candid_of_run (hsteady : p.Steady) (hwrites : p.Writes) {steps : List Step}
    (h : Run p.recorded config steps t) : Candid p t := by
  have hp : p.recorded.Honours (Contract.answered p.recorded config) := hwrites.recorded.answered
  have hC : (Contract.answered p.recorded config).Determined := hsteady.recorded.determined
  have he := h.sound hp Field.clean_blank
  refine ⟨press_tells hp he, fun button => press_quiet hp he, fun button => ?_,
    update_shows hp he hC⟩
  refine (press_shows hp he hC button).mono fun r t' hr hnone => ?_
  obtain ⟨response, rfl, hsame⟩ := hr
  cases hnone
  exact hsame rfl

theorem candid_of_run_uncounted : ∃ steps t,
    Run ((Fixture.uncounted .notInspectable).fixed (.ofPages [1])).recorded .stax steps t ∧
      t.machine.position = .item 0 0 ∧
      Candid ((Fixture.uncounted .notInspectable).fixed (.ofPages [1])) t := by
  have h : ∃ steps t,
      Run ((Fixture.uncounted .notInspectable).fixed (.ofPages [1])).recorded .stax steps t ∧
        t.machine.position = .item 0 0 :=
    ⟨_, _, .act (.begin .transaction false none) (.start ⟨(), []⟩) rfl, rfl⟩
  obtain ⟨steps, t, hrun, hposition⟩ := h
  exact ⟨steps, t, hrun, hposition, candid_of_run (Provider.fixed_steady _ _)
    ((Fixture.writes_uncounted _).fixed _) hrun⟩

/-- Both buttons on that item: no change is answered, and the error screen has come up. -/
theorem not_unchanged_of_none : ∃ (p : Provider Unit) (steps : List Step)
    (t t' : Sitting Engine (Recorded Unit)), p.Steady ∧ p.Writes ∧ Run p.recorded .stax steps t ∧
      Button.both.press p.recorded t = .ok (.ok .none, t') ∧
      t.machine.display = ⟨"Item 0", "0.0", .item 0 0, 0, 1⟩ ∧
      t'.machine.display = ⟨"ERROR", "SHOWING DATA", .error, 0, 1⟩ := by
  have h : ∃ (steps : List Step) (t t' : Sitting Engine (Recorded Unit)),
      Run ((Fixture.uncounted .notInspectable).fixed (.ofPages [1])).recorded .stax steps t ∧
        Button.both.press ((Fixture.uncounted .notInspectable).fixed (.ofPages [1])).recorded t =
          .ok (.ok .none, t') ∧
        t.machine.display = ⟨"Item 0", "0.0", .item 0 0, 0, 1⟩ ∧
        t'.machine.display = ⟨"ERROR", "SHOWING DATA", .error, 0, 1⟩ :=
    ⟨_, _, _, .act (.begin .transaction false none) (.start ⟨(), []⟩) rfl, rfl, rfl, rfl⟩
  obtain ⟨steps, t, t', hrun, hpress, hbefore, hafter⟩ := h
  exact ⟨_, steps, t, t', Provider.fixed_steady _ _, (Fixture.writes_uncounted _).fixed _, hrun,
    hpress, hbefore, hafter⟩

end Engine
end WalletReview
