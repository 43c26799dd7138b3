import WalletReview.Fixture
import WalletReview.Proofs.BoundedText
import WalletReview.Proofs.Decisions
import WalletReview.Proofs.Screens

/-! Actions that are refused. A refusal leaves the engine as it was, or else it is a screen that
could not be loaded, and then the review is given up for the general error screen. -/
namespace WalletReview

variable {σ : Type} {config : Config} {C : Contract config}

def Event.unexpected (state : State) : Event → Bool
  | none => false
  | begin _ _ => state != .idle
  | acknowledge => state != .error
  | select => state == .idle
  | inspectRoot | inspectBack => state != .inspect
  | next | previous | approve | reject | skipToApprove => state == .idle || state == .error

namespace Engine

/-- What an event comes down to where it is expected, unless that depends on the screen. -/
def actionOf? : Event → Option Action
  | .begin kind confirmation => some (.begin kind confirmation none)
  | .next => some .advance
  | .previous => some .retreat
  | .approve => some .approve
  | .reject => some .reject
  | .skipToApprove => some .skipToApprove
  | .inspectRoot => some .exitToRoot
  | .inspectBack => some .exitLevel
  | .acknowledge => some .acknowledge
  | .none | .select => none

/-- Actions that are not available to an engine, with the cause for which they are refused; `st` is
the state of the provider. -/
inductive Refused (p : Provider σ) (e : Engine) (st : σ) : Action → Error → Prop
  | begin {kind : Kind} {confirmation : Bool} {intent : Option String} : e.state ≠ .idle →
    Refused p e st (.begin kind confirmation intent) .invalidState
  | advance : e.session = none → Refused p e st .advance .invalidState
  | retreat : e.session = none → Refused p e st .retreat .invalidState
  | reject : e.session = none → Refused p e st .reject .invalidState
  | approve : e.isAtApprove = false → Refused p e st .approve .invalidState
  | skip : (∀ s, e.session = some s → e.canSkip s = false) →
    Refused p e st .skipToApprove .invalidState
  | enter : (∀ index page, e.position ≠ .item index page) →
    Refused p e st .enterInspect .invalidState
  | enterDenied {index page : UInt8} : e.position = .item index page →
    (p.canInspect [] index st).1 = false → Refused p e st .enterInspect .notInspectable
  | descend : (∀ s i child, e.Inspects s i → i.childIndex ≠ some child) →
    Refused p e st .descend .invalidState
  | descendBelow {s : Session} {i : Inspection} {child : UInt8} : e.Inspects s i →
    i.childIndex = some child → maxDepth ≤ i.depth.toNat → Refused p e st .descend .maxDepth
  | descendDenied {s : Session} {i : Inspection} {child : UInt8} : e.Inspects s i →
    i.childIndex = some child → i.depth.toNat < maxDepth →
    (p.canInspect i.chain child st).1 = false → Refused p e st .descend .notInspectable
  | exitLevel : e.state ≠ .inspect → Refused p e st .exitLevel .invalidState
  | exitToRoot : e.state ≠ .inspect → Refused p e st .exitToRoot .invalidState
  | acknowledge : e.state ≠ .error → Refused p e st .acknowledge .invalidState
  | unexpected {event : Event} : event.unexpected e.state = true →
    Refused p e st (.take event) .unexpectedEvent
  | expected {event : Event} {action : Action} {cause : Error} :
    event.unexpected e.state = false → actionOf? event = some action →
    Refused p e st action cause → Refused p e st (.take event) cause

variable {p : Provider σ} {t t' : Sitting Engine σ} {e : Engine} {action : Action} {cause : Error}

/-- An expected event does what its action does. -/
theorem take_ensures {event : Event} {post : Except Error Reply → Sitting Engine σ → Prop}
    (hexpected : event.unexpected t.machine.state = false)
    (haction : actionOf? event = some action) :
    ((Action.take event).perform p).Ensures t post ↔ (action.perform p).Ensures
      { t with journal := .event event t.machine.state :: t.journal } post := by
  simp only [Action.perform, Loader.perform, Loader.update, Operation.ensures_map,
    Operation.ensures_bind, Operation.ensures_machine, Operation.ensures_note]
  cases event with
  | none => cases haction
  | select => cases haction
  | _ =>
    cases haction
    cases hstate : t.machine.state
    all_goals first
      | simp [Event.unexpected, hstate] at hexpected; done
      | simp only [Operation.ensures_map]

theorem update_unexpected {event : Event} (h : event.unexpected t.machine.state = true) :
    (update p event).Ensures t fun r t' =>
      r = .error .unexpectedEvent ∧ t'.machine = t.machine := by
  simp only [update, Loader.update, Operation.ensures_bind, Operation.ensures_machine,
    Operation.ensures_note]
  cases event with
  | none => cases h
  | _ =>
    cases hstate : t.machine.state
    all_goals first
      | simp [Event.unexpected, hstate] at h; done
      | simp only [Operation.ensures_throw, and_self]

namespace Sound

variable {s : Session} {index page : UInt8}

theorem position_eq_item_iff (he : Sound C e) : e.position = .item index page ↔
    e.state = .review ∧ ∃ s, e.session = some s ∧ s.itemIndex? = some index ∧
      s.cursor.page = page := by
  constructor
  · intro hposition
    cases he.standing with
    | idle hstate => simp [position, hstate] at hposition
    | error hstate => simp [position, hstate] at hposition
    | confirm hstate hs => simp [position, hstate, hs] at hposition
    | interstitial hstate hs => simp [position, hstate, hs] at hposition
    | inspect hi =>
      simp only [position, hi.state, hi.session, hi.inspection, inspectPosition] at hposition
      repeat' split at hposition
      all_goals cases hposition
    | @review s hstate hs _ _ hruns =>
      refine ⟨hstate, s, hs, ?_⟩
      rw [he.position_eq hs (Or.inl hstate)] at hposition
      rcases s.place_cases s.cursor with ⟨screen, hscreen⟩ | ⟨index', hat⟩ | hle
      · rw [Session.screen_intro hruns.spans hscreen] at hposition
        cases hposition
      · rw [Session.screen_item hruns.fits hruns.spans hat] at hposition
        cases hposition
        exact ⟨hruns.itemIndex?_eq_some_iff.2 hat, rfl⟩
      · have hscreen := List.mem_of_getElem? (Session.screen_decision hruns hle)
        rw [hposition] at hscreen
        cases hmode : s.terminal <;> simp [hmode, TerminalMode.screens] at hscreen
  · rintro ⟨hstate, s, hs, hindex, rfl⟩
    obtain ⟨hruns, -⟩ := he.runs hs
    rw [he.position_eq hs (Or.inl hstate),
      Session.screen_item hruns.fits hruns.spans (hruns.itemIndex?_eq_some_iff.1 hindex)]

end Sound

/-- What an operation does that is refused and changes nothing. -/
def Refuses (op : Operation Engine σ Output) (t : Sitting Engine σ) (cause : Error) : Prop :=
  op.Ensures t fun r t' => r = .error cause ∧ t'.machine = t.machine

section

variable {s : Session} {i : Inspection} {child : UInt8}

theorem Refuses.output {op : Operation Engine σ Output} (h : Refuses op t cause) :
    (Reply.output <$> op).Ensures t fun r t' => r = .error cause ∧ t'.machine = t.machine := by
  rw [Operation.ensures_map]
  refine h.mono fun r t' hr => ?_
  rw [hr.1]
  exact ⟨rfl, hr.2⟩

theorem begin_refuses {kind : Kind} {confirmation : Bool} {intent : Option String}
    (hstate : t.machine.state ≠ .idle) :
    Refuses (begin p kind confirmation intent) t .invalidState := by
  simp [Refuses, begin, Loader.begin, hstate]

theorem advance_refuses (hstate : t.machine.state = .idle ∨ t.machine.state = .error) :
    Refuses (advance p) t .invalidState := by
  rcases hstate with hstate | hstate <;> simp [Refuses, advance, Loader.advance, hstate]

theorem retreat_refuses (hstate : t.machine.state = .idle ∨ t.machine.state = .error) :
    Refuses (retreat p) t .invalidState := by
  rcases hstate with hstate | hstate <;> simp [Refuses, retreat, Loader.retreat, hstate]

theorem reject_refuses (hstate : t.machine.state = .idle ∨ t.machine.state = .error) :
    Refuses (reject p) t .invalidState := by
  rcases hstate with hstate | hstate <;> simp [Refuses, reject, hstate]

theorem skipToApprove_refuses
    (hskip : ∀ s, t.machine.session = some s → t.machine.canSkip s = false) :
    Refuses (skipToApprove p) t .invalidState := by
  simp only [Refuses, skipToApprove, Loader.skipToApprove, Operation.ensures_bind,
    Operation.ensures_machine]
  cases hs : t.machine.session with
  | none => exact (ensures_getSession_none hs).2 ⟨rfl, rfl⟩
  | some s =>
    rw [ensures_getSession hs]
    simp [hskip s hs]

theorem enterInspect_refuses (he : Sound C t.machine)
    (hposition : ∀ index page, t.machine.position ≠ .item index page) :
    Refuses (enterInspect p) t .invalidState := by
  simp only [Refuses, enterInspect, Loader.enterInspect, Operation.ensures_bind,
    Operation.ensures_machine]
  by_cases hstate : t.machine.state = .review
  · obtain ⟨s, hs, -⟩ := he.review hstate
    have hindex : s.itemIndex? = none := by
      cases hindex : s.itemIndex? with
      | none => rfl
      | some index =>
        exact absurd (he.position_eq_item_iff.2 ⟨hstate, s, hs, hindex, rfl⟩)
          (hposition index s.cursor.page)
    simp [hstate, ensures_getSession hs, hindex]
  · simp [hstate]

theorem enterInspect_denied (he : Sound C t.machine) {index page : UInt8}
    (hposition : t.machine.position = .item index page)
    (hdenied : (p.canInspect [] index t.content).1 = false) :
    Refuses (enterInspect p) t .notInspectable := by
  obtain ⟨hstate, s, hs, hindex, -⟩ := he.position_eq_item_iff.1 hposition
  simp [Refuses, enterInspect, Loader.enterInspect, hstate, ensures_getSession hs, hindex, hdenied]

theorem descend_refuses (he : Sound C t.machine)
    (hchild : ∀ s i child, t.machine.Inspects s i → i.childIndex ≠ some child) :
    Refuses (descend p) t .invalidState := by
  simp only [Refuses, descend, Loader.descend, Operation.ensures_bind, Operation.ensures_machine]
  by_cases hstate : t.machine.state = .inspect
  · obtain ⟨s, i, -, -, hi, -⟩ := he.inspect hstate
    have hnone : i.childIndex = none := by
      cases hindex : i.childIndex with
      | none => rfl
      | some child => exact absurd hindex (hchild s i child hi)
    simp [hstate, ensures_getInspection hi.session hi.inspection, hnone]
  · simp [hstate]

theorem descend_below (hi : t.machine.Inspects s i) (hchild : i.childIndex = some child)
    (hdepth : maxDepth ≤ i.depth.toNat) : Refuses (descend p) t .maxDepth := by
  simp only [Refuses, descend, Loader.descend, Operation.ensures_bind, Operation.ensures_machine,
    hi.state, ne_eq, not_true_eq_false, ↓reduceIte,
    ensures_getInspection hi.session hi.inspection, hchild, Inspection.descend, if_pos hdepth,
    Operation.ensures_throw, and_self]

theorem descend_denied (he : Sound C t.machine) (hi : t.machine.Inspects s i)
    (hchild : i.childIndex = some child) (hdepth : i.depth.toNat < maxDepth)
    (hdenied : (p.canInspect i.chain child t.content).1 = false) :
    Refuses (descend p) t .notInspectable := by
  obtain ⟨root, -, hstands⟩ := he.of_inspects hi
  simp only [Refuses, descend, Loader.descend, Operation.ensures_bind, Operation.ensures_machine,
    hi.state, ne_eq, not_true_eq_false, ↓reduceIte,
    ensures_getInspection hi.session hi.inspection, hchild, Inspection.descend,
    if_neg (Nat.not_le.2 hdepth), Operation.ensures_liftM, hstands.fits.trace, Except.ok.injEq,
    exists_eq_left', Operation.ensures_ask, hdenied, Bool.false_eq_true, Operation.ensures_throw,
    and_self]

end

/-- An action that is not available is refused for its cause, and changes nothing. -/
theorem refused_ensures {st : σ} (h : Refused p e st action cause) (he : Sound C e)
    (hmachine : t.machine = e) (hcontent : t.content = st) :
    (action.perform p).Ensures t fun r t' => r = .error cause ∧ t'.machine = t.machine := by
  -- An event that is expected comes down to an action, whose refusal the induction is on.
  induction h generalizing t with
  | expected hexpected haction _ ih =>
    exact (take_ensures (by rw [hmachine]; exact hexpected) haction).2 (ih hmachine hcontent)
  | unexpected hevent =>
    subst hmachine
    exact Refuses.output (update_unexpected hevent)
  | begin hstate =>
    subst hmachine
    exact (begin_refuses hstate).output
  | advance hs =>
    subst hmachine
    exact (advance_refuses (he.idle_or_error hs)).output
  | retreat hs =>
    subst hmachine
    exact (retreat_refuses (he.idle_or_error hs)).output
  | reject hs =>
    subst hmachine
    exact (reject_refuses (he.idle_or_error hs)).output
  | approve happrove =>
    subst hmachine
    rw [← he.canApprove_eq] at happrove
    exact Refuses.output (by simp [Refuses, approve, happrove])
  | skip hskip =>
    subst hmachine
    exact (skipToApprove_refuses hskip).output
  | enter hposition =>
    subst hmachine
    exact (enterInspect_refuses he hposition).output
  | enterDenied hposition hdenied =>
    subst hmachine hcontent
    exact (enterInspect_denied he hposition hdenied).output
  | descend hchild =>
    subst hmachine
    exact (descend_refuses he hchild).output
  | descendBelow hi hchild hdepth =>
    subst hmachine
    exact (descend_below hi hchild hdepth).output
  | descendDenied hi hchild hdepth hdenied =>
    subst hmachine hcontent
    exact (descend_denied he hi hchild hdepth hdenied).output
  | exitLevel hstate =>
    subst hmachine
    exact Refuses.output (by simp [Refuses, Loader.exitLevel, hstate])
  | exitToRoot hstate =>
    subst hmachine
    exact Refuses.output (by simp [Refuses, Loader.exitToRoot, hstate])
  | acknowledge hstate =>
    subst hmachine
    exact Refuses.output (by simp [Refuses, acknowledge, hstate])

theorem machine_eq_of_error (hp : p.Honours C) (he : Sound C t.machine)
    (hstate : t.machine.state = .error) (hact : action.perform p t = .ok (.error cause, t')) :
    t'.machine = t.machine := by
  rcases ((perform_ensures hp he action).of_eq hact).refused with ⟨hsame, -⟩ | ⟨-, hwhy⟩
  · exact hsame
  · exact absurd hstate (hwhy.state_ne_error he)

/-- The review was given up for the general error screen, because a screen could not be loaded for
`cause`. -/
structure FailsFor (t : Sitting Engine σ) (cause : Error) (t' : Sitting Engine σ) : Prop where
  state : t'.machine.state = .error
  session : t'.machine.session = none
  config : t'.machine.config = t.machine.config
  modes : t'.machine.modes = t.machine.modes
  display : t'.machine.display = ⟨"ERROR", "SHOWING DATA", .error, 0, 1⟩
  key : t'.machine.field.key.Holds "ERROR".toList
  value : t'.machine.field.value.Holds "SHOWING DATA".toList
  failed : ∃ notes, t'.journal = .failed cause :: notes ∧ t.journal <:+ notes

theorem holds_errorScreen (f : Field) :
    ((f.wipe.setKey errorKey).setValue errorValue).key.Holds "ERROR".toList ∧
      ((f.wipe.setKey errorKey).setValue errorValue).value.Holds "SHOWING DATA".toList := by
  have hkey := (BoundedText.holds_wipe f.key).set errorKey
  have hvalue := (BoundedText.holds_wipe f.value).set errorValue
  rw [Text.fitting_eq_self (by decide)] at hkey hvalue
  exact ⟨hkey, hvalue⟩

theorem failsFor_of_aborted (h : C.Aborted t.machine t'.machine)
    (hfailed : ∃ notes, t'.journal = .failed cause :: notes ∧ t.journal <:+ notes) :
    FailsFor t cause t' := by
  obtain ⟨g, -, heq⟩ := h
  obtain ⟨hkey, hvalue⟩ := holds_errorScreen g
  have hdisplay : t'.machine.display = ⟨"ERROR", "SHOWING DATA", .error, 0, 1⟩ := by
    rw [display, heq, hkey.text, hvalue.text]
    rfl
  refine ⟨by rw [heq], by rw [heq], by rw [heq], by rw [heq], hdisplay, ?_, ?_, hfailed⟩
  · rw [heq]
    exact hkey
  · rw [heq]
    exact hvalue

/-- Every refusal is clean: it changes nothing, or the review is given up. -/
structure Atomic (p : Provider σ) (t : Sitting Engine (Recorded σ)) : Prop where
  clean (action : Action) (cause : Error) (t' : Sitting Engine (Recorded σ)) :
    action.perform p.recorded t = .ok (.error cause, t') →
    t'.content.conclusions = t.content.conclusions ∧
      (t'.machine = t.machine ∨ FailsFor t cause t')
  refused (action : Action) (cause : Error) :
    Refused p.recorded t.machine t.content action cause →
    (action.perform p.recorded).Ensures t fun r t' => r = .error cause ∧
      t'.machine = t.machine ∧ t'.content.conclusions = t.content.conclusions

/-- However the provider answers, every refusal in a run is clean. -/
theorem atomic_of_run {steps : List Step} {t : Sitting Engine (Recorded σ)}
    (h : Run p.recorded config steps t) : Atomic p t := by
  have hp := Contract.honours_any p.recorded config
  have he := h.sound hp trivial
  have htold (action : Action) := perform_told hp he action
  refine ⟨fun action cause t' hact => ?_, fun action cause hrefused => ?_⟩
  · obtain ⟨hconclusions, hfailed⟩ := (htold action).of_eq hact
    refine ⟨hconclusions, ?_⟩
    rcases (h.acts hp trivial hact).refused with ⟨heq, -⟩ | ⟨haborted, -⟩
    · exact Or.inl heq
    · have hstate : t'.machine.state = .error := by
        obtain ⟨g, -, heq⟩ := haborted
        rw [heq]
      rcases hfailed cause rfl hstate with herror | hnotes
      · exact Or.inl (machine_eq_of_error hp he herror hact)
      · exact Or.inr (failsFor_of_aborted haborted hnotes)
  · refine ((refused_ensures hrefused he rfl rfl).and (htold action)).mono fun r t' hr => ?_
    obtain ⟨⟨rfl, hmachine⟩, hconclusions⟩ := hr
    exact ⟨rfl, hmachine, hconclusions.conclusions⟩

/-- A review whose second item cannot be loaded. -/
theorem atomic_of_run_failAt : ∃ steps t t',
    Run Fixture.provider.recorded .stax steps t ∧ t.machine.position = .item 0 0 ∧
      Action.advance.perform Fixture.provider.recorded t = .ok (.error .unknown, t') ∧
      FailsFor t .unknown t' ∧ Atomic Fixture.provider t := by
  have h : ∃ steps t t', Run Fixture.provider.recorded .stax steps t ∧
      t.machine.position = .item 0 0 ∧
      Action.advance.perform Fixture.provider.recorded t = .ok (.error .unknown, t') ∧
      t'.machine.position = .error :=
    ⟨_, _, _, .act (.begin .transaction false none)
      (.start ⟨{ Fixture.ofPages [1, 1] with failAt := some 1 }, []⟩) rfl, rfl, rfl, rfl⟩
  obtain ⟨steps, t, t', hrun, hposition, hact, herror⟩ := h
  have hatomic := atomic_of_run hrun
  refine ⟨steps, t, t', hrun, hposition, hact, ?_, hatomic⟩
  rcases (hatomic.clean _ _ _ hact).2 with heq | hfails
  · rw [heq, hposition] at herror
    cases herror
  · exact hfails

end Engine
end WalletReview
