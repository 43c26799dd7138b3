import WalletReview.Proofs.Ellipsis
import WalletReview.Proofs.Refusals

/-! What a review was opened with. Only a beginning brings a review about, and for as long as the
review lasts it keeps the kind, the mode flags and the intent of its beginning. -/
namespace WalletReview

variable {σ : Type} {config : Config} {C : Contract config}

structure Opening where
  kind : Kind
  modes : Modes
  /-- What is told of the intent; empty where it is not told. -/
  subject : String
  deriving DecidableEq

/-- The opening of a review. The intent of a transaction or a message is told, whole if it fits on a
line, else cut off in front of an ellipsis. -/
def Opening.of (kind : Kind) (modes : Modes) (intent : Option String) : Opening where
  kind := kind
  modes := modes
  subject :=
    match kind, intent with
    | .transaction, some text | .message, some text =>
      if text = "" then "" else .ofList (Text.abbreviate keyCapacity ("to " ++ text).toList)
    | _, _ => ""

structure Session.OpenedBy (s : Session) (o : Opening) : Prop where
  kind : s.kind = o.kind
  modes : s.modes = o.modes
  intent : s.intent.Holds o.subject.toList

theorem Session.Fits.exists_openedBy {s : Session} (h : s.Fits C) : ∃ o, s.OpenedBy o := by
  obtain ⟨cs, hcs⟩ := h.intent
  exact ⟨⟨s.kind, s.modes, .ofList cs⟩, rfl, rfl, by rwa [String.toList_ofList]⟩

theorem Session.OpenedBy.continues {s s' : Session} {o : Opening} (h : s.OpenedBy o)
    (hs : s.Continues s') : s'.OpenedBy o := by
  obtain ⟨c, i, rfl⟩ := hs
  exact ⟨h.kind, h.modes, h.intent⟩

namespace Engine

/-- How an action opens a review, if it is one that does; `modes` are the mode flags before it. -/
def Action.opening? (modes : Modes) : Action → Option Opening
  | .begin kind _ intent => some (.of kind modes intent)
  | .take (.begin kind _) => some (.of kind modes none)
  | _ => none

def openingOf (steps : List Step) : Option Opening :=
  (sinceBegin steps).getLast?.bind fun x => x.action.opening? x.before.modes

variable {p : Provider σ} {t t' : Sitting Engine σ} {e e' : Engine} {s : Session} {o : Opening}
  {action : Action} {reply : Except Error Reply} {kind : Kind} {confirmation : Bool}
  {intent : Option String} {out : Output} {steps : List Step} {x : Step}

theorem newSession_openedBy (e : Engine) (kind : Kind) (confirmation : Bool)
    (intent : Option String) (count : UInt8) :
    (e.newSession kind confirmation intent count).OpenedBy (.of kind e.modes intent) := by
  have hbare (h : (Opening.of kind e.modes intent).subject = "") :
      (Session.start kind confirmation e.config.terminal e.modes
        (introScreens kind e.modes e.config.titleScreen) count).OpenedBy
          (.of kind e.modes intent) := by
    refine ⟨rfl, rfl, ?_⟩
    rw [h]
    exact BoundedText.holds_empty
  cases intent with
  | none => exact hbare (by cases kind <;> rfl)
  | some text =>
    have htold (h : kind.isSigning = true) : (Opening.of kind e.modes (some text)).subject =
        if text = "" then "" else .ofList (Text.abbreviate keyCapacity ("to " ++ text).toList) := by
      cases kind <;> first | rfl | cases h
    simp only [newSession]
    split
    · rename_i hgiven
      simp only [Bool.and_eq_true, bne_iff_ne, ne_eq] at hgiven
      refine ⟨rfl, rfl, ?_⟩
      rw [htold hgiven.1, if_neg hgiven.2, String.toList_ofList]
      exact BoundedText.holds_empty.setIntent_abbreviate (by decide) text
    · rename_i hgiven
      refine hbare ?_
      cases hsigning : kind.isSigning with
      | true =>
        rw [htold hsigning, if_pos]
        simpa [hsigning] using hgiven
      | false => cases kind <;> first | rfl | cases hsigning

theorem Begins.openedBy (h : Begins C e kind confirmation intent out e')
    (hs : e'.session = some s) : s.OpenedBy (.of kind e.modes intent) := by
  cases h with
  | @begin count =>
    cases hs
    exact (newSession_openedBy e kind confirmation intent count).continues ⟨_, _, rfl⟩

/-- While no review is on, an action that opens none leaves none. -/
theorem session_eq_none_of_idle (he : Sound C t.machine) (hstate : t.machine.state = .idle)
    (hopening : action.opening? t.machine.modes = none) :
    (action.perform p).Ensures t fun _ t' => t'.machine.session = none := by
  have hnone := he.session_eq_none (Or.inl hstate)
  have hposition : t.machine.position = .idle := by rw [position, hstate]
  have hrefused {cause : Error} (h : Refused p t.machine t.content action cause) :
      (action.perform p).Ensures t fun _ t' => t'.machine.session = none :=
    (refused_ensures h he rfl rfl).mono fun r t' hr => by rw [hr.2, hnone]
  have hother (st : State) (hst : st ≠ .idle) : t.machine.state ≠ st := by
    rw [hstate]
    exact hst.symm
  cases action with
  | begin => cases hopening
  | take event =>
    cases event with
    | begin => cases hopening
    | none =>
      simpa [Action.perform, Loader.perform, Loader.update, hstate] using hnone
    | _ => exact hrefused (.unexpected (by rw [hstate]; rfl))
  | press button =>
    have hevent : (button.event t.machine.position).unexpected t.machine.state = true := by
      rw [hposition, hstate]
      cases button <;> rfl
    simp only [Action.perform, Loader.perform, Operation.ensures_map, Button.pressWith,
      Operation.ensures_bind, Operation.ensures_machine, Operation.ensures_attempt]
    refine Operation.Ensures.mono (update_unexpected hevent) fun r t' hr => ?_
    obtain ⟨rfl, ht'⟩ := hr
    simp only [Operation.ensures_bind, Operation.ensures_machine, Operation.ensures_pure, ht',
      hnone]
  | advance => exact hrefused (.advance hnone)
  | retreat => exact hrefused (.retreat hnone)
  | skipToApprove => exact hrefused (.skip fun s hs => by simp [hnone] at hs)
  | approve => exact hrefused (.approve (by rw [isAtApprove, hposition]; rfl))
  | reject => exact hrefused (.reject hnone)
  | enterInspect => exact hrefused (.enter fun index page h => by cases hposition.symm.trans h)
  | canDescend =>
    refine (perform_canDescend_ensures p he).mono fun r t' hr => ?_
    obtain ⟨holds, -, ht'⟩ := hr
    rw [ht', hnone]
  | descend => exact hrefused (.descend fun s i child hi => by cases hnone.symm.trans hi.session)
  | exitLevel => exact hrefused (.exitLevel (hother _ (by decide)))
  | exitToRoot => exact hrefused (.exitToRoot (hother _ (by decide)))
  | acknowledge => exact hrefused (.acknowledge (hother _ (by decide)))
  | showError => exact (perform_errorText rfl).2 rfl
  | showBlindSignError => exact (perform_errorText rfl).2 rfl
  | showCustomError => exact (perform_errorText rfl).2 rfl
  | setModes modes =>
    simpa [Action.perform, Loader.perform, setModes] using hnone

theorem begin_openedBy (hp : p.Honours C) (he : Sound C t.machine)
    (hnone : t.machine.session = none) :
    ((Action.begin kind confirmation intent).perform p).Ensures t fun _ t' =>
      ∀ s, t'.machine.session = some s → s.OpenedBy (.of kind t.machine.modes intent) := by
  simp only [Action.perform, Loader.perform, Operation.ensures_map]
  refine Operation.Ensures.mono (begin_ensures hp he) fun r t' hr s hs => ?_
  cases r with
  | ok out => exact hr.openedBy hs
  | error cause =>
    rcases hr with ⟨hsame, -⟩ | ⟨⟨g, -, haborted⟩, -⟩
    · rw [hsame, hnone] at hs
      cases hs
    · rw [haborted] at hs
      cases hs

/-- A review that an action has brought about was opened by that action. -/
theorem openedBy_of_perform (hp : p.Honours C) (he : Sound C t.machine)
    (hact : action.perform p t = .ok (reply, t')) (hnone : t.machine.session = none)
    (hs : t'.machine.session = some s) :
    ∃ o, action.opening? t.machine.modes = some o ∧ s.OpenedBy o := by
  obtain ⟨-, _, _, _, _, hbegins⟩ :=
    begins_of_acts ((perform_ensures hp he action).of_eq hact) hnone hs
  have hidle := hbegins.idle
  cases hopening : action.opening? t.machine.modes with
  | none => cases hs.symm.trans ((session_eq_none_of_idle (p := p) he hidle hopening).of_eq hact)
  | some o =>
    refine ⟨o, rfl, ?_⟩
    cases action with
    | begin kind confirmation intent =>
      cases hopening
      exact (begin_openedBy hp he hnone).of_eq hact s hs
    | take event =>
      cases event with
      | begin kind confirmation =>
        cases hopening
        have hbegin : ((Action.begin kind confirmation none).perform p).Ensures
            { t with journal := .event (.begin kind confirmation) t.machine.state :: t.journal }
            fun _ t' => ∀ s, t'.machine.session = some s →
              s.OpenedBy (.of kind t.machine.modes none) :=
          begin_openedBy (t := { t with journal := _ }) hp he hnone
        exact ((take_ensures (by rw [hidle]; rfl) rfl).2 hbegin).of_eq hact s hs
      | _ => cases hopening
    | _ => cases hopening

theorem Sound.exists_openedBy (he : Sound C e) (hs : e.session = some s) : ∃ o, s.OpenedBy o :=
  (he.runs hs).1.fits.exists_openedBy

theorem openingOf_cons (h : x.before.session = none) :
    openingOf (x :: steps) = x.action.opening? x.before.modes := by
  rw [openingOf, sinceBegin, if_neg (by simp [h])]
  rfl

theorem openingOf_cons_of_some (hs : x.before.session = some s) (h : openingOf steps = some o) :
    openingOf (x :: steps) = some o := by
  rw [openingOf, sinceBegin, if_pos (by simp [hs]), List.getLast?_cons]
  cases hlast : (sinceBegin steps).getLast? with
  | none => simp [openingOf, hlast] at h
  | some first => simpa [openingOf, hlast] using h

/-- The review at hand in a run was opened by its first step, in front of any provider. -/
theorem Run.openedBy (h : Run p config steps t) (hp : p.Honours C)
    (hstart : C.field (Engine.start config).field) (hs : t.machine.session = some s) :
    ∃ o, openingOf steps = some o ∧ s.OpenedBy o := by
  -- An action on a review keeps its opening; where there was none before, it is the beginning.
  induction h generalizing s with
  | start => cases hs
  | @act steps t t' reply action hrun hact ih =>
    have he := hrun.sound hp hstart
    cases hbefore : t.machine.session with
    | none =>
      obtain ⟨o, hopening, ho⟩ := openedBy_of_perform hp he hact hbefore hs
      exact ⟨o, by rw [openingOf_cons hbefore]; exact hopening, ho⟩
    | some s₀ =>
      obtain ⟨o, hopening, ho⟩ := ih hbefore
      refine ⟨o, openingOf_cons_of_some (s := s₀) hbefore hopening, ?_⟩
      rcases continues_of_acts he (hrun.acts hp hstart hact) hbefore with hnone | ⟨s', hs', hcont⟩
      · cases hs.symm.trans hnone
      · cases hs.symm.trans hs'
        exact ho.continues hcont
  | meddle _ _ ih => exact ih hs

end Engine
end WalletReview
