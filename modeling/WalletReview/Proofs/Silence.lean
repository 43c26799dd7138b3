import WalletReview.Engine.Action
import WalletReview.Proofs.Ensures

/-! What a provider hears of a review while it lasts: questions, and never an end. Operations that
only load and move are silent in this sense. If one of them brings up the error screen, then because
loading failed for the very cause for which it is refused, and this is what it noted last. -/
namespace WalletReview

variable {σ α β : Type}

namespace Recorded

def conclusions (r : Recorded σ) : List Outcome :=
  r.exchanges.filterMap fun x =>
    match x.query with
    | .conclude outcome => some outcome
    | _ => none

end Recorded

/-- A question to the provider that does not tell it of an end. -/
def Silently (question : Recorded σ → α × Recorded σ) : Prop :=
  ∀ r, (question r).2.conclusions = r.conclusions

def SilentlyOn (question : Field → Recorded σ → Except Error α × Field × Recorded σ) : Prop :=
  ∀ f r, (question f r).2.2.conclusions = r.conclusions

section

variable (p : Provider σ) (path : List UInt8) (index page : UInt8)

theorem silently_itemCount : Silently p.recorded.itemCount := fun _ => rfl

theorem silently_childCount : Silently (p.recorded.childCount path) := fun _ => rfl

theorem silently_canInspect : Silently (p.recorded.canInspect path index) := fun _ => rfl

theorem silentlyOn_item : SilentlyOn (p.recorded.item index page) := fun _ _ => rfl

theorem silentlyOn_title : SilentlyOn p.recorded.title := fun _ _ => rfl

theorem silentlyOn_child : SilentlyOn (p.recorded.child path index page) := fun _ _ => rfl

end

namespace Operation

variable {μ : Type} {op : Operation μ σ α} {s t : Sitting μ σ}

theorem bind_eq_ok_iff {f : α → Operation μ σ β} {r : Except Error β} :
    (op >>= f) s = .ok (r, t) ↔
      (∃ a s', op s = .ok (.ok a, s') ∧ f a s' = .ok (r, t)) ∨
        ∃ cause, op s = .ok (.error cause, t) ∧ r = .error cause := by
  rw [bind_apply]
  cases hop : op s with
  | error fault => simp [bind, Except.bind]
  | ok result =>
    obtain ⟨reply, s'⟩ := result
    cases reply with
    | ok a =>
      constructor
      · intro h
        exact Or.inl ⟨a, s', rfl, h⟩
      · rintro (⟨a', s'', h, hf⟩ | ⟨cause, h, -⟩)
        · cases h
          exact hf
        · cases h
    | error cause =>
      constructor
      · intro h
        cases h
        exact Or.inr ⟨cause, rfl, rfl⟩
      · rintro (⟨a, s'', h, -⟩ | ⟨cause', h, rfl⟩)
        · cases h
        · cases h
          rfl

end Operation

namespace Engine

/-- From `t` to `t'` the provider has not learned of any end, and the journal has only grown. An
error screen that has come up meanwhile stands for the cause in `r`, which is the last thing noted;
it cannot come up unless `mayFail` allows it. -/
structure Undecided (mayFail : Bool) (t : Sitting Engine (Recorded σ)) (r : Except Error α)
    (t' : Sitting Engine (Recorded σ)) : Prop where
  conclusions : t'.content.conclusions = t.content.conclusions
  journal : t.journal <:+ t'.journal
  failed : t'.machine.state = .error → t.machine.state = .error ∨ mayFail = true ∧
    ∃ cause notes, r = .error cause ∧ t'.journal = .failed cause :: notes ∧ t.journal <:+ notes

/-- The provider does not learn of any end by the operation. -/
def Silent (mayFail : Bool) (op : Operation Engine (Recorded σ) α) : Prop :=
  ∀ t r t', op t = .ok (r, t') → Undecided mayFail t r t'

variable {mayFail : Bool} {op : Operation Engine (Recorded σ) α} {p : Provider σ}
  {t t' : Sitting Engine (Recorded σ)} {dir : Direction}

theorem Silent.of_step (r : Sitting Engine (Recorded σ) → Except Error α)
    (g : Sitting Engine (Recorded σ) → Sitting Engine (Recorded σ))
    (hop : ∀ t, op t = .ok (r t, g t))
    (hconclusions : ∀ t, (g t).content.conclusions = t.content.conclusions)
    (hjournal : ∀ t, t.journal <:+ (g t).journal)
    (hstate : ∀ t, (g t).machine.state = .error → t.machine.state = .error) :
    Silent mayFail op := by
  intro t r' t' h
  rw [hop] at h
  cases h
  exact ⟨hconclusions t, hjournal t, fun h => Or.inl (hstate t h)⟩

theorem silent_pure (a : α) : Silent mayFail (pure a : Operation Engine (Recorded σ) α) :=
  .of_step (fun _ => .ok a) id (fun _ => rfl) (fun _ => rfl) (fun _ => List.suffix_rfl) fun _ => id

theorem silent_throw (cause : Error) :
    Silent mayFail (throw cause : Operation Engine (Recorded σ) α) :=
  .of_step (fun _ => .error cause) id (fun _ => rfl) (fun _ => rfl) (fun _ => List.suffix_rfl)
    fun _ => id

theorem Silent.bind {f : α → Operation Engine (Recorded σ) β} (h : Silent mayFail op)
    (hf : ∀ a, Silent mayFail (f a)) : Silent mayFail (op >>= f) := by
  intro t r t' hr
  rcases Operation.bind_eq_ok_iff.1 hr with ⟨a, s, hop, hrest⟩ | ⟨cause, hop, rfl⟩
  · have hfirst := h t _ s hop
    have hsecond := hf a s r t' hrest
    refine ⟨hsecond.conclusions.trans hfirst.conclusions, hfirst.journal.trans hsecond.journal,
      fun herror => ?_⟩
    rcases hsecond.failed herror with hmid | ⟨hmay, cause, notes, hcause, hnotes, hsuffix⟩
    · -- The first operation has a result, so that it did not fail.
      rcases hfirst.failed hmid with hstart | ⟨-, cause, notes, hcause, -⟩
      · exact Or.inl hstart
      · cases hcause
    · exact Or.inr ⟨hmay, cause, notes, hcause, hnotes, hfirst.journal.trans hsuffix⟩
  · obtain ⟨hconclusions, hjournal, hfailed⟩ := h t _ t' hop
    refine ⟨hconclusions, hjournal, fun herror => (hfailed herror).imp id ?_⟩
    rintro ⟨hmay, cause', notes, hcause, hnotes⟩
    cases hcause
    exact ⟨hmay, cause, notes, rfl, hnotes⟩

theorem Silent.seq {next : Operation Engine (Recorded σ) β} (h : Silent mayFail op)
    (hnext : Silent mayFail next) : Silent mayFail (do let _ ← op; next) :=
  h.bind fun _ => hnext

theorem silent_loop {round : Operation Engine (Recorded σ) (Option α)}
    (h : Silent mayFail round) (hafter : Silent mayFail op) (rounds : Nat) :
    Silent mayFail (Operation.loop round op rounds) := by
  induction rounds with
  | zero => exact hafter
  | succ rounds ih =>
    apply h.bind
    rintro (_ | a)
    · exact ih
    · exact silent_pure a

theorem Silent.unless {cond : Prop} [Decidable cond] {cause : Error} (h : Silent mayFail op) :
    Silent mayFail (if cond then (do let _ : Unit ← throw cause; op) else op) := by
  split
  · exact (silent_throw cause).seq h
  · exact h

theorem silent_machine :
    Silent mayFail (Operation.machine : Operation Engine (Recorded σ) Engine) :=
  .of_step (fun t => .ok t.machine) id (fun _ => rfl) (fun _ => rfl) (fun _ => List.suffix_rfl)
    fun _ => id

theorem silent_modifyMachine {f : Engine → Engine}
    (hf : ∀ e, (f e).state = .error → e.state = .error) :
    Silent mayFail (Operation.modifyMachine f : Operation Engine (Recorded σ) Unit) :=
  .of_step (fun _ => .ok ()) (fun t => { t with machine := f t.machine }) (fun _ => rfl)
    (fun _ => rfl) (fun _ => List.suffix_rfl) fun t => hf t.machine

theorem silent_note (notice : Notice) :
    Silent mayFail (Operation.note notice : Operation Engine (Recorded σ) Unit) :=
  .of_step (fun _ => .ok ()) (fun t => { t with journal := notice :: t.journal }) (fun _ => rfl)
    (fun _ => rfl) (fun _ => List.suffix_cons ..) fun _ => id

theorem silent_settle (reply : Except Error α) :
    Silent mayFail (Operation.settle reply : Operation Engine (Recorded σ) α) := by
  cases reply with
  | ok a => exact silent_pure a
  | error cause => exact silent_throw cause

theorem silent_liftM (x : Checked α) :
    Silent mayFail (liftM x : Operation Engine (Recorded σ) α) := by
  cases x with
  | ok a => exact silent_pure a
  | error fault =>
    intro t r t' h
    cases h

theorem silent_ask {question : Recorded σ → α × Recorded σ} (h : Silently question) :
    Silent mayFail (Operation.ask question : Operation Engine (Recorded σ) α) :=
  .of_step (fun t => .ok (question t.content).1)
    (fun t => { t with content := (question t.content).2 }) (fun _ => rfl)
    (fun t => h t.content) (fun _ => List.suffix_rfl) fun _ => id

theorem Silent.attempt (h : Silent false op) : Silent mayFail op.attempt := by
  intro t r t' hr
  have hattempt : op.attempt t = (op t >>= fun x => .ok (.ok x.1, x.2)) := rfl
  rw [hattempt] at hr
  cases hop : op t with
  | error fault =>
    rw [hop] at hr
    cases hr
  | ok result =>
    obtain ⟨reply, s⟩ := result
    rw [hop] at hr
    cases hr
    obtain ⟨hconclusions, hjournal, hfailed⟩ := h t reply s hop
    refine ⟨hconclusions, hjournal, fun herror => (hfailed herror).imp id ?_⟩
    rintro ⟨hmay, -⟩
    cases hmay

/-! The parts that the operations of an engine are made of. -/

theorem silent_getSession :
    Silent mayFail (getSession : Operation Engine (Recorded σ) Session) := by
  apply silent_machine.bind
  intro e
  split
  · apply silent_pure
  · apply silent_throw

theorem silent_getInspection :
    Silent mayFail (getInspection : Operation Engine (Recorded σ) Inspection) := by
  apply silent_getSession.bind
  intro s
  split
  · apply silent_pure
  · apply silent_throw

theorem silent_setSession (s : Session) :
    Silent mayFail (setSession s : Operation Engine (Recorded σ) Unit) :=
  silent_modifyMachine fun _ => id

theorem silent_setInspection (i : Inspection) :
    Silent mayFail (setInspection i : Operation Engine (Recorded σ) Unit) :=
  silent_modifyMachine fun _ => id

theorem silent_setState {state : State} (h : state ≠ .error) :
    Silent mayFail (setState state : Operation Engine (Recorded σ) Unit) :=
  silent_modifyMachine fun _ herror => absurd herror h

theorem silent_modifyField (f : Field → Field) :
    Silent mayFail (modifyField f : Operation Engine (Recorded σ) Unit) :=
  silent_modifyMachine fun _ => id

theorem silent_setText (text : String × String) :
    Silent mayFail (setText text : Operation Engine (Recorded σ) Unit) :=
  silent_modifyField _

theorem silent_askField {question : Field → Recorded σ → Except Error α × Field × Recorded σ}
    (h : SilentlyOn question) : Silent mayFail (askField question) := by
  apply silent_machine.bind
  intro e
  have hask : Silent mayFail (Operation.askField (question e.field) :
      Operation Engine (Recorded σ) (Except Error α × Field)) := silent_ask fun r => h e.field r
  apply hask.bind
  intro answer
  exact (silent_modifyField _).seq (silent_settle _)

theorem silent_fail (cause : Error) :
    Silent true (fail cause : Operation Engine (Recorded σ) α) := by
  intro t r t' h
  cases h
  exact ⟨rfl, List.suffix_cons .., fun _ => Or.inr ⟨rfl, cause, t.journal, rfl, rfl,
    List.suffix_rfl⟩⟩

theorem silent_loading {body : Operation Engine (Recorded σ) Bool} (h : Silent false body) :
    Silent true (loading body) := by
  apply h.attempt.bind
  intro reply
  cases reply with
  | ok found => exact (silent_modifyField _).seq (silent_pure _)
  | error cause => apply silent_fail

/-! Loading the screens of a review. -/

theorem silent_loadProviderTitle (p : Provider σ) :
    Silent mayFail (loadProviderTitle p.recorded) := by
  apply (silent_askField (silentlyOn_title p)).attempt.bind
  intro reply
  split
  · apply silent_pure
  · exact (silent_modifyField _).seq (silent_pure _)
  · apply silent_throw

theorem silent_loadIntro (p : Provider σ) (s : Session) (screen : IntroScreen) :
    Silent mayFail (loadIntro p.recorded s screen) := by
  simp only [loadIntro]
  split
  · split
    · exact (silent_setText _).seq (silent_pure _)
    · split
      · apply (silent_loadProviderTitle p).bind
        intro found
        split
        · apply silent_pure
        · apply silent_setText
      · apply silent_setText
  · apply silent_setText

theorem silent_loadPage {cursor : Cursor} {pages : UInt8}
    {setCursor : Cursor → Operation Engine (Recorded σ) Unit}
    {query : UInt8 → Operation Engine (Recorded σ) UInt8}
    (hset : ∀ c, Silent mayFail (setCursor c)) (hquery : ∀ page, Silent mayFail (query page)) :
    Silent mayFail (loadPage cursor pages setCursor query) := by
  unfold loadPage
  generalize cursor.clamp pages = clamped
  obtain ⟨c, beyond⟩ := clamped
  apply (hset c).seq
  apply silent_machine.bind
  intro e
  cases beyond with
  | true =>
    apply (silent_modifyField _).seq
    apply (hquery _).bind
    intro last
    split
    · exact (silent_throw _).seq ((hset _).seq (silent_modifyField _))
    · exact (hset _).seq (silent_modifyField _)
  | false =>
    simp only [Bool.false_eq_true, ↓reduceIte]
    apply silent_modifyField

theorem silent_topRound (p : Provider σ) (dir : Direction) :
    Silent mayFail (topRound p.recorded dir) := by
  apply silent_getSession.bind
  intro s
  apply (silent_modifyField _).seq
  split
  · exact (silent_loadIntro p s _).seq ((silent_setSession _).seq (silent_pure _))
  · split
    · have hdecision : Silent mayFail (do
          setText (terminalText s (← Operation.machine).config)
          setSession { s with cursor := (s.cursor.clamp 1).1 }
          return some true : Operation Engine (Recorded σ) (Option Bool)) :=
        silent_machine.bind fun _ => (silent_setText _).seq
          ((silent_setSession _).seq (silent_pure _))
      split
      · exact (silent_setState (by decide)).seq hdecision
      · exact hdecision
    · apply (silent_liftM _).bind
      intro index
      apply (silent_askField (silentlyOn_item p index s.cursor.page)).bind
      intro pages
      split
      · apply (silent_note _).seq
        cases dir with
        | forward =>
          apply (silent_liftM _).bind
          intro item
          exact (silent_setSession _).seq (silent_pure _)
        | backward =>
          simp only
          split
          · exact (silent_setSession _).seq (silent_pure _)
          · apply silent_pure
      · have hpage : Silent mayFail (loadPage s.cursor pages
            (fun cursor => setSession { s with cursor })
            (fun page => askField (p.recorded.item index page))) :=
          silent_loadPage (fun _ => silent_setSession _)
            fun page => silent_askField (silentlyOn_item p index page)
        exact hpage.seq (silent_pure _)

theorem silent_load (p : Provider σ) (dir : Direction) : Silent true (load p.recorded dir) := by
  apply silent_loading
  apply silent_getSession.bind
  intro s
  exact silent_loop (silent_topRound p dir) (silent_throw _) _

theorem silent_childRound (p : Provider σ) (dir : Direction) :
    Silent mayFail (childRound p.recorded dir) := by
  apply silent_getInspection.bind
  intro i
  apply (silent_modifyField _).seq
  split
  · exact (silent_modifyField _).seq ((silent_setInspection _).seq (silent_pure _))
  · split
    · exact (silent_setInspection _).seq (silent_pure _)
    · rename_i child _
      apply (silent_liftM _).bind
      intro path
      apply (silent_askField (silentlyOn_child p path child i.cursor.page)).bind
      intro pages
      split
      · cases dir with
        | forward =>
          simp only
          split
          · apply (silent_liftM _).bind
            intro item
            exact (silent_setInspection _).seq (silent_pure _)
          · apply silent_pure
        | backward =>
          simp only
          split
          · exact (silent_setInspection _).seq (silent_pure _)
          · apply silent_pure
      · have hpage : Silent mayFail (loadPage i.cursor pages
            (fun cursor => setInspection { i with cursor })
            (fun page => askField (p.recorded.child path child page))) :=
          silent_loadPage (fun _ => silent_setInspection _)
            fun page => silent_askField (silentlyOn_child p path child page)
        exact hpage.seq (silent_pure _)

theorem silent_loadChild (p : Provider σ) (dir : Direction) :
    Silent true (loadChild p.recorded dir) := by
  apply silent_loading
  apply silent_getInspection.bind
  intro i
  apply (silent_liftM _).bind
  intro path
  apply (silent_ask (silently_childCount p path)).bind
  intro reply
  apply (silent_settle reply).bind
  intro count
  exact (silent_setInspection _).seq (silent_loop (silent_childRound p dir) (silent_throw _) _)

/-! Moving through a review and its items. -/

theorem silent_enterInspect (p : Provider σ) : Silent true (enterInspect p.recorded) := by
  apply silent_machine.bind
  intro e
  apply Silent.unless
  apply silent_getSession.bind
  intro s
  split
  · apply silent_throw
  · apply (silent_ask (silently_canInspect p [] _)).bind
    intro allowed
    split
    · exact (silent_note _).seq ((silent_setInspection _).seq ((silent_setState (by decide)).seq
        ((silent_loadChild p .forward).seq (silent_pure _))))
    · apply silent_throw

theorem silent_descendInto (p : Provider σ) (i : Inspection) (child : UInt8) :
    Silent mayFail (i.descend p.recorded child) := by
  apply Silent.unless
  apply (silent_liftM _).bind
  intro path
  apply (silent_ask (silently_canInspect p path child)).bind
  intro allowed
  split
  · apply silent_liftM
  · apply silent_throw

theorem silent_canDescend (p : Provider σ) : Silent mayFail (canDescend p.recorded) := by
  apply silent_machine.bind
  intro e
  split
  · apply silent_pure
  · split
    · apply silent_pure
    · unfold Inspection.canDescend
      split
      · apply silent_pure
      · apply (silent_liftM _).bind
        intro path
        exact silent_ask (silently_canInspect p path _)

theorem silent_descend (p : Provider σ) : Silent true (descend p.recorded) := by
  apply silent_machine.bind
  intro e
  apply Silent.unless
  apply silent_getInspection.bind
  intro i
  split
  · apply silent_throw
  · apply (silent_descendInto p i _).bind
    intro j
    apply (silent_setInspection _).seq
    apply (silent_liftM _).bind
    intro path
    exact (silent_note _).seq ((silent_loadChild p .forward).seq (silent_pure _))

theorem silent_exitToRoot (p : Provider σ) : Silent true (exitToRoot p.recorded) := by
  apply silent_machine.bind
  intro e
  apply Silent.unless
  apply silent_getSession.bind
  intro s
  apply silent_getInspection.bind
  intro i
  apply (silent_note _).seq
  apply (silent_liftM _).bind
  intro item
  exact (silent_setSession _).seq ((silent_setState (by decide)).seq
    ((silent_load p .forward).seq (silent_pure _)))

theorem silent_exitLevel (p : Provider σ) : Silent true (exitLevel p.recorded) := by
  apply silent_machine.bind
  intro e
  apply Silent.unless
  apply silent_getInspection.bind
  intro i
  apply (silent_liftM _).bind
  intro above
  split
  · apply silent_exitToRoot
  · apply (silent_setInspection _).seq
    apply (silent_liftM _).bind
    intro path
    exact (silent_note _).seq ((silent_loadChild p .forward).seq (silent_pure _))

theorem silent_inspectStep (p : Provider σ) (dir : Direction) :
    Silent true (inspectStep p.recorded dir) := by
  apply silent_getInspection.bind
  intro i
  apply (silent_liftM _).bind
  intro next
  split
  · apply silent_pure
  · apply (silent_setInspection _).seq
    apply (silent_loadChild p dir).bind
    intro found
    split
    · apply silent_pure
    · apply silent_getInspection.bind
      intro j
      exact (silent_setInspection _).seq ((silent_loadChild p .forward).seq (silent_pure _))

theorem silent_step (p : Provider σ) (dir : Direction) : Silent true (step p.recorded dir) := by
  apply silent_getSession.bind
  intro s
  apply (silent_liftM _).bind
  intro next
  split
  · apply silent_pure
  · apply (silent_setSession _).seq
    apply (silent_load p dir).bind
    intro found
    split
    · apply silent_pure
    · apply silent_getSession.bind
      intro s'
      exact (silent_setSession _).seq ((silent_load p .forward).seq (silent_pure _))

theorem silent_offerSkip (s : Session) :
    Silent mayFail (offerSkip s : Operation Engine (Recorded σ) Output) :=
  (silent_note _).seq ((silent_setState (by decide)).seq
    ((silent_modifyField _).seq (silent_pure _)))

theorem silent_advanceReview (p : Provider σ) : Silent true (advanceReview p.recorded) := by
  apply silent_getSession.bind
  intro s
  apply silent_machine.bind
  intro e
  apply (silent_liftM _).bind
  intro skips
  split
  · apply silent_offerSkip
  · split
    · exact (silent_setSession _).seq ((silent_load p .forward).seq (silent_pure _))
    · apply silent_step

theorem silent_advance (p : Provider σ) : Silent true (advance p.recorded) := by
  apply silent_machine.bind
  intro e
  split
  · apply silent_advanceReview
  · exact (silent_setState (by decide)).seq (silent_step p .forward)
  · apply silent_inspectStep
  · apply silent_pure
  · apply silent_throw
  · apply silent_throw

theorem silent_retreat (p : Provider σ) : Silent true (retreat p.recorded) := by
  apply silent_machine.bind
  intro e
  split
  · apply silent_step
  · exact (silent_setState (by decide)).seq ((silent_load p .forward).seq (silent_pure _))
  · apply silent_inspectStep
  · apply (silent_setState (by decide)).seq
    apply (silent_step p .backward).bind
    intro output
    apply silent_getSession.bind
    intro s
    split
    · exact (silent_setState (by decide)).seq (silent_pure _)
    · apply silent_pure
  · apply silent_throw
  · apply silent_throw

theorem silent_skipToApprove (p : Provider σ) : Silent true (skipToApprove p.recorded) := by
  apply silent_machine.bind
  intro e
  apply silent_getSession.bind
  intro s
  apply Silent.unless
  exact (silent_note _).seq ((silent_setSession _).seq ((silent_setState (by decide)).seq
    ((silent_load p .forward).seq (silent_pure _))))

theorem silent_begin (p : Provider σ) (kind : Kind) (confirmation : Bool)
    (intent : Option String) : Silent true (begin p.recorded kind confirmation intent) := by
  apply silent_machine.bind
  intro e
  apply (silent_note _).seq
  apply Silent.unless
  apply (silent_modifyField _).seq
  apply (silent_ask (silently_itemCount p)).bind
  intro reply
  split
  · apply silent_fail
  · simp only
    split
    · apply silent_fail
    · exact (silent_setSession _).seq ((silent_setState (by decide)).seq
        ((silent_load p .forward).seq (silent_pure _)))

end Engine
end WalletReview
