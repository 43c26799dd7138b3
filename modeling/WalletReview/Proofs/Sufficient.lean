import WalletReview.Engine.Action
import WalletReview.Proofs.Decisions
import WalletReview.Proofs.Loading

/-! Loading suffices whenever the engine loads. An engine is ready for it if its session, or its
inspection, is one of a review, wherever the cursor is. In front of any provider a loader that
serves in these sittings serves for every action of a run, so that no action makes another call. -/
namespace WalletReview

namespace Operation

variable {μ σ α β : Type} {op : Operation μ σ α} {t : Sitting μ σ}
  {post : Except Error α → Sitting μ σ → Prop}

theorem Ensures.done (h : op.Ensures t post) : op.Ensures t fun _ _ => True :=
  h.mono fun _ _ _ => trivial

theorem Ensures.returning {b : β} (h : op.Ensures t post) :
    op.Ensures t fun r t' => match r with
      | .ok _ => (pure b : Operation μ σ β).Ensures t' fun _ _ => True
      | .error _ => True := by
  refine h.mono fun r t' _ => ?_
  cases r with
  | ok a => exact ensures_pure.2 trivial
  | error cause => trivial

theorem ensures_unless {cond : Prop} [Decidable cond] {cause : Error}
    (h : ¬cond → op.Ensures t fun _ _ => True) :
    (if cond then (do let _ : Unit ← throw cause; op) else op).Ensures t fun _ _ => True := by
  by_cases hcond : cond
  · rw [if_pos hcond, ensures_bind, ensures_throw]
    trivial
  · rw [if_neg hcond]
    exact h hcond

end Operation

namespace Engine

variable {σ : Type} {config : Config} {p : Provider σ} {L : Loader σ} {t : Sitting Engine σ}
  {s : Session} {i : Inspection} {root : UInt8} {c : Cursor} {dir : Direction} {out : Output}

/-- A call for a screen to be loaded, with the sitting in which it is made. -/
inductive Call (σ : Type)
  | top (dir : Direction) (t : Sitting Engine σ)
  | child (dir : Direction) (t : Sitting Engine σ)

open Classical in
/-- Loading that has no result for one of its calls. -/
noncomputable def Loader.without (L : Loader σ) (call : Call σ) : Loader σ where
  top dir t := if call = .top dir t then .error .outOfRange else L.top dir t
  child dir t := if call = .child dir t then .error .outOfRange else L.child dir t

theorem Loader.without_top (L : Loader σ) (dir : Direction) (t : Sitting Engine σ) :
    (L.without (.top dir t)).top dir t = .error .outOfRange :=
  if_pos rfl

/-- The action makes the call: it comes to nothing if the call does. An engine carries out its
actions with `loader p`, whose calls are `load p` and `loadChild p`. -/
def Action.Makes (p : Provider σ) (action : Action) (t : Sitting Engine σ) (call : Call σ) : Prop :=
  ∀ result, ((loader p).without call).perform p action t ≠ .ok result

def ReadyTop (config : Config) (t : Sitting Engine σ) : Prop :=
  t.machine.config = config ∧ ∃ s, t.machine.session = some s ∧ s.Runs (.any config)

def ReadyChild (config : Config) (t : Sitting Engine σ) : Prop :=
  t.machine.config = config ∧ ∃ s i root, t.machine.session = some s ∧ s.inspection = some i ∧
    i.Fits config root

theorem orNothing_done {causes : List Error} {op : Operation Engine σ Output}
    (h : op.Ensures t fun _ _ => True) : (orNothing causes op).Ensures t fun _ _ => True := by
  simp only [orNothing, Operation.ensures_bind, Operation.ensures_attempt]
  refine h.mono fun r t' _ => ?_
  cases r with
  | ok out => exact Operation.ensures_pure.2 trivial
  | error cause =>
    simp only
    split
    · exact Operation.ensures_pure.2 trivial
    · exact Operation.ensures_throw.2 trivial

namespace Loader

/-- The loader is the one of the engine wherever that is ready. -/
structure Serves (L : Loader σ) (p : Provider σ) (config : Config) : Prop where
  top (dir : Direction) (t : Sitting Engine σ) : ReadyTop config t → L.top dir t = load p dir t
  child (dir : Direction) (t : Sitting Engine σ) : ReadyChild config t →
    L.child dir t = loadChild p dir t

namespace Serves

variable (hL : L.Serves p config)

include hL

/-- If no screen was found, the session is the one that was loaded but for its cursor. -/
theorem top_ensures (hs : s.Runs (.any config)) (hconfig : t.machine.config = config)
    (ht : t.machine.session = some { s with cursor := c }) (hc : s.Spans c) :
    (L.top dir).Ensures t fun r t' => r = .ok false → t'.machine.config = config ∧
      ∃ d, t'.machine.session = some { s with cursor := d } := by
  have hready : ReadyTop config t :=
    ⟨hconfig, _, ht, hs.fits.congr c s.inspection, hc.congr c s.inspection⟩
  rw [Operation.Ensures, hL.top dir t hready]
  refine (load_ensures (Contract.honours_any p config) hs.fits hconfig ht hc trivial).mono
    fun r t' hr hfalse => ?_
  subst hfalse
  obtain ⟨-, -, d, w, -, ht'⟩ := hr
  rw [ht']
  exact ⟨hconfig, d, rfl⟩

theorem child_ensures (hi : i.Fits config root) (hconfig : t.machine.config = config)
    (ht : t.machine.session = some { s with inspection := some i }) :
    (L.child dir).Ensures t fun r t' => r = .ok false → t'.machine.config = config ∧
      ∃ d, t'.machine.session = some { s with inspection := some { i with cursor := d } } := by
  have hready : ReadyChild config t := ⟨hconfig, _, i, root, ht, rfl, hi⟩
  rw [Operation.Ensures, hL.child dir t hready]
  refine (loadChild_ensures (Contract.honours_any p config) hi hconfig ht trivial).mono
    fun r t' hr hfalse => ?_
  subst hfalse
  obtain ⟨count, d, w, -, -, -, ht'⟩ := hr
  rw [ht']
  exact ⟨hconfig, d, rfl⟩

theorem step (hs : s.Runs (.any config)) (hconfig : t.machine.config = config)
    (ht : t.machine.session = some s) : (L.step dir).Ensures t fun _ _ => True := by
  have hroom : s.cursor.itemCount.toNat + s.terminal.trailing.toNat ≤ 255 := by
    rw [hs.spans.itemCount]
    exact hs.fits.room
  rw [Loader.step]
  simp only [Operation.ensures_bind, ensures_getSession ht, Operation.ensures_liftM]
  rcases Cursor.stepped_cases hroom dir with ⟨hnone, -⟩ | ⟨c, hsome, hstep⟩
  · rw [hnone]
    simp only [Except.ok.injEq, exists_eq_left', Operation.ensures_pure]
  · rw [hsome]
    simp only [Except.ok.injEq, exists_eq_left', Operation.ensures_bind, ensures_setSession]
    refine Operation.Ensures.mono (hL.top_ensures (s := s) hs hconfig rfl
      (hs.spans.of_steps (hstep.mono (TerminalMode.trailing_le _)))) fun r t' hr => ?_
    cases r with
    | error cause => trivial
    | ok found =>
      cases found with
      | true => exact Operation.ensures_pure.2 trivial
      | false =>
        obtain ⟨hconfig', d, hd⟩ := hr rfl
        simp only [Bool.false_eq_true, ↓reduceIte, Operation.ensures_bind, ensures_getSession hd,
          ensures_setSession]
        exact Operation.Ensures.returning
          (hL.top_ensures (s := s) (c := s.cursor) hs hconfig' rfl hs.spans)

theorem inspectStep {i : Inspection} (hi : i.Fits config root) (hconfig : t.machine.config = config)
    (ht : t.machine.session = some s) (hs : s.inspection = some i) :
    (L.inspectStep dir).Ensures t fun _ _ => True := by
  have hroom : i.cursor.itemCount.toNat + (0 : UInt8).toNat ≤ 255 :=
    Nat.le_of_lt_succ i.cursor.itemCount.toNat_lt
  rw [Loader.inspectStep]
  simp only [Operation.ensures_bind, ensures_getInspection ht hs, Operation.ensures_liftM]
  rcases Cursor.stepped_cases hroom dir with ⟨hnone, -⟩ | ⟨c, hsome, -⟩
  · rw [hnone]
    simp only [Except.ok.injEq, exists_eq_left', Operation.ensures_pure]
  · rw [hsome]
    simp only [Except.ok.injEq, exists_eq_left', Operation.ensures_bind, ensures_setInspection, ht,
      Option.map_some]
    refine Operation.Ensures.mono (hL.child_ensures (s := s) (hi.withCursor c) hconfig rfl)
      fun r t' hr => ?_
    cases r with
    | error cause => trivial
    | ok found =>
      cases found with
      | true => exact Operation.ensures_pure.2 trivial
      | false =>
        obtain ⟨hconfig', d, hd⟩ := hr rfl
        simp only [Bool.false_eq_true, ↓reduceIte, Operation.ensures_bind,
          ensures_getInspection hd rfl, ensures_setInspection, hd, Option.map_some]
        exact Operation.Ensures.returning (hL.child_ensures (s := s) hi hconfig' rfl)

variable (he : Sound (.any config) t.machine)

include he

theorem begin {kind : Kind} {confirmation : Bool} {intent : Option String} :
    (L.begin p kind confirmation intent).Ensures t fun _ _ => True := by
  rw [Loader.begin]
  simp only [Operation.ensures_bind, Operation.ensures_machine, Operation.ensures_note]
  refine Operation.ensures_unless fun _ => ?_
  simp only [Operation.ensures_bind, ensures_modifyField, Operation.ensures_ask]
  cases (p.itemCount t.content).1 with
  | error cause =>
    simp only [fail, showErrorScreen, Operation.ensures_bind, Operation.ensures_note,
      Operation.ensures_modifyMachine, Operation.ensures_throw]
  | ok count =>
    simp only
    split
    · simp only [fail, showErrorScreen, Operation.ensures_bind, Operation.ensures_note,
        Operation.ensures_modifyMachine, Operation.ensures_throw]
    · rename_i hroom
      have hfits : (t.machine.newSession kind confirmation intent count).Fits (.any config) :=
        newSession_fits he.config trivial hroom
      simp only [Operation.ensures_bind, ensures_setSession, ensures_setState]
      exact Operation.Ensures.returning (hL.top_ensures (s := t.machine.newSession kind confirmation
        intent count) ⟨hfits, newSession_spans hfits⟩ he.config rfl (newSession_spans hfits))

theorem advanceReview (hstate : t.machine.state = .review) :
    L.advanceReview.Ensures t fun _ _ => True := by
  obtain ⟨s, ht, -, -, hs, hshows⟩ := he.review hstate
  rw [Loader.advanceReview]
  simp only [Operation.ensures_bind, ensures_getSession ht, Operation.ensures_machine,
    Operation.ensures_liftM, he.config]
  rcases Session.skipEligible_eq hs hshows.page_lt config.skipMinItem with
    ⟨hskip, -⟩ | ⟨hskip, -⟩
  · simp only [hskip, Except.ok.injEq, exists_eq_left', ↓reduceIte, offerSkip,
      Operation.ensures_bind, Operation.ensures_note, ensures_setState, ensures_modifyField,
      Operation.ensures_pure]
  · simp only [hskip, Except.ok.injEq, exists_eq_left', Bool.false_eq_true, ↓reduceIte]
    split
    · rename_i hconfirm
      simp only [Bool.and_eq_true, decide_eq_true_eq, Bool.not_eq_true'] at hconfirm
      obtain ⟨⟨hded, hterminal⟩, hadvance⟩ := hconfirm
      have hstep := Session.steps_toConfirm hded hterminal hadvance
      simp only [Operation.ensures_bind, ensures_setSession]
      exact Operation.Ensures.returning
        (hL.top_ensures (s := s) hs he.config rfl (hs.spans.of_steps hstep))
    · exact hL.step hs he.config ht

theorem advance : L.advance.Ensures t fun _ _ => True := by
  rw [Loader.advance]
  simp only [Operation.ensures_bind, Operation.ensures_machine]
  cases hstate : t.machine.state with
  | idle => simp only [Operation.ensures_throw]
  | error => simp only [Operation.ensures_throw]
  | confirm => simp only [Operation.ensures_pure]
  | review => exact hL.advanceReview he hstate
  | interstitial =>
    obtain ⟨s, f, ht, -, -, hs, -⟩ := he.interstitial hstate
    simp only [Operation.ensures_bind, ensures_setState]
    exact hL.step hs he.config ht
  | inspect =>
    obtain ⟨s, i, root, f, hins, -, -, -, hstands⟩ := he.inspect hstate
    exact hL.inspectStep hstands.fits he.config hins.session hins.inspection

theorem retreat : L.retreat.Ensures t fun _ _ => True := by
  rw [Loader.retreat]
  simp only [Operation.ensures_bind, Operation.ensures_machine]
  cases hstate : t.machine.state with
  | idle => simp only [Operation.ensures_throw]
  | error => simp only [Operation.ensures_throw]
  | review =>
    obtain ⟨s, ht, -, -, hs, -⟩ := he.review hstate
    exact hL.step hs he.config ht
  | interstitial =>
    obtain ⟨s, f, ht, -, -, hs, -⟩ := he.interstitial hstate
    simp only [Operation.ensures_bind, ensures_setState]
    exact Operation.Ensures.returning
      (hL.top_ensures (s := s) (c := s.cursor) hs he.config ht hs.spans)
  | inspect =>
    obtain ⟨s, i, root, f, hins, -, -, -, hstands⟩ := he.inspect hstate
    exact hL.inspectStep hstands.fits he.config hins.session hins.inspection
  | confirm =>
    obtain ⟨s, ht, -, -, -, hs, -⟩ := he.confirm hstate
    simp only [Operation.ensures_bind, ensures_setState]
    refine Operation.Ensures.mono (hL.step (s := s) hs he.config ht) fun r t' _ => ?_
    cases r with
    | error cause => trivial
    | ok output =>
      cases hsession : t'.machine.session with
      | none => exact (ensures_getSession_none hsession).2 trivial
      | some s' =>
        refine (ensures_getSession hsession).2 ?_
        simp only
        split
        · simp only [Operation.ensures_bind, ensures_setState, Operation.ensures_pure]
        · simp only [Operation.ensures_pure]

theorem skipToApprove : L.skipToApprove.Ensures t fun _ _ => True := by
  rw [Loader.skipToApprove]
  simp only [Operation.ensures_bind, Operation.ensures_machine]
  cases ht : t.machine.session with
  | none => exact (ensures_getSession_none ht).2 trivial
  | some s =>
    obtain ⟨hs, -⟩ := he.runs ht
    rw [ensures_getSession ht]
    refine Operation.ensures_unless fun _ => ?_
    simp only [Operation.ensures_bind, Operation.ensures_note, ensures_setSession, ensures_setState,
      s.withCursor_atDecision]
    exact Operation.Ensures.returning (hL.top_ensures (s := s) (c := s.atDecision) hs he.config rfl
      hs.spans_atDecision)

theorem enterInspect : (L.enterInspect p).Ensures t fun _ _ => True := by
  rw [Loader.enterInspect]
  simp only [Operation.ensures_bind, Operation.ensures_machine]
  refine Operation.ensures_unless fun hstate => ?_
  obtain ⟨s, ht, -⟩ := he.review (Decidable.not_not.1 hstate)
  simp only [Operation.ensures_bind, ensures_getSession ht]
  cases s.itemIndex? with
  | none => simp only [Operation.ensures_throw]
  | some index =>
    simp only [Operation.ensures_bind, Operation.ensures_ask]
    split
    · simp only [Operation.ensures_bind, Operation.ensures_note, ensures_setInspection,
        ensures_setState, ht, Option.map_some, he.config]
      exact Operation.Ensures.returning
        (hL.child_ensures (s := s) (Inspection.fits_start index) rfl rfl)
    · simp only [Operation.ensures_throw]

theorem descend : (L.descend p).Ensures t fun _ _ => True := by
  rw [Loader.descend]
  simp only [Operation.ensures_bind, Operation.ensures_machine]
  refine Operation.ensures_unless fun hstate => ?_
  obtain ⟨s, i, root, f, hins, -, -, -, hstands⟩ := he.inspect (Decidable.not_not.1 hstate)
  simp only [Operation.ensures_bind, ensures_getInspection hins.session hins.inspection]
  cases hchild : i.childIndex with
  | none => simp only [Operation.ensures_throw]
  | some child =>
    simp only [Operation.ensures_bind, Inspection.descend]
    by_cases hdepth : maxDepth ≤ i.depth.toNat
    · simp only [if_pos hdepth, Operation.ensures_bind, Operation.ensures_throw]
    · obtain ⟨i', henter, hfits, -⟩ := hstands.fits.enter hchild (Nat.lt_of_not_le hdepth)
      simp only [if_neg hdepth, Operation.ensures_bind, Operation.ensures_liftM,
        hstands.fits.trace, Except.ok.injEq, exists_eq_left', Operation.ensures_ask]
      split
      · simp only [Operation.ensures_liftM, henter, Except.ok.injEq, exists_eq_left',
          ensures_setInspection, hfits.trace, Operation.ensures_note, hins.session,
          Option.map_some]
        exact Operation.Ensures.returning (hL.child_ensures (s := s) hfits he.config rfl)
      · simp only [Operation.ensures_throw]

theorem exitToRoot : L.exitToRoot.Ensures t fun _ _ => True := by
  rw [Loader.exitToRoot]
  simp only [Operation.ensures_bind, Operation.ensures_machine]
  refine Operation.ensures_unless fun hstate => ?_
  obtain ⟨s, i, root, f, hins, hs, -, hat, hstands⟩ := he.inspect (Decidable.not_not.1 hstate)
  have hadd : Checked.add8 s.leading i.root = .ok s.cursor.item := by
    rw [Checked.add8_eq_ok_iff, hs.fits.leading, hstands.fits.root, hat.1]
  have hleft : { s with inspection := none }.Runs (.any config) :=
    ⟨hs.fits.congr s.cursor none, hs.spans.congr s.cursor none⟩
  simp only [Operation.ensures_bind, ensures_getSession hins.session,
    ensures_getInspection hins.session hins.inspection, Operation.ensures_note,
    Operation.ensures_liftM, hadd, Except.ok.injEq, exists_eq_left', ensures_setSession,
    ensures_setState]
  exact Operation.Ensures.returning (hL.top_ensures (s := { s with inspection := none })
    (c := { s.cursor with page := 0 }) hleft he.config rfl ⟨hs.spans.itemCount, hs.spans.item_lt⟩)

theorem exitLevel : L.exitLevel.Ensures t fun _ _ => True := by
  rw [Loader.exitLevel]
  simp only [Operation.ensures_bind, Operation.ensures_machine]
  refine Operation.ensures_unless fun hstate => ?_
  obtain ⟨s, i, root, f, hins, -, -, -, hstands⟩ := he.inspect (Decidable.not_not.1 hstate)
  simp only [Operation.ensures_bind, ensures_getInspection hins.session hins.inspection,
    Operation.ensures_liftM]
  rcases hstands.fits.ascend with ⟨hascend, -⟩ | ⟨i', hascend, hfits, -⟩
  · simp only [hascend, Except.ok.injEq, exists_eq_left']
    exact hL.exitToRoot he
  · simp only [hascend, Except.ok.injEq, exists_eq_left', Operation.ensures_bind,
      ensures_setInspection, Operation.ensures_liftM, hfits.trace, Operation.ensures_note,
      hins.session, Option.map_some]
    exact Operation.Ensures.returning (hL.child_ensures (s := s) hfits he.config rfl)

theorem select : (L.select p).Ensures t fun _ _ => True := by
  rw [Loader.select, Operation.ensures_bind]
  refine Operation.ensures_machine.2 ?_
  cases hpos : t.machine.position with
  | intro screen =>
    cases screen with
    | shortcut =>
      simp only [hpos]
      exact hL.skipToApprove he
    | _ => simp only [hpos, Operation.ensures_pure]
  | interstitial =>
    simp only [hpos]
    exact hL.skipToApprove he
  | approve =>
    simp only [hpos]
    exact (approve_ensures p t (C := .any config)).done
  | reject =>
    simp only [hpos]
    exact (reject_ensures p he).done
  | item =>
    simp only [hpos]
    exact orNothing_done (hL.enterInspect he)
  | goToRoot =>
    simp only [hpos]
    exact hL.exitToRoot he
  | back =>
    simp only [hpos]
    exact hL.exitLevel he
  | child =>
    simp only [hpos]
    exact orNothing_done (hL.descend he)
  | idle => simp only [hpos, Operation.ensures_pure]
  | error => simp only [hpos, Operation.ensures_pure]

theorem update (event : Event) : (L.update p event).Ensures t fun _ _ => True := by
  simp only [Loader.update, Operation.ensures_bind, Operation.ensures_machine,
    Operation.ensures_note]
  split
  · exact Operation.ensures_pure.2 trivial
  · apply hL.begin
    exact he
  · exact (acknowledge_ensures p _ (C := .any config)).done
  · exact (acknowledge_ensures p _ (C := .any config)).done
  · exact Operation.ensures_throw.2 trivial
  · exact Operation.ensures_throw.2 trivial
  · exact Operation.ensures_throw.2 trivial
  · exact Operation.ensures_throw.2 trivial
  · exact hL.advance he
  · exact hL.retreat he
  · exact hL.select he
  · exact (approve_ensures p _ (C := .any config)).done
  · exact Operation.Ensures.done (reject_ensures p he)
  · exact hL.skipToApprove he
  · exact hL.exitToRoot he
  · exact hL.exitLevel he
  · exact Operation.ensures_throw.2 trivial

theorem press (button : Button) : (button.pressWith L p).Ensures t fun _ _ => True := by
  simp only [Button.pressWith, Operation.ensures_bind, Operation.ensures_machine,
    Operation.ensures_attempt]
  refine (hL.update he (button.event t.machine.position)).mono fun r t' _ => ?_
  cases r with
  | error cause =>
    simp only [Operation.ensures_bind, Operation.ensures_machine, Operation.ensures_pure]
  | ok out => cases out <;> exact Operation.ensures_pure.2 trivial

/-- A loader that serves lets every action come to a result. -/
theorem perform (action : Action) : (L.perform p action).Ensures t fun _ _ => True := by
  have hreply {α : Type} {f : α → Reply} {op : Operation Engine σ α}
      (h : op.Ensures t fun _ _ => True) : (f <$> op).Ensures t fun _ _ => True :=
    Operation.ensures_map.2 h.done
  have hsame (h : L.perform p action = action.perform p) :
      (L.perform p action).Ensures t fun _ _ => True := by
    rw [h]
    exact (perform_ensures (Contract.honours_any p config) he action).done
  cases action with
  | begin => exact hreply (hL.begin he)
  | take event => exact hreply (hL.update he event)
  | press button => exact hreply (hL.press he button)
  | advance => exact hreply (hL.advance he)
  | retreat => exact hreply (hL.retreat he)
  | skipToApprove => exact hreply (hL.skipToApprove he)
  | enterInspect => exact hreply (hL.enterInspect he)
  | descend => exact hreply (hL.descend he)
  | exitLevel => exact hreply (hL.exitLevel he)
  | exitToRoot => exact hreply (hL.exitToRoot he)
  | _ => exact hsame rfl

end Serves
end Loader

def Call.Ready (config : Config) : Call σ → Prop
  | .top _ t => ReadyTop config t
  | .child _ t => ReadyChild config t

theorem Loader.serves_without {call : Call σ} (h : ¬call.Ready config) :
    ((loader p).without call).Serves p config where
  top dir t ht := if_neg (by rintro rfl; exact h ht)
  child dir t ht := if_neg (by rintro rfl; exact h ht)

/-- An action makes no call that the engine is not ready for: it comes to a result without it. -/
theorem ready_of_makes (he : Sound (.any config) t.machine) {action : Action} {call : Call σ}
    (h : action.Makes p t call) : call.Ready config := by
  by_contra hready
  obtain ⟨r, t', hr, -⟩ := (Loader.serves_without hready).perform he action
  exact h (r, t') hr

/-- Loading suffices for a call. -/
def Call.Suffices (p : Provider σ) : Call (Recorded σ) → Prop
  | .top dir t => TopSuffices p dir t
  | .child dir t => ChildSuffices p dir t

theorem Call.Ready.suffices {call : Call (Recorded σ)} (h : call.Ready config) :
    call.Suffices p := by
  cases call with
  | top dir t =>
    obtain ⟨-, s, ht, hs⟩ := h
    exact topSuffices hs ht
  | child dir t =>
    obtain ⟨-, s, i, root, ht, hi, hfits⟩ := h
    exact childSuffices (s := s) hfits (by rw [ht, ← hi])

/-- However the provider answers, every call for a screen to be loaded that an action makes after a
run suffices. -/
theorem suffices_of_run {steps : List Step} {t : Sitting Engine (Recorded σ)}
    (h : RecordedRun p config steps t) {action : Action} {call : Call (Recorded σ)}
    (hmakes : action.Makes p.recorded t call) : call.Suffices p :=
  (ready_of_makes (h.run.sound (Contract.honours_any p.recorded config) trivial) hmakes).suffices

theorem suffices_of_run_begin : ∃ steps t action call,
    RecordedRun Fixture.provider .stax steps t ∧
      Action.Makes Fixture.provider.recorded action t call ∧
        call.Suffices Fixture.provider := by
  have hrun : RecordedRun Fixture.provider .stax [] ⟨.start .stax, ⟨.ofPages [0, 0], []⟩, []⟩ :=
    .start _
  obtain ⟨t, next, hbegin⟩ : ∃ t next, ∀ L : Loader (Recorded Fixture),
      L.begin Fixture.provider.recorded .transaction false none
        ⟨.start .stax, ⟨.ofPages [0, 0], []⟩, []⟩ = L.top .forward t >>= next :=
    ⟨_, _, fun L => rfl⟩
  have hmakes : Action.Makes Fixture.provider.recorded (.begin .transaction false none)
      ⟨.start .stax, ⟨.ofPages [0, 0], []⟩, []⟩ (.top .forward t) := by
    rintro ⟨r, t'⟩ hr
    have hresult : (Loader.perform _ Fixture.provider.recorded
        (.begin .transaction false none)).Ensures _ fun _ _ => True := ⟨r, t', hr, trivial⟩
    obtain ⟨r, t', hr, -⟩ := Operation.ensures_map.1 hresult
    rw [hbegin, Loader.without_top] at hr
    cases hr
  exact ⟨_, _, _, _, hrun, hmakes, suffices_of_run hrun hmakes⟩

end Engine
end WalletReview
