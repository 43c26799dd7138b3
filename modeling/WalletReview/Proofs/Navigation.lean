import WalletReview.Proofs.Excursion
import WalletReview.Engine.Navigate

/-! What moving through the list of a review does: each operation is refused, has the review
aborted, or goes to a screen that follows from where it was. -/
namespace WalletReview

open Engine (Direction)

variable {σ : Type} {config : Config} {C : Contract config}

theorem TerminalMode.trailing_eq {terminal : TerminalMode} (h : terminal ≠ .dedicated) :
    terminal.trailing.toNat = terminal.decisions := by
  cases terminal with
  | items => rfl
  | approveOnly => rfl
  | dedicated => exact absurd rfl h

theorem TerminalMode.trailing_le (terminal : TerminalMode) :
    terminal.trailing.toNat ≤ terminal.decisions := by
  cases terminal <;> decide

namespace Session

variable {s : Session} {c d : Cursor} {f : Field} {dir : Direction}

theorem Spans.of_steps (h : s.Spans c) (hstep : c.Steps s.terminal.decisions dir d) :
    s.Spans d where
  itemCount := by rw [hstep.itemCount]; exact h.itemCount
  item_lt := by
    have := h.item_lt
    rw [hstep.itemCount]
    cases hstep with
    | page => exact this
    | item _ _ hlt => exact hlt
    | pageBack => exact this
    | itemBack _ hitem => simp only; omega

/-- Going on from here is to offer skipping: from the last page of an item, from item `skipMin` on,
unless no item follows. -/
structure OffersSkip (s : Session) (skipMin index : UInt8) : Prop where
  confirmation : s.confirmation = true
  signing : s.kind.isSigning = true
  atItem : s.AtItem s.cursor index
  last : s.cursor.pageCount.toNat ≤ s.cursor.page.toNat + 1
  le : skipMin ≤ index
  next : index.toNat + 1 < s.itemCount.toNat

theorem skipEligible_eq (hs : s.Runs C) (hpage : s.cursor.page < s.cursor.pageCount)
    (skipMin : UInt8) :
    s.skipEligible skipMin = .ok true ∧ (∃ index, s.OffersSkip skipMin index) ∨
      s.skipEligible skipMin = .ok false ∧ ∀ index, ¬s.OffersSkip skipMin index := by
  unfold skipEligible
  by_cases hkind : s.confirmation = true ∧ s.kind.isSigning = true
  · simp only [hkind.1, hkind.2, Bool.not_true, Bool.or_self, Bool.false_eq_true, ↓reduceIte]
    cases hindex : s.itemIndex? with
    | none =>
      refine Or.inr ⟨rfl, fun index h => ?_⟩
      have h1 := hs.itemIndex?_eq_some_iff.2 h.atItem
      simp [hindex] at h1
    | some index =>
      have hat := hs.itemIndex?_eq_some_iff.1 hindex
      have huniq (index' : UInt8) (h : s.OffersSkip skipMin index') : index' = index := by
        have h1 := hs.itemIndex?_eq_some_iff.2 h.atItem
        simpa [hindex] using h1.symm
      simp only [Cursor.isLastPage_eq hpage, Checked.ok_bind]
      by_cases hlast : s.cursor.pageCount.toNat ≤ s.cursor.page.toNat + 1
      · by_cases hnext : skipMin ≤ index ∧ index.toNat + 1 < s.itemCount.toNat
        · refine Or.inl ⟨?_, index, hkind.1, hkind.2, hat, hlast, hnext.1, hnext.2⟩
          simp [hlast, hnext.1, hnext.2]
          rfl
        · refine Or.inr ⟨?_, fun index' h => ?_⟩
          · have hdecide :
                (decide (skipMin ≤ index) && decide (index.toNat + 1 < s.itemCount.toNat)) =
                  false := by
              simpa using hnext
            simp only [hlast, decide_true, ↓reduceIte, hdecide]
            rfl
          · cases huniq index' h
            exact hnext ⟨h.le, h.next⟩
      · refine Or.inr ⟨?_, fun index' h => hlast h.last⟩
        simp only [hlast, decide_false, Bool.false_eq_true, ↓reduceIte]
        rfl
  · refine Or.inr ⟨?_, fun index h => hkind ⟨h.confirmation, h.signing⟩⟩
    have hor : (!s.confirmation || !s.kind.isSigning) = true := by
      cases hc : s.confirmation with
      | false => rfl
      | true => simpa [hc] using hkind
    rw [hor]
    rfl

theorem OffersSkip.steps {skipMin index : UInt8} (h : s.OffersSkip skipMin index) (hs : s.Runs C)
    {extra : Nat} : ∃ d, s.cursor.Steps extra .forward d := by
  have hcount := hs.spans.itemCount
  have hlt := s.cursor.itemCount.toNat_lt
  have hitem := h.atItem.1
  have hnext := h.next
  obtain ⟨item, -, hsucc⟩ := Checked.add8_one (a := s.cursor.item) (by omega)
  exact ⟨_, .item h.last hsucc (by omega)⟩

theorem Runs.offersSkip (hs : s.Runs C) (hshows : s.Shows C f) {skipMin : UInt8}
    (h : s.skipEligible skipMin = .ok true) : ∃ index, s.OffersSkip skipMin index := by
  rcases skipEligible_eq hs hshows.page_lt skipMin with ⟨-, hoffers⟩ | ⟨hfalse, -⟩
  · exact hoffers
  · cases h.symm.trans hfalse

theorem steps_toConfirm (hded : s.terminal = .dedicated)
    (hterminal : s.isTerminal = false) (hadvance : s.cursor.canAdvance 0 = false) :
    s.cursor.Steps s.terminal.decisions .forward s.toConfirm.cursor := by
  simp only [isTerminal, decide_eq_false_iff_not, UInt8.le_iff_toNat_le] at hterminal
  simp only [Cursor.canAdvance, Cursor.hasNextPage, Cursor.hasNextItem, Bool.or_eq_false_iff,
    decide_eq_false_iff_not, UInt8.reduceToNat] at hadvance
  rw [hded]
  exact .item (by omega) (by omega) (Nat.lt_succ_self _)

theorem Shows.cursor_eq (h : s.Shows C f) (hs : s.Runs C) (ht : s.isTerminal = true) :
    s.cursor = ⟨s.cursor.item, s.cursor.itemCount, 0, 1⟩ := by
  have hle : s.intro.length + s.itemCount.toNat ≤ s.cursor.item.toNat :=
    hs.spans.isTerminal_iff.1 ht
  obtain ⟨c, w, hrest, -⟩ := h
  have hitem := hrest.item_eq
  generalize s.cursor = d at hrest hitem hle
  cases hrest with
  | intro => rfl
  | decision => rfl
  | item hat =>
    have h1 := hat.1
    have h2 := hat.2
    rw [← hitem] at h1
    omega

theorem Shows.not_steps (h : s.Shows C f) (hs : s.Runs C) (hded : s.terminal = .dedicated)
    (ht : s.isTerminal = true) : ¬s.cursor.Steps s.terminal.decisions .forward d := by
  have hcursor := h.cursor_eq hs ht
  have hle : s.cursor.itemCount.toNat ≤ s.cursor.item.toNat := by
    simpa [isTerminal, UInt8.le_iff_toNat_le] using ht
  rw [hded]
  intro hd
  generalize s.cursor = c at hcursor hle hd
  cases hd with
  | page hnext hlt =>
    rw [hcursor] at hnext hlt
    rw [UInt8.lt_iff_toNat_lt] at hlt
    simp only [UInt8.reduceToNat] at hnext hlt
    omega
  | item _ hnext hlt =>
    simp only [TerminalMode.decisions] at hlt
    omega

def atDecision (s : Session) : Cursor :=
  (if s.terminal = .dedicated then s.toConfirm else s.toApprove).cursor

theorem withCursor_atDecision (s : Session) :
    (if s.terminal = .dedicated then s.toConfirm else s.toApprove) =
      { s with cursor := s.atDecision } := by
  unfold atDecision
  split <;> rfl

theorem Runs.atDecision_item (hs : s.Runs C) :
    s.atDecision.item.toNat = s.intro.length + s.itemCount.toNat := by
  have hroom := hs.fits.room
  have hleading := hs.fits.leading
  unfold atDecision
  split
  · exact hs.spans.itemCount
  · simp only [toApprove, approveIndex, saturate8_toNat]
    omega

theorem atDecision_itemCount (s : Session) : s.atDecision.itemCount = s.cursor.itemCount := by
  unfold atDecision
  split <;> rfl

theorem Runs.spans_atDecision (hs : s.Runs C) : s.Spans s.atDecision := by
  refine hs.spans.of_item_le s.atDecision_itemCount (Nat.le_of_eq ?_)
  rw [hs.atDecision_item, hs.spans.itemCount]

end Session

namespace Engine

inductive Stepped (C : Contract config) (e : Engine) (s : Session) (extra : Nat) :
    Direction → Output → Engine → Prop
  | stay {dir : Direction} : (∀ c, ¬s.cursor.Steps extra dir c) → Stepped C e s extra dir .none e
  | move {dir : Direction} {c d : Cursor} {w : Field} : s.cursor.Steps extra dir c →
    s.Lands C dir c d w → Stepped C e s extra dir .redraw
      ({ e with state := .review }.showing { s with cursor := d } w.filled)
  | miss {c d : Cursor} {w : Field} : s.cursor.Steps extra .backward c → s.Misses C c →
    s.Lands C .forward s.cursor d w → Stepped C e s extra .backward .none
      ({ e with state := .review }.showing { s with cursor := d } w.filled)

/-- Places that follow the last item matter only to a step that comes to one. -/
theorem Stepped.widen {extra extra' : Nat} {e e' : Engine} {s : Session} {dir : Direction}
    {out : Output} (h : Stepped C e s extra dir out e') (hle : extra ≤ extra')
    (hno : ∀ d, s.cursor.Steps extra' dir d → ∃ d, s.cursor.Steps extra dir d) :
    Stepped C e s extra' dir out e' := by
  cases h with
  | stay h =>
    refine .stay fun d hd => ?_
    obtain ⟨d, hd⟩ := hno d hd
    exact h d hd
  | move hstep hland => exact .move (hstep.mono hle) hland
  | miss hstep hmiss hland => exact .miss (hstep.mono hle) hmiss hland

/-- A step that starts on the confirm screen and ends there leaves the state as it was. -/
theorem Stepped.confirmed {extra : Nat} {e e' : Engine} {s : Session} {dir : Direction}
    {out : Output} (h : Stepped C { e with state := .review } s extra dir out e')
    (hstate : e.state = .confirm) (hs : e.session = some s) (hded : s.terminal = .dedicated)
    (ht : s.isTerminal = true) :
    ∃ s', e'.session = some s' ∧ Stepped C e s extra dir out
      (if s'.isTerminal then { e' with state := .confirm } else e') := by
  have hshowing (d : Cursor) (f : Field) (e₁ : Engine) :
      (if { s with cursor := d }.isTerminal then
        { e₁.showing { s with cursor := d } f with state := .confirm }
        else e₁.showing { s with cursor := d } f) = e₁.showing { s with cursor := d } f := by
    split
    · rename_i hd
      rw [showing_of_dedicated hd hded]
    · rfl
  cases h with
  | stay hno =>
    refine ⟨s, hs, ?_⟩
    rw [if_pos ht, ← hstate]
    exact .stay hno
  | @move _ _ d w hstep hland =>
    refine ⟨{ s with cursor := d }, rfl, ?_⟩
    rw [hshowing]
    exact .move hstep hland
  | @miss _ d w hstep hmiss hland =>
    refine ⟨{ s with cursor := d }, rfl, ?_⟩
    rw [hshowing]
    exact .miss hstep hmiss hland

/-- What the provider is to blame for if a review is aborted on the way on or back: outside of an
inspection, it has failed at a question for the list. -/
structure Blames (C : Contract config) (e : Engine) : Prop where
  endangered : e.Endangered C
  fails : e.state ≠ .inspect → C.Fails

inductive Goes (C : Contract config) (e : Engine) : Direction → Output → Engine → Prop
  | offer {s : Session} : e.state = .review → e.session = some s →
    s.skipEligible config.skipMinItem = .ok true → Goes C e .forward .redraw { e with
      state := .interstitial
      field := (e.field.clear.setKey "Press right to read").setValue "Double-press to skip" }
  | step {s : Session} {dir : Direction} {out : Output} {e' : Engine} : e.session = some s →
    e.state ≠ .inspect → (e.state = .interstitial → dir = .forward) →
    (dir = .forward → e.state = .review → s.skipEligible config.skipMinItem = .ok false) →
    Stepped C e s s.terminal.decisions dir out e' → Goes C e dir out e'
  | resume {s : Session} {d : Cursor} {w : Field} : e.state = .interstitial → e.session = some s →
    s.Lands C .forward s.cursor d w → Goes C e .backward .redraw
      ({ e with state := .review }.showing { s with cursor := d } w.filled)
  | visit {dir : Direction} {out : Output} {e' : Engine} : e.state = .inspect →
    Visits C e out e' → Goes C e dir out e'

variable {p : Provider σ} {s : Session} {t : Sitting Engine σ} {dir : Direction}

theorem step_ensures (hp : p.Honours C) (hs : s.Runs C) (hconfig : t.machine.config = config)
    (hstate : t.machine.state = .review) (ht : t.machine.session = some s)
    (hfield : C.field t.machine.field) :
    (step p dir).Ensures t fun r t' => match r with
      | .ok out => t.machine.Stepped C s s.terminal.trailing.toNat dir out t'.machine
      | .error _ => C.Aborted t.machine t'.machine ∧ C.Fails := by
  have hroom : s.cursor.itemCount.toNat + s.terminal.trailing.toNat ≤ 255 := by
    rw [hs.spans.itemCount]
    exact hs.fits.room
  have hreview : t.machine = { t.machine with state := .review } := by rw [← hstate]
  rw [step, Loader.step]
  simp only [Operation.ensures_bind, ensures_getSession ht, Operation.ensures_liftM]
  rcases Cursor.stepped_cases hroom dir with ⟨hnone, hno⟩ | ⟨c, hsome, hstep⟩
  · rw [hnone]
    simp only [Except.ok.injEq, exists_eq_left', Operation.ensures_pure]
    exact .stay hno
  · rw [hsome]
    simp only [Except.ok.injEq, exists_eq_left', Operation.ensures_bind, ensures_setSession]
    have hspans : s.Spans c := hs.spans.of_steps (hstep.mono (TerminalMode.trailing_le _))
    refine Operation.Ensures.mono
      (load_ensures (s := s) hp hs.fits hconfig rfl hspans hfield) fun r t' hr => ?_
    cases r with
    | error cause => exact hr
    | ok found =>
      cases found with
      | true =>
        obtain ⟨d, w, hland, ht'⟩ := hr
        simp only [↓reduceIte, Operation.ensures_pure, ht']
        have h1 := Stepped.move (e := t.machine) hstep hland
        rwa [← hreview] at h1
      | false =>
        -- No screen on the way: the cursor is put back, and the screen that was on is loaded again.
        obtain ⟨rfl, hmiss, d, w, hw, ht'⟩ := hr
        have hses : t'.machine.session = some { s with cursor := d } := by rw [ht']
        simp only [Bool.false_eq_true, ↓reduceIte, Operation.ensures_bind, ensures_getSession hses,
          ensures_setSession]
        refine Operation.Ensures.mono
          (load_forward (s := s) (c := s.cursor) hp hs.fits ?_ rfl hs.spans ?_) fun r t'' hr => ?_
        · rw [ht']
          exact hconfig
        · rw [ht']
          exact hw
        · cases r with
          | error cause =>
            rw [ht'] at hr
            exact ⟨hr.1.congr rfl rfl, hr.2⟩
          | ok found =>
            obtain ⟨-, d, w, hland, ht''⟩ := hr
            simp only [Operation.ensures_pure, ht'', ht']
            have h1 := Stepped.miss (e := t.machine) hstep hmiss hland
            rwa [← hreview] at h1

/-- From a screen of the list, moving on offers to skip, or takes one step. -/
theorem advanceReview_ensures (hp : p.Honours C) (he : Sound C t.machine)
    (hstate : t.machine.state = .review) :
    (advanceReview p).Ensures t fun r t' =>
      t.machine.Yields C (t.machine.session = none) (t.machine.Blames C)
        (t.machine.Goes C .forward) r t'.machine := by
  obtain ⟨s, ht, -, hopen, hs, hshows⟩ := he.review hstate
  have hnot : t.machine.state ≠ .inspect := by rw [hstate]; decide
  have hinter : t.machine.state ≠ .interstitial := by rw [hstate]; decide
  rw [advanceReview, Loader.advanceReview]
  simp only [Operation.ensures_bind, ensures_getSession ht, Operation.ensures_machine,
    Operation.ensures_liftM, he.config]
  rcases Session.skipEligible_eq hs hshows.page_lt config.skipMinItem with
    ⟨hskip, -⟩ | ⟨hskip, -⟩
  · simp only [hskip, Except.ok.injEq, exists_eq_left', ↓reduceIte, offerSkip,
      Operation.ensures_bind, Operation.ensures_note, ensures_setState, ensures_modifyField,
      Operation.ensures_pure]
    exact .offer hstate ht hskip
  · simp only [hskip, Except.ok.injEq, exists_eq_left', Bool.false_eq_true, ↓reduceIte]
    have hgoes {out : Output} {e' : Engine}
        (h : Stepped C t.machine s s.terminal.decisions .forward out e') :
        Goes C t.machine .forward out e' :=
      .step ht hnot (fun h => absurd h hinter) (fun _ _ => hskip) h
    split
    · rename_i hconfirm
      simp only [Bool.and_eq_true, decide_eq_true_eq, Bool.not_eq_true'] at hconfirm
      -- The confirm screen is one step behind the last place of the list.
      obtain ⟨⟨hded, hterminal⟩, hadvance⟩ := hconfirm
      have hstep := Session.steps_toConfirm hded hterminal hadvance
      simp only [Operation.ensures_bind, ensures_setSession]
      refine Operation.Ensures.mono (load_forward (s := s) hp hs.fits he.config rfl
        (hs.spans.of_steps hstep) he.field) fun r t' hr => ?_
      cases r with
      | error cause => exact Or.inr ⟨hr.1, .list ht hr.2, fun _ => hr.2⟩
      | ok found =>
        obtain ⟨-, d, w, hland, ht'⟩ := hr
        simp only [Operation.ensures_pure, ht']
        have h1 := hgoes (.move hstep hland)
        rwa [← hstate] at h1
    · rename_i hno
      refine (step_ensures hp hs he.config hstate ht he.field).mono fun r t' hr => ?_
      cases r with
      | error cause => exact Or.inr ⟨hr.1, .list ht hr.2, fun _ => hr.2⟩
      | ok out =>
        refine hgoes (hr.widen (TerminalMode.trailing_le _) fun d hd => ?_)
        by_cases hded : s.terminal = .dedicated
        · have hterminal : s.isTerminal = false := by simpa [hded] using hopen
          have hadvance : s.cursor.canAdvance s.terminal.trailing = true := by
            simpa [hded, hterminal, TerminalMode.trailing] using hno
          refine Cursor.steps_of_canAdvance hadvance ?_
          rw [hs.spans.itemCount]
          exact hs.fits.room
        · rw [TerminalMode.trailing_eq hded]
          exact ⟨d, hd⟩

theorem inspectStep_goes (hp : p.Honours C) (he : Sound C t.machine)
    (hstate : t.machine.state = .inspect) :
    (inspectStep p dir).Ensures t fun r t' =>
      t.machine.Yields C (t.machine.session = none) (t.machine.Blames C) (t.machine.Goes C dir) r
        t'.machine := by
  refine (inspectStep_ensures hp he hstate).mono fun r t' hr => ?_
  cases r with
  | error cause =>
    obtain ⟨haborted, hwhy⟩ := hr.resolve_left fun h => h.2.1
    exact Or.inr ⟨haborted, hwhy, fun hnot => absurd hstate hnot⟩
  | ok out => exact .visit hstate hr

theorem advance_ensures (hp : p.Honours C) (he : Sound C t.machine) :
    (advance p).Ensures t fun r t' =>
      t.machine.Yields C (t.machine.session = none) (t.machine.Blames C)
        (t.machine.Goes C .forward) r t'.machine := by
  rw [advance, Loader.advance]
  simp only [Operation.ensures_bind, Operation.ensures_machine]
  cases hstate : t.machine.state with
  | idle =>
    simp only [Operation.ensures_throw]
    exact Or.inl ⟨rfl, he.session_eq_none (Or.inl hstate), by decide⟩
  | error =>
    simp only [Operation.ensures_throw]
    exact Or.inl ⟨rfl, he.session_eq_none (Or.inr hstate), by decide⟩
  | review => exact advanceReview_ensures hp he hstate
  | interstitial =>
    obtain ⟨s, f, ht, -, hskip, hs, hshows⟩ := he.interstitial hstate
    simp only [Operation.ensures_bind, ensures_setState]
    refine Operation.Ensures.mono (step_ensures hp hs he.config rfl ht he.field)
      fun r t' hr => ?_
    cases r with
    | error cause => exact Or.inr ⟨hr.1.congr rfl rfl, .list ht hr.2, fun _ => hr.2⟩
    | ok out =>
      refine .step ht (by rw [hstate]; decide) (fun _ => rfl) (fun _ h => ?_) ?_
      · simp [hstate] at h
      · -- An offer to skip is made only where an item follows, so that the step is there to take.
        obtain ⟨index, hoffers⟩ := hs.offersSkip hshows hskip
        generalize t'.machine = e' at hr ⊢
        have hstep : Stepped C t.machine s s.terminal.trailing.toNat .forward out e' := by
          cases hr with
          | stay hno =>
            obtain ⟨d, hd⟩ := hoffers.steps hs
            exact absurd hd (hno d)
          | move hstep hland => exact .move hstep hland
        exact hstep.widen (TerminalMode.trailing_le _) fun _ _ => hoffers.steps hs
  | inspect => exact inspectStep_goes hp he hstate
  | confirm =>
    obtain ⟨s, ht, -, hded, hterminal, hs, hshows⟩ := he.confirm hstate
    simp only [Operation.ensures_pure]
    refine .step ht (by rw [hstate]; decide) (fun h => ?_) (fun _ h => ?_) (.stay fun d hd => ?_)
    · simp [hstate] at h
    · simp [hstate] at h
    · exact hshows.not_steps hs hded hterminal hd

theorem retreat_ensures (hp : p.Honours C) (he : Sound C t.machine) :
    (retreat p).Ensures t fun r t' =>
      t.machine.Yields C (t.machine.session = none) (t.machine.Blames C)
        (t.machine.Goes C .backward) r t'.machine := by
  rw [retreat, Loader.retreat]
  simp only [Operation.ensures_bind, Operation.ensures_machine]
  cases hstate : t.machine.state with
  | idle =>
    simp only [Operation.ensures_throw]
    exact Or.inl ⟨rfl, he.session_eq_none (Or.inl hstate), by decide⟩
  | error =>
    simp only [Operation.ensures_throw]
    exact Or.inl ⟨rfl, he.session_eq_none (Or.inr hstate), by decide⟩
  | review =>
    obtain ⟨s, ht, -, -, hs, -⟩ := he.review hstate
    refine (step_ensures hp hs he.config hstate ht he.field).mono fun r t' hr => ?_
    cases r with
    | error cause => exact Or.inr ⟨hr.1, .list ht hr.2, fun _ => hr.2⟩
    | ok out =>
      refine .step ht (by rw [hstate]; decide) (fun h => ?_) (fun h => by cases h)
        (hr.widen (TerminalMode.trailing_le _) fun d hd => ⟨d, hd.backward⟩)
      simp [hstate] at h
  | interstitial =>
    -- The cursor is still on the screen before the offer, which is loaded again.
    obtain ⟨s, f, ht, -, -, hs, -⟩ := he.interstitial hstate
    simp only [Operation.ensures_bind, ensures_setState]
    refine Operation.Ensures.mono (load_forward (s := s) (c := s.cursor) hp hs.fits he.config ht
      hs.spans he.field) fun r t' hr => ?_
    cases r with
    | error cause => exact Or.inr ⟨hr.1.congr rfl rfl, .list ht hr.2, fun _ => hr.2⟩
    | ok found =>
      obtain ⟨-, d, w, hland, ht'⟩ := hr
      simp only [Operation.ensures_pure, ht']
      exact .resume hstate ht hland
  | inspect => exact inspectStep_goes hp he hstate
  | confirm =>
    obtain ⟨s, ht, -, hded, hterminal, hs, hshows⟩ := he.confirm hstate
    simp only [Operation.ensures_bind, ensures_setState]
    refine Operation.Ensures.mono (step_ensures hp hs he.config rfl ht he.field)
      fun r t' hr => ?_
    cases r with
    | error cause => exact Or.inr ⟨hr.1.congr rfl rfl, .list ht hr.2, fun _ => hr.2⟩
    | ok out =>
      obtain ⟨s', hs', hstepped⟩ := hr.confirmed hstate ht hded hterminal
      simp only [ensures_getSession hs']
      have hgoes : Goes C t.machine .backward out
          (if s'.isTerminal then { t'.machine with state := .confirm } else t'.machine) := by
        refine .step ht (by rw [hstate]; decide) (fun h => ?_) (fun h => by cases h)
          (hstepped.widen (TerminalMode.trailing_le _) fun d hd => ⟨d, hd.backward⟩)
        simp [hstate] at h
      -- If no item has pages, the step back ends on the decision, and the engine is to confirm it.
      split
      · rename_i hterminal'
        rw [if_pos hterminal'] at hgoes
        simp only [Operation.ensures_bind, ensures_setState, Operation.ensures_pure]
        exact hgoes
      · rename_i hopen
        rw [if_neg hopen] at hgoes
        simp only [Operation.ensures_pure]
        exact hgoes

inductive Skips (C : Contract config) (e : Engine) : Output → Engine → Prop
  | skip {s : Session} {d : Cursor} {w : Field} : e.session = some s → e.canSkip s = true →
    s.Lands C .forward s.atDecision d w →
    Skips C e .redraw ({ e with state := .review }.showing { s with cursor := d } w.filled)

theorem skipToApprove_ensures (hp : p.Honours C) (he : Sound C t.machine) :
    (skipToApprove p).Ensures t fun r t' =>
      t.machine.Yields C (∀ s, t.machine.session = some s → t.machine.canSkip s = false)
        (t.machine.Endangered C) (t.machine.Skips C) r t'.machine := by
  rw [skipToApprove, Loader.skipToApprove]
  simp only [Operation.ensures_bind, Operation.ensures_machine]
  cases ht : t.machine.session with
  | none =>
    rw [ensures_getSession_none ht]
    exact Or.inl ⟨rfl, (fun _ h => by cases h), by decide⟩
  | some s =>
    obtain ⟨hs, -⟩ := he.runs ht
    cases hskip : t.machine.canSkip s with
    | false =>
      simp only [ensures_getSession ht, hskip, Bool.not_false, ↓reduceIte, Operation.ensures_bind,
        Operation.ensures_throw]
      refine Or.inl ⟨rfl, (fun s' hs' => ?_), by decide⟩
      cases hs'
      exact hskip
    | true =>
      simp only [ensures_getSession ht, hskip, Bool.not_true, Bool.false_eq_true, ↓reduceIte,
        Operation.ensures_bind, Operation.ensures_note, ensures_setSession, ensures_setState,
        s.withCursor_atDecision]
      refine Operation.Ensures.mono (load_forward (s := s) (c := s.atDecision) hp hs.fits he.config
        rfl hs.spans_atDecision he.field) fun r t' hr => ?_
      cases r with
      | error cause => exact Or.inr ⟨hr.1.congr rfl rfl, .list ht hr.2⟩
      | ok found =>
        obtain ⟨-, d, w, hland, ht'⟩ := hr
        simp only [Operation.ensures_pure, ht']
        exact .skip ht hskip hland

variable {e e' : Engine} {out : Output}

theorem sound_of_stepped (he : Sound C e) (hs : e.session = some s) (hi : s.inspection = none)
    (h : Stepped C e s s.terminal.decisions dir out e') : Sound C e' := by
  obtain ⟨hruns, -⟩ := he.runs hs
  cases h with
  | stay => exact he
  | move hstep hland =>
    exact sound_showing he.config hruns.fits (hruns.spans.of_steps hstep) hi hland
  | miss hstep _ hland => exact sound_showing he.config hruns.fits hruns.spans hi hland

theorem sound_of_goes (he : Sound C e) (h : Goes C e dir out e') : Sound C e' := by
  cases h with
  | @offer s hstate hs hskip =>
    obtain ⟨s', hs', hi, -, hruns, hshows⟩ := he.review hstate
    cases hs.symm.trans hs'
    exact ⟨he.config, C.field_setValue _ _ (C.field_setKey _ _ (C.field_clear _ he.field)),
      .interstitial rfl hs hi hskip hruns hshows ⟨e.field, he.field, rfl⟩⟩
  | step hs hnot _ _ hstep => exact sound_of_stepped he hs (he.inspection_eq_none hs hnot) hstep
  | resume hstate hs hland =>
    obtain ⟨hruns, -⟩ := he.runs hs
    have hi := he.inspection_eq_none hs (by rw [hstate]; decide)
    exact sound_showing he.config hruns.fits hruns.spans hi hland
  | visit _ h => exact sound_of_visits he h

theorem sound_of_skips (he : Sound C e) (h : Skips C e out e') : Sound C e' := by
  cases h with
  | skip hs hskip hland =>
    obtain ⟨hruns, -⟩ := he.runs hs
    have hi := he.inspection_eq_none hs fun h => by simp [canSkip, h] at hskip
    exact sound_showing he.config hruns.fits hruns.spans_atDecision hi hland

end Engine
end WalletReview
