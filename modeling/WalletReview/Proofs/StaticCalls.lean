import WalletReview.Proofs.Settling
import WalletReview.Proofs.StaticScreens

/-! What each operation of a review without a cursor does, however the provider answers. Whatever is
asked on the way, only a screen that has been completed is kept, and only the end of the review is
told to the provider. -/
namespace WalletReview.StaticReview

variable {σ : Type}

def Within (r : StaticReview) (n : UInt16) : Prop :=
  ∃ total, r.pairCount = some total ∧ n.toNat < screenCount r.config total.toNat

def HasScreens (r : StaticReview) (screens : UInt16) : Prop :=
  ∃ total, r.pairCount = some total ∧ screens.toNat = screenCount r.config total.toNat

theorem Within.lt {r : StaticReview} {n screens : UInt16} (h : r.Within n)
    (hscreens : r.HasScreens screens) : n.toNat < screens.toNat := by
  obtain ⟨total, htotal, hlt⟩ := h
  obtain ⟨total', htotal', hcount⟩ := hscreens
  cases htotal.symm.trans htotal'
  rw [hcount]
  exact hlt

theorem Within.max {r : StaticReview} {m n : UInt16} (hm : r.Within m) (hn : r.Within n) :
    r.Within (max m n) := by
  rcases Checked.max16_eq m n with heq | heq
  · rw [heq]
    exact hm
  · rw [heq]
    exact hn

/-- What is known of any review: there can be so many pairs, and the screens shown are among those
for the pairs counted. -/
structure Orderly (r : StaticReview) : Prop where
  counted : ∀ total, r.pairCount = some total → total.toNat ≤ 255 * 255
  shown : ∀ n screen, r.shown = some (n, screen) → r.Within n
  reached : ∀ n, r.reached = some n → r.Within n
  closed : r.finished = true → r.shown = none

theorem orderly_start (config : Config) : (start config).Orderly where
  counted _ h := by cases h
  shown _ _ h := by cases h
  reached _ h := by cases h
  closed h := by cases h

/-- The provider was asked questions. At most the field has changed and the pairs have been counted;
the provider has learned of no end. -/
structure Asked (t t' : Sitting StaticReview (Recorded σ)) : Prop where
  machine : ∃ w, t'.machine = { t.machine with field := w, pairCount := t'.machine.pairCount }
  count : t'.machine.pairCount = t.machine.pairCount ∨ t.machine.pairCount = none ∧
    ∃ total, t'.machine.pairCount = some total ∧ total.toNat ≤ 255 * 255
  conclusions : t'.content.conclusions = t.content.conclusions

namespace Asked

variable {t t' t'' : Sitting StaticReview (Recorded σ)}

theorem refl (t : Sitting StaticReview (Recorded σ)) : Asked t t := ⟨⟨_, rfl⟩, Or.inl rfl, rfl⟩

theorem trans (h : Asked t t') (h' : Asked t' t'') : Asked t t'' := by
  obtain ⟨⟨w, hw⟩, hcount, hconclusions⟩ := h
  obtain ⟨⟨w', hw'⟩, hcount', hconclusions'⟩ := h'
  refine ⟨⟨w', by rw [hw', hw]⟩, ?_, hconclusions'.trans hconclusions⟩
  rcases hcount' with heq | ⟨hnone, hsome⟩
  · rw [heq]
    exact hcount
  · rcases hcount with heq | ⟨-, total, hsome', -⟩
    · exact Or.inr ⟨by rw [← heq]; exact hnone, hsome⟩
    · cases hnone.symm.trans hsome'

theorem withField (h : Asked t t') (f : Field → Field) :
    Asked t { t' with machine := { t'.machine with field := f t'.machine.field } } := by
  obtain ⟨⟨w, hw⟩, hcount, hconclusions⟩ := h
  exact ⟨⟨f w, by rw [hw]⟩, hcount, hconclusions⟩

theorem config (h : Asked t t') : t'.machine.config = t.machine.config := by
  obtain ⟨w, hw⟩ := h.machine
  rw [hw]

theorem shown (h : Asked t t') : t'.machine.shown = t.machine.shown := by
  obtain ⟨w, hw⟩ := h.machine
  rw [hw]

theorem reached (h : Asked t t') : t'.machine.reached = t.machine.reached := by
  obtain ⟨w, hw⟩ := h.machine
  rw [hw]

theorem finished (h : Asked t t') : t'.machine.finished = t.machine.finished := by
  obtain ⟨w, hw⟩ := h.machine
  rw [hw]

theorem counted (h : Asked t t') {total : UInt16} (htotal : t.machine.pairCount = some total) :
    t'.machine.pairCount = some total := by
  rcases h.count with heq | ⟨hnone, -⟩
  · rw [heq, htotal]
  · cases hnone.symm.trans htotal

theorem within (h : Asked t t') {n : UInt16} (hn : t.machine.Within n) : t'.machine.Within n := by
  obtain ⟨total, htotal, hlt⟩ := hn
  exact ⟨total, h.counted htotal, by rw [h.config]; exact hlt⟩

theorem orderly (h : Asked t t') (ht : t.machine.Orderly) : t'.machine.Orderly where
  counted total htotal := by
    rcases h.count with heq | ⟨-, total', hsome, hle⟩
    · exact ht.counted total (by rw [← heq]; exact htotal)
    · cases htotal.symm.trans hsome
      exact hle
  shown n screen hshown := h.within (ht.shown n screen (by rw [← h.shown]; exact hshown))
  reached n hreached := h.within (ht.reached n (by rw [← h.reached]; exact hreached))
  closed hfinished := by
    rw [h.shown]
    exact ht.closed (by rw [← h.finished]; exact hfinished)

end Asked

variable {p : Provider σ} {t t' : Sitting StaticReview (Recorded σ)}

theorem askItem_asked (item page : UInt8) :
    (askItem p.recorded item page).Ensures t fun _ t' => Asked t t' ∧
      t'.machine.pairCount = t.machine.pairCount := by
  rw [ensures_askItem]
  exact ⟨⟨⟨_, rfl⟩, Or.inl rfl, silentlyOn_item p item page _ _⟩, rfl⟩

theorem askItems_asked : (askItems p.recorded).Ensures t fun r t' =>
    (∀ items, r = .ok items → items.length ≤ 255) ∧ Asked t t' ∧ t'.machine = t.machine := by
  simp only [askItems, Operation.ensures_bind, Operation.ensures_ask, Operation.ensures_settle]
  have hasked : Asked t { t with content := (p.recorded.itemCount t.content).2 } :=
    ⟨⟨_, rfl⟩, Or.inl rfl, silently_itemCount p t.content⟩
  cases (p.recorded.itemCount t.content).1 with
  | error cause => exact ⟨fun _ h => (by cases h), hasked, trivial⟩
  | ok count =>
    simp only [Operation.ensures_pure, Except.ok.injEq, forall_eq', List.length_map,
      List.length_range]
    exact ⟨Nat.le_of_lt_succ count.toNat_lt, hasked, trivial⟩

theorem sumPages_asked {items : List UInt8} {sum : UInt16}
    (hroom : sum.toNat + 255 * items.length ≤ 255 * 255) :
    (sumPages p.recorded items sum).Ensures t fun r t' =>
      (∀ total, r = .ok total → total.toNat ≤ 255 * 255) ∧ Asked t t' ∧
        t'.machine.pairCount = t.machine.pairCount := by
  induction items generalizing sum t with
  | nil =>
    rw [sumPages, Operation.ensures_pure]
    refine ⟨fun total htotal => ?_, .refl t, rfl⟩
    cases htotal
    exact Nat.le_of_add_right_le hroom
  | cons item rest ih =>
    rw [List.length_cons] at hroom
    simp only [sumPages, Operation.ensures_bind]
    refine (askItem_asked item 0).mono fun r t₁ hr => ?_
    obtain ⟨hasked, hcount⟩ := hr
    cases r with
    | error cause => exact ⟨fun _ h => (by cases h), hasked, hcount⟩
    | ok pages =>
      have hpages := pages.toNat_lt
      obtain ⟨next, hadd, hnext⟩ := Checked.exists_add16 (a := sum) (b := pages.toUInt16)
        (by rw [UInt8.toNat_toUInt16]; omega)
      rw [UInt8.toNat_toUInt16] at hnext
      simp only [Operation.ensures_liftM]
      refine ⟨next, hadd, (ih (by omega)).mono fun r t₂ hr => ?_⟩
      obtain ⟨htotal, hasked', hcount'⟩ := hr
      exact ⟨htotal, hasked.trans hasked', hcount'.trans hcount⟩

theorem totalPairs_asked : (totalPairs p.recorded).Ensures t fun r t' => Asked t t' ∧
    match r with
    | .ok total => t'.machine.pairCount = some total
    | .error _ => t'.machine.pairCount = none := by
  simp only [totalPairs, Operation.ensures_bind, Operation.ensures_machine]
  cases hcount : t.machine.pairCount with
  | some total =>
    simp only [Operation.ensures_pure]
    exact ⟨.refl t, hcount⟩
  | none =>
    simp only [Operation.ensures_bind]
    refine askItems_asked.mono fun r t₁ hr => ?_
    obtain ⟨hlength, hasked₁, hmachine⟩ := hr
    cases r with
    | error cause => exact ⟨hasked₁, by rw [hmachine]; exact hcount⟩
    | ok items =>
      have hlength := hlength items rfl
      refine (sumPages_asked (by rw [UInt16.toNat_zero]; omega)).mono fun r t₂ hr => ?_
      obtain ⟨htotal, hasked₂, hcount₂⟩ := hr
      rw [hmachine, hcount] at hcount₂
      have hasked := hasked₁.trans hasked₂
      cases r with
      | error cause => exact ⟨hasked, hcount₂⟩
      | ok total =>
        obtain ⟨w, hw⟩ := hasked.machine
        simp only [ensures_modifyField, Operation.ensures_modifyMachine, Operation.ensures_pure]
        refine ⟨⟨⟨t₂.machine.field.clear, ?_⟩, Or.inr ⟨hcount, total, rfl, htotal total rfl⟩,
          hasked.conclusions⟩, trivial⟩
        rw [hw]

theorem totalScreens_asked (ht : t.machine.Orderly) :
    (totalScreens p.recorded).Ensures t fun r t' => Asked t t' ∧
      match r with
      | .ok screens => t'.machine.HasScreens screens
      | .error _ => t'.machine.pairCount = none := by
  simp only [totalScreens, Operation.ensures_bind]
  refine totalPairs_asked.mono fun r t₁ hr => ?_
  obtain ⟨hasked, hcount⟩ := hr
  cases r with
  | error cause => exact ⟨hasked, hcount⟩
  | ok total =>
    obtain ⟨sum, above, hadd, hsub, hscreens⟩ :=
      exists_screenCount t₁.machine ((hasked.orderly ht).counted total hcount)
    simp only [Operation.ensures_machine, Operation.ensures_liftM, Operation.ensures_pure]
    exact ⟨sum, hadd, above, hsub, hasked, total, hcount, hscreens⟩

theorem totalScreens_known (ht : t.machine.Orderly) {screens : UInt16}
    (h : t.machine.HasScreens screens) :
    (totalScreens p.recorded).Ensures t fun r t' => r = .ok screens ∧ t' = t := by
  obtain ⟨total, htotal, hscreens⟩ := h
  obtain ⟨sum, above, hadd, hsub, hcount⟩ :=
    exists_screenCount t.machine (ht.counted total htotal)
  cases UInt16.toNat_inj.1 (hscreens.trans hcount.symm)
  simp only [totalScreens, totalPairs, Operation.ensures_bind, Operation.ensures_machine, htotal,
    Operation.ensures_pure, Operation.ensures_liftM]
  exact ⟨sum, hadd, above, hsub, rfl, trivial⟩

theorem locateFrom_asked {index base : UInt16} {items : List UInt8}
    (hbase : base.toNat ≤ index.toNat) (hroom : base.toNat + 255 * items.length ≤ 255 * 255) :
    (locateFrom p.recorded index items base).Ensures t fun _ t' => Asked t t' := by
  induction items generalizing base t with
  | nil =>
    rw [locateFrom, Operation.ensures_throw]
    exact .refl t
  | cons item rest ih =>
    rw [List.length_cons] at hroom
    simp only [locateFrom, Operation.ensures_bind]
    refine (askItem_asked item 0).mono fun r t₁ hr => ?_
    obtain ⟨hasked, -⟩ := hr
    cases r with
    | error cause => exact hasked
    | ok pages =>
      have hpages := pages.toNat_lt
      obtain ⟨next, hadd, hnext⟩ := Checked.exists_add16 (a := base) (b := pages.toUInt16)
        (by rw [UInt8.toNat_toUInt16]; omega)
      rw [UInt8.toNat_toUInt16] at hnext
      simp only [Operation.ensures_liftM]
      refine ⟨next, hadd, ?_⟩
      by_cases hlt : index < next
      · obtain ⟨page, hsub, -⟩ := Checked.exists_sub16 hbase
        simp only [if_pos hlt, Operation.ensures_bind, Operation.ensures_liftM,
          Operation.ensures_pure]
        exact ⟨page, hsub, hasked⟩
      · simp only [if_neg hlt]
        exact (ih (Nat.not_lt.1 fun h => hlt (UInt16.lt_iff_toNat_lt.2 h)) (by omega)).mono
          fun r t₂ hr => hasked.trans hr

theorem pairAt_asked (index : UInt16) (out : Pair) :
    (pairAt p.recorded index out).Ensures t fun _ t' => Asked t t' := by
  simp only [pairAt, locate, Operation.ensures_bind]
  refine askItems_asked.mono fun r t₁ hr => ?_
  obtain ⟨hlength, hasked₁, -⟩ := hr
  cases r with
  | error cause => exact hasked₁
  | ok items =>
    have hlength := hlength items rfl
    refine (locateFrom_asked (by rw [UInt16.toNat_zero]; omega)
      (by rw [UInt16.toNat_zero]; omega)).mono fun r t₂ hr => ?_
    have hasked₂ := hasked₁.trans hr
    cases r with
    | error cause => exact hasked₂
    | ok place =>
      simp only [ensures_modifyField]
      refine (askItem_asked place.item place.page).mono fun r t₃ hr => ?_
      have hasked₃ := (hasked₂.withField Field.clear).trans hr.1
      cases r with
      | error cause => exact hasked₃
      | ok pages =>
        simp only [Operation.ensures_machine, Operation.ensures_pure]
        exact hasked₃.withField Field.clear

theorem collectPairs_asked (count : Nat) (index : UInt16) (pairs : List Pair) :
    (collectPairs p.recorded count index pairs).Ensures t fun _ t' => Asked t t' := by
  induction count generalizing index pairs t with
  | zero =>
    rw [collectPairs, Operation.ensures_pure]
    exact .refl t
  | succ count ih =>
    simp only [collectPairs, Operation.ensures_bind]
    refine (pairAt_asked index .empty).mono fun r t₁ hasked => ?_
    cases r with
    | error cause => exact hasked
    | ok pair =>
      by_cases hroom : pairs.length < maxPairs
      · simp only [if_pos hroom]
        exact (ih _ _).mono fun r t₂ hr => hasked.trans hr
      · simp only [if_neg hroom, Operation.ensures_throw]
        exact hasked

theorem renderScreen_asked (ht : t.machine.Orderly) (n : UInt16) :
    (renderScreen p.recorded n).Ensures t fun r t' => Asked t t' ∧
      ∀ screen, r = .ok screen → t'.machine.Within n := by
  simp only [renderScreen, Operation.ensures_bind]
  refine (totalScreens_asked ht).mono fun r t₁ hr => ?_
  obtain ⟨hasked₁, hcount⟩ := hr
  cases r with
  | error cause => exact ⟨hasked₁, fun _ h => by cases h⟩
  | ok screens =>
    obtain ⟨total, htotal, hscreens⟩ := hcount
    by_cases hbeyond : screens ≤ n
    · simp only [if_pos hbeyond, Operation.ensures_bind, Operation.ensures_throw]
      exact ⟨hasked₁, fun _ h => by cases h⟩
    have hlt : n.toNat < screenCount t₁.machine.config total.toNat := by
      rwa [UInt16.le_iff_toNat_le, hscreens, Nat.not_le] at hbeyond
    obtain ⟨first, past, hmul, hadd, -⟩ :=
      exists_span t₁.machine hlt ((hasked₁.orderly ht).counted total htotal)
    simp only [if_neg hbeyond, Operation.ensures_pure, Operation.ensures_bind,
      Operation.ensures_machine, Operation.ensures_liftM]
    refine ⟨first, hmul, past, hadd, totalPairs_asked.mono fun r t₂ hr => ?_⟩
    obtain ⟨hasked₂, -⟩ := hr
    cases r with
    | error cause => exact ⟨hasked₁.trans hasked₂, fun _ h => by cases h⟩
    | ok total' =>
      refine (collectPairs_asked _ _ _).mono fun r t₃ hasked₃ => ?_
      have hasked := hasked₁.trans (hasked₂.trans hasked₃)
      cases r with
      | error cause => exact ⟨hasked, fun _ h => by cases h⟩
      | ok pairs =>
        simp only [Operation.ensures_note]
        exact ⟨⟨hasked.machine, hasked.count, hasked.conclusions⟩,
          fun _ _ => (hasked₂.trans hasked₃).within ⟨total, htotal, hlt⟩⟩

/-- Screen `n` has been shown: it is the one kept, and the furthest one unless one further on has
been shown before. -/
structure Showed (n : UInt16) (screen : List Pair) (t t' : Sitting StaticReview (Recorded σ)) :
    Prop where
  opened : t.machine.finished = false
  machine : ∃ t₁, Asked t t₁ ∧ t₁.machine.Within n ∧ t'.content = t₁.content ∧
    t'.machine = { t₁.machine with
      shown := some (n, screen), reached := some (max (t.machine.reached.getD n) n) }

/-- What becomes of a call for screen `n`: the screen is shown, or what has been shown stays. -/
inductive Turns (n : UInt16) (t : Sitting StaticReview (Recorded σ)) :
    Except Error (List Pair) → Sitting StaticReview (Recorded σ) → Prop
  | shown {screen : List Pair} {t' : Sitting StaticReview (Recorded σ)} :
    Showed n screen t t' → Turns n t (.ok screen) t'
  | refused {cause : Error} {t' : Sitting StaticReview (Recorded σ)} :
    Asked t t' → Turns n t (.error cause) t'

theorem keep_turns {op : Operation StaticReview (Recorded σ) (List Pair)} {n : UInt16}
    (hopen : t.machine.finished = false)
    (h : op.Ensures t fun r t' => Asked t t' ∧ ∀ screen, r = .ok screen → t'.machine.Within n) :
    (do
      let screen ← op
      Operation.modifyMachine fun r =>
        { r with shown := some (n, screen), reached := some (max (r.reached.getD n) n) }
      return screen).Ensures t (Turns n t) := by
  simp only [Operation.ensures_bind]
  refine h.mono fun r t₁ hr => ?_
  obtain ⟨hasked, hwithin⟩ := hr
  cases r with
  | error cause => exact .refused hasked
  | ok screen =>
    simp only [Operation.ensures_modifyMachine, Operation.ensures_pure]
    exact .shown ⟨hopen, t₁, hasked, hwithin screen rfl, rfl, by rw [hasked.reached]⟩

/-- A review that is over shows nothing. -/
theorem screenAt_finished (p : Provider σ) {t : Sitting StaticReview σ}
    (h : t.machine.finished = true) (n : UInt16) :
    (screenAt p n).Ensures t fun r t' => r = .error .invalidState ∧ t' = t := by
  simp only [screenAt, Operation.ensures_bind, Operation.ensures_machine, h, if_true,
    Operation.ensures_throw, and_self]

/-- The screen shown last is shown again without a question. -/
theorem screenAt_shown (p : Provider σ) {t : Sitting StaticReview σ}
    (hopen : t.machine.finished = false) {n : UInt16} {screen : List Pair}
    (hshown : t.machine.shown = some (n, screen)) :
    (screenAt p n).Ensures t fun r t' => r = .ok screen ∧ t'.content = t.content := by
  simp only [screenAt, Operation.ensures_bind, Operation.ensures_machine, hopen, hshown, if_true,
    Bool.false_eq_true, if_false, Operation.ensures_pure, Operation.ensures_modifyMachine, and_self]

theorem screenAt_turns (ht : t.machine.Orderly) (n : UInt16) :
    (screenAt p.recorded n).Ensures t (Turns n t) := by
  cases hopen : t.machine.finished with
  | true =>
    refine (screenAt_finished p.recorded hopen n).mono fun r t' hr => ?_
    obtain ⟨rfl, rfl⟩ := hr
    exact .refused (.refl _)
  | false =>
    have hrender := keep_turns hopen (renderScreen_asked (p := p) ht n)
    simp only [screenAt, Operation.ensures_bind, Operation.ensures_machine, hopen,
      Bool.false_eq_true, if_false]
    cases hshown : t.machine.shown with
    | none => exact hrender
    | some last =>
      obtain ⟨m, screen⟩ := last
      by_cases hm : m = n
      · simp only [if_pos hm]
        exact keep_turns hopen (Operation.ensures_pure.2
          ⟨.refl t, fun _ _ => hm ▸ ht.shown m screen hshown⟩)
      · simp only [if_neg hm]
        exact hrender

/-- Every screen has been shown, as far as one can tell from the furthest one. -/
def Complete (r : StaticReview) (screens : UInt16) : Prop :=
  screens = 0 ∨ ∃ n, r.reached = some n ∧ screens.toNat ≤ n.toNat + 1

theorem isComplete_asked (ht : t.machine.Orderly) :
    (isComplete p.recorded).Ensures t fun r t' => Asked t t' ∧ ∃ complete, r = .ok complete ∧
      (complete = true ↔ ∃ screens, t.machine.Complete screens ∧
        (totalScreens p.recorded).Ensures t fun r _ => r = .ok screens) := by
  obtain ⟨r₁, t₁, htotal, hasked, hcount⟩ := totalScreens_asked (p := p) ht
  simp only [isComplete, Operation.ensures_bind, Operation.ensures_attempt,
    Operation.ensures_iff_of_eq htotal]
  cases r₁ with
  | error cause =>
    simp only [Operation.ensures_pure]
    exact ⟨hasked, false, rfl, by simp⟩
  | ok screens =>
    simp only [Except.ok.injEq, exists_eq_right']
    by_cases hzero : screens = 0
    · simp only [if_pos hzero, Operation.ensures_pure]
      exact ⟨hasked, true, rfl, iff_of_true rfl (Or.inl hzero)⟩
    simp only [if_neg hzero, Operation.ensures_bind, Operation.ensures_machine, hasked.reached]
    cases hreached : t.machine.reached with
    | none =>
      simp only [Operation.ensures_pure]
      exact ⟨hasked, false, rfl, by simp [Complete, hzero, hreached]⟩
    | some n =>
      obtain ⟨total, hsome, hlt⟩ := ht.reached n hreached
      have hpos := perScreen_pos t.machine.config
      have hbound := ht.counted total hsome
      have hn := Nat.le_trans (Nat.le_mul_of_pos_right n.toNat hpos)
        (Nat.le_of_lt (lt_screenCount_iff.1 hlt))
      obtain ⟨next, hadd, hnext⟩ := Checked.exists_add16 (a := n) (b := 1)
        (by rw [UInt16.toNat_one]; omega)
      rw [UInt16.toNat_one] at hnext
      simp only [Operation.ensures_bind, Operation.ensures_liftM, Operation.ensures_pure]
      refine ⟨next, hadd, hasked, _, rfl, ?_⟩
      simp [Complete, hzero, hreached, UInt16.le_iff_toNat_le, hnext]

def outcomeOf (approved : Bool) : Outcome := if approved then .accepted else .rejected

structure Ended (approved : Bool) (t t' : Sitting StaticReview (Recorded σ)) : Prop where
  opened : t.machine.finished = false
  machine : ∃ t₁, Asked t t₁ ∧ t'.machine = { t₁.machine with
    finished := true, shown := none, field := t₁.machine.field.wipe }
  conclusions : t'.content.conclusions = outcomeOf approved :: t.content.conclusions

inductive Ends (approved : Bool) (t : Sitting StaticReview (Recorded σ)) :
    Except Error Bool → Sitting StaticReview (Recorded σ) → Prop
  | ended {t' : Sitting StaticReview (Recorded σ)} : Ended approved t t' →
    Ends approved t (.ok true) t'
  | refused {t' : Sitting StaticReview (Recorded σ)} : Asked t t' → Ends approved t (.ok false) t'

theorem finish_finished (p : Provider σ) {t : Sitting StaticReview σ}
    (h : t.machine.finished = true) (approved : Bool) :
    (finish p approved).Ensures t fun r t' => r = .ok false ∧ t' = t := by
  simp only [finish, Operation.ensures_bind, Operation.ensures_machine, h, if_true,
    Operation.ensures_pure, and_self]

theorem close_ends {t₁ : Sitting StaticReview (Recorded σ)} (hopen : t.machine.finished = false)
    (hasked : Asked t t₁) (approved : Bool) :
    (do
      Operation.modifyMachine fun r =>
        { r with finished := true, shown := none, field := r.field.wipe }
      Operation.conclude p.recorded (if approved then .accepted else .rejected)
      return true : Operation StaticReview (Recorded σ) Bool).Ensures t₁ fun r t' =>
        r = .ok true ∧ Ended approved t t' := by
  simp only [Operation.ensures_bind, Operation.ensures_modifyMachine, Operation.ensures_conclude,
    Operation.ensures_pure]
  exact ⟨trivial, hopen, ⟨t₁, hasked, rfl⟩, congrArg (outcomeOf approved :: ·) hasked.conclusions⟩

/-- A rejection is always possible, an approval after the last screen. -/
theorem finish_ends (ht : t.machine.Orderly) (approved : Bool) :
    (finish p.recorded approved).Ensures t fun r t' => Ends approved t r t' ∧
      (r = .ok true ↔ t.machine.finished = false ∧ (approved = true →
        ∃ screens, t.machine.Complete screens ∧
          (totalScreens p.recorded).Ensures t fun r _ => r = .ok screens)) := by
  cases hopen : t.machine.finished with
  | true =>
    refine (finish_finished p.recorded hopen approved).mono fun r t' hr => ?_
    obtain ⟨rfl, rfl⟩ := hr
    exact ⟨.refused (.refl _), by simp⟩
  | false =>
    simp only [finish, Operation.ensures_bind, Operation.ensures_machine, hopen, Bool.false_eq_true,
      if_false]
    cases approved with
    | false =>
      simp only [Bool.false_eq_true, if_false]
      refine (close_ends hopen (.refl t) false).mono fun r t' hr => ?_
      obtain ⟨rfl, hended⟩ := hr
      exact ⟨.ended hended, by simp⟩
    | true =>
      simp only [if_true, Operation.ensures_bind]
      refine (isComplete_asked ht).mono fun r t₁ hr => ?_
      obtain ⟨hasked, complete, rfl, hiff⟩ := hr
      cases complete with
      | false =>
        simp only [Bool.not_false, if_true, Operation.ensures_pure]
        exact ⟨.refused hasked, iff_of_false (by simp) fun h => by simpa using hiff.2 (h.2 trivial)⟩
      | true =>
        simp only [Bool.not_true, Bool.false_eq_true, if_false]
        refine (close_ends hopen hasked true).mono fun r t' hr => ?_
        obtain ⟨rfl, hended⟩ := hr
        exact ⟨.ended hended, iff_of_true rfl ⟨trivial, fun _ => hiff.1 rfl⟩⟩

end WalletReview.StaticReview
