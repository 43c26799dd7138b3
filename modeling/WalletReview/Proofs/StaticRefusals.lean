import WalletReview.Proofs.StaticRuns

/-! Calls of a review without a cursor that are refused. However far the provider was asked before,
a pair that cannot be had stays what it was, though it is written in place, and so does everything
that has been shown. -/
namespace WalletReview

variable {σ α : Type} {config : Config}

def Sitting.beside (t : Sitting StaticReview σ) (out : Pair) : Sitting (StaticReview × Pair) σ :=
  ⟨(t.machine, out), t.content, t.journal⟩

@[simp] theorem Sitting.machine_beside (t : Sitting StaticReview σ) (out : Pair) :
    (t.beside out).machine = (t.machine, out) := rfl

namespace StaticReview

/-- An operation on the review that leaves a pair on the side alone. -/
def aside (op : Operation StaticReview σ α) : Operation (StaticReview × Pair) σ α := fun t => do
  let (r, s) ← op ⟨t.machine.1, t.content, t.journal⟩
  return (r, s.beside t.machine.2)

def modifyPair (f : Pair → Pair) : Operation (StaticReview × Pair) σ Unit :=
  Operation.modifyMachine fun m => (m.1, f m.2)

/-- Pair `index`, written in place: first the key, then its label, then the value. -/
def writePair (p : Provider σ) (index : UInt16) : Operation (StaticReview × Pair) σ Unit := do
  let place ← aside (locate p index)
  aside (modifyField Field.clear)
  let _ ← aside (askItem p place.item place.page)
  let r := (← Operation.machine).1
  modifyPair fun out => { out with key := (out.key.set r.field.key.text).1 }
  modifyPair fun out =>
    { out with key := out.key.appendLabel place.page place.pages r.config.labelStyle }
  if r.field.value.isEmpty then
    modifyPair fun out => { out with value := (out.value.set " ").1 }
  else modifyPair fun out => { out with value := (out.value.set r.field.value.text).1 }
  aside (modifyField Field.clear)

section

variable {p : Provider σ} {t : Sitting StaticReview σ} {out : Pair}

@[simp] theorem ensures_aside {op : Operation StaticReview σ α}
    {post : Except Error α → Sitting (StaticReview × Pair) σ → Prop} :
    (aside op).Ensures (t.beside out) post ↔ op.Ensures t fun r s => post r (s.beside out) := by
  have h : aside op (t.beside out) = (op t >>= fun x => .ok (x.1, x.2.beside out)) := rfl
  cases hop : op t with
  | error fault =>
    rw [hop] at h
    constructor
    · rintro ⟨r, s, hr, -⟩
      cases h.symm.trans hr
    · rintro ⟨r, s, hr, -⟩
      cases hop.symm.trans hr
  | ok result =>
    rw [hop] at h
    rw [Operation.ensures_iff_of_eq h, Operation.ensures_iff_of_eq hop]

@[simp] theorem ensures_modifyPair {f : Pair → Pair}
    {post : Except Error Unit → Sitting (StaticReview × Pair) σ → Prop} :
    (modifyPair f).Ensures (t.beside out) post ↔ post (.ok ()) (t.beside (f out)) :=
  Operation.ensures_modifyMachine

def leaves (out : Pair) (r : Except Error Pair) (s : Sitting StaticReview σ) :
    Except Error Unit × Sitting (StaticReview × Pair) σ :=
  match r with
  | .ok pair => (.ok (), s.beside pair)
  | .error cause => (.error cause, s.beside out)

theorem writePair_ensures {index : UInt16}
    {post : Except Error Unit → Sitting (StaticReview × Pair) σ → Prop} :
    (writePair p index).Ensures (t.beside out) post ↔ (pairAt p index out).Ensures t fun r s =>
      post (leaves out r s).1 (leaves out r s).2 := by
  simp only [writePair, pairAt, Operation.ensures_bind, ensures_aside]
  refine Operation.ensures_congr fun r s => ?_
  cases r with
  | error cause => exact Iff.rfl
  | ok place =>
    simp only [ensures_modifyField]
    refine Operation.ensures_congr fun r s => ?_
    cases r with
    | error cause => exact Iff.rfl
    | ok pages =>
      simp only [Operation.ensures_machine, ensures_modifyPair, Operation.ensures_pure,
        Sitting.machine_beside]
      by_cases hempty : s.machine.field.value.isEmpty
      · simp only [hempty, if_true, Operation.ensures_bind, ensures_modifyPair, ensures_aside,
          ensures_modifyField, leaves]
      · simp only [hempty, Bool.false_eq_true, if_false, Operation.ensures_bind,
          ensures_modifyPair, ensures_aside, ensures_modifyField, leaves]

end

variable {p : Provider σ} {t : Sitting StaticReview (Recorded σ)} {steps : List Step}

theorem Step.screen?_eq_none {x : Step} (h : ∀ n, ¬x.Shows n) : x.screen? = none := by
  obtain ⟨call, reply⟩ := x
  unfold screen?
  split
  · rename_i n screen heq
    cases heq
    exact absurd ⟨rfl, screen, rfl⟩ (h n)
  · rfl

/-- The screen kept is the one that was shown last. -/
theorem Run.shown (h : Run p config steps t) (hopen : t.machine.finished = false) :
    t.machine.shown = steps.findSome? Step.screen? := by
  induction h with
  | start => rfl
  | meddle content _ ih => exact ih hopen
  | @call steps t t' reply call hrun hact ih =>
    have hdoes := (perform_does hrun.tracks.orderly call).of_eq hact
    have hbefore : t.machine.finished = false :=
      Bool.eq_false_iff.2 fun hover => by simp [hdoes.finished.2 (Or.inl hover)] at hopen
    rw [List.findSome?_cons]
    cases hdoes with
    | asks hasked _ hnone => rw [Step.screen?_eq_none hnone, hasked.shown, ih hbefore]
    | shows hcall hshowed =>
      obtain ⟨-, t₁, -, -, -, hmachine⟩ := hshowed
      rw [hcall, hmachine]
      rfl
    | ends _ hended =>
      obtain ⟨-, ⟨t₁, -, hmachine⟩, -⟩ := hended
      simp [hmachine] at hopen

/-- Nothing is lost by a call that is refused. -/
structure Undisturbed (p : Provider σ) (steps : List Step) (t : Sitting StaticReview (Recorded σ)) :
    Prop where
  /-- A pair is written in place, and stays what it was if it cannot be had. -/
  pair (index : UInt16) (out : Pair) : (overwritePair p.recorded index out).Ensures t fun r t' =>
    ∃ reply out', r = .ok (reply, out') ∧
      writePair p.recorded index (t.beside out) = .ok (reply, t'.beside out') ∧
      ∀ cause, reply = .error cause → out' = out
  screen (n : UInt16) : (screenAt p.recorded n).Ensures t fun r t' => ∀ cause, r = .error cause →
    t'.machine.shown = t.machine.shown ∧ t'.machine.reached = t.machine.reached ∧
      t'.machine.finished = t.machine.finished ∧
      ∀ m kept, t.machine.finished = false → t.machine.shown = some (m, kept) →
        (screenAt p.recorded m).Ensures t' fun r t'' => r = .ok kept ∧ t''.content = t'.content
  /-- The screen kept is the one that was shown last. -/
  shown : t.machine.finished = false → t.machine.shown = steps.findSome? Step.screen?
  again (m : UInt16) (kept : List Pair) : t.machine.finished = false →
    t.machine.shown = some (m, kept) →
    (screenAt p.recorded m).Ensures t fun r t' => r = .ok kept ∧ t'.content = t.content

/-- However the provider answers, no call that is refused loses a pair or a screen. -/
theorem undisturbed_of_run (h : Run p config steps t) : Undisturbed p steps t := by
  refine ⟨fun index out => ?_, fun n => ?_, h.shown,
    fun m kept hopen hshown => screenAt_shown _ hopen hshown⟩
  · obtain ⟨r, t', hpair, -⟩ := pairAt_asked (p := p) (t := t) index out
    have hwrite : (writePair p.recorded index).Ensures (t.beside out) fun reply u =>
        (reply, u) = leaves out r t' :=
      writePair_ensures.2 ((Operation.ensures_iff_of_eq hpair).2 rfl)
    obtain ⟨reply, u, hrun, hleaves⟩ := hwrite
    simp only [overwritePair, Operation.ensures_bind, Operation.ensures_attempt,
      Operation.ensures_iff_of_eq hpair]
    cases r with
    | error cause =>
      cases hleaves
      exact Operation.ensures_pure.2 ⟨_, _, rfl, hrun, fun _ _ => rfl⟩
    | ok pair =>
      cases hleaves
      exact Operation.ensures_pure.2 ⟨_, _, rfl, hrun, fun _ h => by cases h⟩
  · refine (screenAt_turns h.tracks.orderly n).mono fun r t' hr cause hcause => ?_
    cases hr with
    | shown => cases hcause
    | refused hasked =>
      refine ⟨hasked.shown, hasked.reached, hasked.finished, fun m kept hopen hshown => ?_⟩
      exact screenAt_shown _ (hasked.finished.trans hopen) (hasked.shown.trans hshown)

/-- The first of two screens, and a call for a third one. -/
theorem undisturbed_of_run_beyond : ∃ screen t,
    Run Fixture.provider .nanoS
        [⟨.screenAt 2, .error .outOfBounds⟩, ⟨.screenAt 0, .ok (.screen screen)⟩] t ∧
      t.machine.shown = some (0, screen) ∧ Undisturbed Fixture.provider
        [⟨.screenAt 2, .error .outOfBounds⟩, ⟨.screenAt 0, .ok (.screen screen)⟩] t := by
  have h : ∃ screen t, Run Fixture.provider .nanoS
      [⟨.screenAt 2, .error .outOfBounds⟩, ⟨.screenAt 0, .ok (.screen screen)⟩] t ∧
      t.machine.shown = some (0, screen) :=
    ⟨_, _, .call (.screenAt 2) (.call (.screenAt 0) (.start (.ofPages [1, 1])) rfl) rfl, rfl⟩
  obtain ⟨screen, t, hrun, hshown⟩ := h
  exact ⟨screen, t, hrun, hshown, undisturbed_of_run hrun⟩

end StaticReview
end WalletReview
