import WalletReview.Proofs.Standing

/-! The beginning of a review and its ends. -/
namespace WalletReview

variable {σ : Type} {config : Config} {C : Contract config}

/-- No more screens come before the items than there are kinds of them. -/
theorem length_introScreens_le (kind : Kind) (modes : Modes) (titleScreen : Bool) :
    (introScreens kind modes titleScreen).length ≤ IntroScreen.all.length := by
  simp only [introScreens, List.length_append]
  split <;> split <;> split <;> decide

namespace Engine

variable {p : Provider σ} {t : Sitting Engine σ} {e e' : Engine} {out : Output} {kind : Kind}
  {confirmation : Bool} {intent : Option String} {count : UInt8}

inductive Begins (C : Contract config) (e : Engine) (kind : Kind) (confirmation : Bool)
    (intent : Option String) : Output → Engine → Prop
  | begin {count : UInt8} {d : Cursor} {w : Field} : e.state = .idle →
    (e.newSession kind confirmation intent count).Fits C →
    (e.newSession kind confirmation intent count).Lands C .forward
      (e.newSession kind confirmation intent count).cursor d w →
    Begins C e kind confirmation intent .redraw ({ e with state := .review }.showing
      { e.newSession kind confirmation intent count with cursor := d } w.filled)

inductive Ends (e : Engine) : Output → Engine → Prop
  | approve : e.canApprove = true →
    Ends e .approved { e with session := none, field := e.field.wipe, state := .idle }
  | reject {s : Session} : e.session = some s →
    Ends e .rejected { e with session := none, field := e.field.wipe, state := .idle }
  | acknowledge : e.state = .error →
    Ends e .idle { e with field := e.field.wipe, state := .idle }

def errorScreen (e : Engine) (text : String × String) : Engine :=
  { e with session := none, field := (e.field.wipe.setKey text.1).setValue text.2, state := .error }

theorem Begins.idle (h : Begins C e kind confirmation intent out e') : e.state = .idle := by
  cases h
  assumption

theorem newSession_eq (e : Engine) (kind : Kind) (confirmation : Bool) (intent : Option String)
    (count : UInt8) : ∃ text : BoundedText keyCapacity, (∃ cs, text.Holds cs) ∧
      e.newSession kind confirmation intent count =
        { Session.start kind confirmation e.config.terminal e.modes
            (introScreens kind e.modes e.config.titleScreen) count with intent := text } := by
  unfold newSession
  cases intent with
  | none => exact ⟨.empty _, ⟨[], BoundedText.holds_empty⟩, rfl⟩
  | some text =>
    simp only
    split
    · exact ⟨_, BoundedText.holds_empty.setIntent text, rfl⟩
    · exact ⟨.empty _, ⟨[], BoundedText.holds_empty⟩, rfl⟩

theorem newSession_fits (hconfig : e.config = config) (hcount : C.itemCount (.ok count))
    (hroom : ¬255 < count.toNat + (introScreens kind e.modes e.config.titleScreen).length +
      e.config.terminal.trailing.toNat) :
    (e.newSession kind confirmation intent count).Fits C := by
  obtain ⟨text, htext, hnew⟩ := e.newSession_eq kind confirmation intent count
  subst hconfig
  rw [hnew]
  refine ⟨rfl, rfl, ?_, hcount, htext⟩
  simp only [Session.start]
  omega

theorem newSession_spans (h : (e.newSession kind confirmation intent count).Fits C) :
    (e.newSession kind confirmation intent count).Spans
      (e.newSession kind confirmation intent count).cursor := by
  obtain ⟨text, -, hnew⟩ := e.newSession_eq kind confirmation intent count
  have hroom := h.room
  rw [hnew] at hroom ⊢
  have hitemCount : (saturate8
      ((introScreens kind e.modes e.config.titleScreen).length.toUInt8.toNat + count.toNat)).toNat =
      (introScreens kind e.modes e.config.titleScreen).length + count.toNat := by
    simp only [Session.start] at hroom
    rw [saturate8_toNat, Nat.toUInt8, UInt8.toNat_ofNat', Nat.mod_eq_of_lt (by omega)]
    omega
  refine ⟨hitemCount, ?_⟩
  have : 0 < e.config.terminal.decisions := by cases e.config.terminal <;> decide
  simp only [Session.start, Cursor.start, UInt8.reduceToNat]
  omega

/-- Why a review that could begin does not. -/
inductive Barred (C : Contract config) (e : Engine) (kind : Kind) : Prop
  | uncounted {cause : Error} : C.itemCount (.error cause) → Barred C e kind
  | crowded {count : UInt8} : C.itemCount (.ok count) →
    255 < count.toNat + (introScreens kind e.modes e.config.titleScreen).length +
      e.config.terminal.trailing.toNat → Barred C e kind
  | fails : C.Fails → Barred C e kind

theorem begin_ensures (hp : p.Honours C) (he : Sound C t.machine) :
    (begin p kind confirmation intent).Ensures t fun r t' =>
      t.machine.Yields C (t.machine.state ≠ .idle)
        (t.machine.state = .idle ∧ t.machine.Barred C kind)
        (t.machine.Begins C kind confirmation intent) r t'.machine := by
  rw [begin, Loader.begin]
  simp only [Operation.ensures_bind, Operation.ensures_machine, Operation.ensures_note]
  by_cases hstate : t.machine.state = .idle
  · have hcounted := hp.itemCount t.content
    have hfield : C.field (t.machine.field.wipe.setPageLength t.machine.config.pageLength) := by
      rw [he.config]
      exact C.field_setPageLength _ (C.field_wipe _ he.field)
    simp only [hstate, ne_eq, not_true_eq_false, ↓reduceIte, Operation.ensures_bind,
      ensures_modifyField, Operation.ensures_ask]
    cases hreply : (p.itemCount t.content).1 with
    | error cause =>
      rw [hreply] at hcounted
      simp only [fail, showErrorScreen, Operation.ensures_bind, Operation.ensures_note,
        Operation.ensures_modifyMachine, Operation.ensures_throw]
      exact Or.inr ⟨⟨_, hfield, rfl⟩, trivial, .uncounted hcounted⟩
    | ok count =>
      rw [hreply] at hcounted
      simp only
      split
      · rename_i hcrowded
        simp only [fail, showErrorScreen, Operation.ensures_bind, Operation.ensures_note,
          Operation.ensures_modifyMachine, Operation.ensures_throw]
        exact Or.inr ⟨⟨_, hfield, rfl⟩, trivial, .crowded hcounted hcrowded⟩
      · rename_i hroom
        have hfits : (t.machine.newSession kind confirmation intent count).Fits C :=
          newSession_fits he.config hcounted hroom
        simp only [Operation.ensures_bind, ensures_setSession, ensures_setState]
        refine Operation.Ensures.mono
          (load_forward (s := t.machine.newSession kind confirmation intent count) hp hfits
            he.config rfl (newSession_spans hfits) hfield) fun r t' hr => ?_
        cases r with
        | error cause => exact Or.inr ⟨hr.1.congr rfl rfl, trivial, .fails hr.2⟩
        | ok found =>
          obtain ⟨-, d, w, hland, ht'⟩ := hr
          simp only [Operation.ensures_pure, ht']
          exact .begin hstate hfits hland
  · simp only [ne_eq, hstate, not_false_eq_true, ↓reduceIte, Operation.ensures_bind,
      Operation.ensures_throw]
    exact Or.inl ⟨rfl, trivial, by decide⟩

theorem finish_ensures (p : Provider σ) (approved : Bool)
    {post : Except Error Output → Sitting Engine σ → Prop} :
    (finish p approved).Ensures t post ↔
      post (.ok (if approved then .approved else .rejected)) { t with
        machine := { t.machine with
          session := none, field := t.machine.field.wipe, state := .idle }
        content := p.conclude (if approved then .accepted else .rejected) t.content
        journal := (p.remarks (if approved then .accepted else .rejected)).reverse ++
          .completed approved :: t.journal } := by
  cases approved <;> exact Operation.ensures_iff_of_eq rfl

theorem approve_ensures (p : Provider σ) (t : Sitting Engine σ) :
    (approve p).Ensures t fun r t' =>
      t.machine.Yields C (t.machine.canApprove = false) False t.machine.Ends r t'.machine := by
  rw [approve]
  simp only [Operation.ensures_bind, Operation.ensures_machine]
  split
  · rename_i hcan
    rw [finish_ensures]
    exact .approve hcan
  · rename_i hcan
    simp only [Operation.ensures_throw]
    exact Or.inl ⟨rfl, by simpa using hcan, by decide⟩

theorem reject_ensures (p : Provider σ) (he : Sound C t.machine) :
    (reject p).Ensures t fun r t' =>
      t.machine.Yields C (t.machine.session = none) False t.machine.Ends r t'.machine := by
  rw [reject]
  simp only [Operation.ensures_bind, Operation.ensures_machine]
  split
  · rename_i hidle
    simp only [Operation.ensures_throw]
    exact Or.inl ⟨rfl, he.session_eq_none (Or.inl hidle), by decide⟩
  · rename_i herror
    simp only [Operation.ensures_throw]
    exact Or.inl ⟨rfl, he.session_eq_none (Or.inr herror), by decide⟩
  · rename_i hidle herror
    rw [finish_ensures]
    obtain ⟨s, hs⟩ := he.exists_session hidle herror
    exact .reject hs

theorem acknowledge_ensures (p : Provider σ) (t : Sitting Engine σ) :
    (acknowledge p).Ensures t fun r t' =>
      t.machine.Yields C (t.machine.state ≠ .error) False t.machine.Ends r t'.machine := by
  rw [acknowledge]
  simp only [Operation.ensures_bind, Operation.ensures_machine]
  by_cases hstate : t.machine.state = .error
  · simp only [hstate, ne_eq, not_true_eq_false, ↓reduceIte, Operation.ensures_bind,
      Operation.ensures_modifyMachine, Operation.ensures_conclude, Operation.ensures_pure]
    exact .acknowledge hstate
  · simp only [ne_eq, hstate, not_false_eq_true, ↓reduceIte, Operation.ensures_bind,
      Operation.ensures_throw]
    exact Or.inl ⟨rfl, trivial, by decide⟩

theorem sound_of_begins (he : Sound C e) (h : Begins C e kind confirmation intent out e') :
    Sound C e' := by
  cases h with
  | begin _ hfits hland =>
    refine sound_showing he.config hfits (newSession_spans hfits) ?_ hland
    obtain ⟨text, -, hnew⟩ := e.newSession_eq kind confirmation intent _
    rw [hnew]
    rfl

theorem sound_of_ends (he : Sound C e) (h : Ends e out e') : Sound C e' := by
  have hwipe := C.field_wipe e.field he.field
  cases h with
  | approve => exact ⟨he.config, hwipe, .idle rfl rfl⟩
  | reject => exact ⟨he.config, hwipe, .idle rfl rfl⟩
  | acknowledge hstate => exact ⟨he.config, hwipe, .idle rfl (he.session_eq_none (Or.inr hstate))⟩

theorem sound_errorScreen (he : Sound C e) (text : String × String) :
    Sound C (e.errorScreen text) :=
  ⟨he.config, C.field_setValue _ _ (C.field_setKey _ _ (C.field_wipe _ he.field)), .error rfl rfl⟩

end Engine
end WalletReview
