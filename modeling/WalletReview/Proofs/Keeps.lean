import WalletReview.Engine.Inspect
import WalletReview.Proofs.Upholds

/-! Invariants of the conversation between an engine and its provider. They relate the exchanges on
record to the state and the session of the engine; the field and the journal have no part in them.
An operation keeps an invariant if each of its parts does. -/
namespace WalletReview.Engine

variable {σ α β : Type}

abbrev Invariant := List Exchange → State → Option Session → Prop

def Invariant.At (I : Invariant) (t : Sitting Engine (Recorded σ)) : Prop :=
  I t.content.exchanges t.machine.state t.machine.session

/-- Wherever the invariant holds, it holds of what the operation leaves behind. -/
def Keeps (I : Invariant) (op : Operation Engine (Recorded σ) α) : Prop :=
  ∀ t, I.At t → op.Upholds t fun _ t' => I.At t'

variable {I : Invariant} {op : Operation Engine (Recorded σ) α}

theorem keeps_pure (a : α) : Keeps I (pure a : Operation Engine (Recorded σ) α) :=
  fun _ h => Operation.upholds_pure.2 h

theorem keeps_throw (cause : Error) :
    Keeps I (throw cause : Operation Engine (Recorded σ) α) :=
  fun _ h => Operation.upholds_throw.2 h

theorem Keeps.bind {f : α → Operation Engine (Recorded σ) β} (h : Keeps I op)
    (hf : ∀ a, Keeps I (f a)) : Keeps I (op >>= f) := by
  intro t ht
  rw [Operation.upholds_bind]
  refine (h t ht).mono fun r t' ht' => ?_
  cases r with
  | ok a => exact hf a t' ht'
  | error cause => exact ht'

theorem Keeps.seq {next : Operation Engine (Recorded σ) β} (h : Keeps I op)
    (hnext : Keeps I next) : Keeps I (do let _ ← op; next) :=
  h.bind fun _ => hnext

theorem keeps_loop {round : Operation Engine (Recorded σ) (Option α)} (h : Keeps I round)
    (hafter : Keeps I op) (rounds : Nat) : Keeps I (Operation.loop round op rounds) := by
  induction rounds with
  | zero => exact hafter
  | succ rounds ih =>
    apply h.bind
    rintro (_ | a)
    · exact ih
    · exact keeps_pure a

theorem Keeps.unless {cond : Prop} [Decidable cond] {cause : Error} (h : ¬cond → Keeps I op) :
    Keeps I (if cond then (do let _ : Unit ← throw cause; op) else op) := by
  split
  · intro t ht
    rw [Operation.upholds_bind, Operation.upholds_throw]
    exact ht
  · exact h ‹_›

theorem keeps_machine {f : Engine → Operation Engine (Recorded σ) α}
    (hf : ∀ t : Sitting Engine (Recorded σ), I.At t → Keeps I (f t.machine)) :
    Keeps I (Operation.machine >>= f) := by
  intro t ht
  rw [Operation.upholds_bind, Operation.upholds_machine]
  exact hf t ht t ht

theorem keeps_note (notice : Notice) :
    Keeps I (Operation.note notice : Operation Engine (Recorded σ) Unit) :=
  fun _ h => Operation.upholds_note.2 h

theorem keeps_modifyField (f : Field → Field) :
    Keeps I (modifyField f : Operation Engine (Recorded σ) Unit) :=
  fun _ h => upholds_modifyField.2 h

theorem keeps_setText (text : String × String) :
    Keeps I (setText text : Operation Engine (Recorded σ) Unit) :=
  keeps_modifyField _

theorem keeps_liftM {x : Checked α} {f : α → Operation Engine (Recorded σ) β}
    (hf : ∀ a, x = .ok a → Keeps I (f a)) : Keeps I (liftM x >>= f) := by
  intro t ht
  rw [Operation.upholds_bind, Operation.upholds_liftM]
  intro a ha
  exact hf a ha t ht

theorem keeps_setState {state : State} (h : ∀ log st s, I log st s → I log state s) :
    Keeps I (setState state : Operation Engine (Recorded σ) Unit) :=
  fun _ ht => upholds_setState.2 (h _ _ _ ht)

theorem keeps_getSession {f : Session → Operation Engine (Recorded σ) α}
    (hf : ∀ log st s, I log st (some s) → Keeps I (f s)) : Keeps I (getSession >>= f) := by
  intro t ht
  rw [Operation.upholds_bind, upholds_getSession]
  split
  · rename_i s hs
    refine hf t.content.exchanges t.machine.state s ?_ t ht
    rwa [Invariant.At, hs] at ht
  · exact ht

theorem keeps_getInspection {f : Inspection → Operation Engine (Recorded σ) α}
    (hf : ∀ log st s i, I log st (some s) → s.inspection = some i → Keeps I (f i)) :
    Keeps I (getInspection >>= f) := by
  intro t ht
  rw [Operation.upholds_bind, upholds_getInspection]
  split
  · rename_i i hi
    obtain ⟨s, hs, hi⟩ := Option.bind_eq_some_iff.1 hi
    refine hf t.content.exchanges t.machine.state s i ?_ hi t ht
    rwa [Invariant.At, hs] at ht
  · exact ht

theorem keeps_setSession {s : Session} (h : ∀ log st s', I log st s' → I log st (some s)) :
    Keeps I (setSession s : Operation Engine (Recorded σ) Unit) :=
  fun _ ht => upholds_setSession.2 (h _ _ _ ht)

theorem keeps_setInspection {i : Inspection} (h : ∀ log st session, I log st session →
      I log st (session.map fun s => { s with inspection := some i })) :
    Keeps I (setInspection i : Operation Engine (Recorded σ) Unit) :=
  fun _ ht => upholds_setInspection.2 (h _ _ _ ht)

theorem keeps_ask {question : Recorded σ → α × Recorded σ}
    (h : ∀ r st s, I r.exchanges st s → I (question r).2.exchanges st s) :
    Keeps I (Operation.ask question : Operation Engine (Recorded σ) α) :=
  fun t ht => Operation.upholds_ask.2 (h t.content _ _ ht)

theorem keeps_askField {question : Field → Recorded σ → Except Error α × Field × Recorded σ}
    (h : ∀ f r st s, I r.exchanges st s → I (question f r).2.2.exchanges st s) :
    Keeps I (askField question) :=
  fun t ht => upholds_askField.2 (h t.machine.field t.content _ _ ht)

theorem Keeps.attempt (h : Keeps I op) : Keeps I op.attempt :=
  fun t ht => Operation.upholds_attempt.2 (h t ht)

theorem keeps_showErrorScreen (upper lower : String)
    (h : ∀ log st s, I log st s → I log .error none) :
    Keeps I (showErrorScreen upper lower : Operation Engine (Recorded σ) Unit) :=
  fun _ ht => Operation.upholds_modifyMachine.2 (h _ _ _ ht)

theorem keeps_fail (cause : Error) (h : ∀ log st s, I log st s → I log .error none) :
    Keeps I (fail cause : Operation Engine (Recorded σ) α) :=
  (keeps_note _).seq ((keeps_showErrorScreen _ _ h).seq (keeps_throw cause))

/-- A review that is aborted has no session left, and an error on screen. -/
theorem keeps_loading {body : Operation Engine (Recorded σ) Bool} (h : Keeps I body)
    (hfail : ∀ log st s, I log st s → I log .error none) : Keeps I (loading body) := by
  apply h.attempt.bind
  intro reply
  cases reply with
  | ok found => exact (keeps_modifyField _).seq (keeps_pure _)
  | error cause => exact keeps_fail cause hfail

theorem keeps_loadPage {cursor : Cursor} {pages : UInt8}
    {setCursor : Cursor → Operation Engine (Recorded σ) Unit}
    {query : UInt8 → Operation Engine (Recorded σ) UInt8}
    (hset : ∀ c, c.item = cursor.item → c.itemCount = cursor.itemCount → Keeps I (setCursor c))
    (hquery : ∀ page, Keeps I (query page)) : Keeps I (loadPage cursor pages setCursor query) := by
  have hclamp : (cursor.clamp pages).1.item = cursor.item ∧
      (cursor.clamp pages).1.itemCount = cursor.itemCount := by
    unfold Cursor.clamp
    split
    · split
      · exact ⟨rfl, rfl⟩
      · exact ⟨rfl, rfl⟩
    · exact ⟨rfl, rfl⟩
  unfold loadPage
  generalize cursor.clamp pages = clamped at hclamp
  obtain ⟨c, beyond⟩ := clamped
  obtain ⟨hitem, hcount⟩ := hclamp
  apply (hset c hitem hcount).seq
  apply keeps_machine
  intro t _
  cases beyond with
  | true =>
    apply (keeps_modifyField _).seq
    apply (hquery _).bind
    intro last
    have hlast := (hset { c with pageCount := last } hitem hcount).seq
      (keeps_modifyField (·.labelKey c.page last t.machine.config.labelStyle))
    split
    · exact (keeps_throw _).seq hlast
    · exact hlast
  | false =>
    simp only [Bool.false_eq_true, ↓reduceIte]
    apply keeps_modifyField

end WalletReview.Engine
