import WalletReview.Proofs.StaticRuns
import WalletReview.Proofs.Upholds

/-! The field of a review without a cursor. It starts blank, and only the provider writes on it, so
that whatever the provider keeps of a field holds of the one that it is given. -/
namespace WalletReview

variable {σ α β : Type} {config : Config} {p : Provider σ}

/-- Fields as they come up in a review: blank at first, then cleared, wiped, and written on by the
provider. -/
inductive Provider.Meets (p : Provider σ) (config : Config) : Field → Prop
  | blank : p.Meets config (.blank config)
  | clear {f : Field} : p.Meets config f → p.Meets config f.clear
  | wipe {f : Field} : p.Meets config f → p.Meets config f.wipe
  | item {f : Field} (index page : UInt8) (st : σ) : p.Meets config f →
    p.Meets config (p.item index page f st).2.1

theorem Provider.Meets.clean {pages : List UInt8} {x : Content} (h : p.Constant config pages x)
    {f : Field} (hf : p.Meets config f) : f.Clean config := by
  induction hf with
  | blank => exact Field.clean_blank
  | clear _ ih => exact ih.clear
  | wipe _ ih => exact ih.wipe
  | item index page st _ ih => exact h.clean index page _ st ih

namespace StaticReview

variable {t : Sitting StaticReview (Recorded σ)} {steps : List Step}

theorem askItem_tells (item page : UInt8) :
    (askItem p.recorded item page).Ensures t fun r t' =>
      (p.item item page t.machine.field t.content.content).1 = r ∧
        t'.machine.field = (p.item item page t.machine.field t.content.content).2.1 ∧
        t'.content.exchanges = ⟨.item item page, .count r⟩ :: t.content.exchanges := by
  rw [ensures_askItem]
  exact ⟨rfl, rfl, rfl⟩

/-- Where the field is one that comes up in a review, so is the one that the operation leaves. -/
def Meets (p : Provider σ) (config : Config) (op : Operation StaticReview (Recorded σ) α) : Prop :=
  ∀ t, p.Meets config t.machine.field → op.Upholds t fun _ t' => p.Meets config t'.machine.field

section

variable {op : Operation StaticReview (Recorded σ) α}

theorem meets_pure (a : α) : Meets p config (pure a) := fun _ h => Operation.upholds_pure.2 h

theorem meets_throw (cause : Error) :
    Meets p config (throw cause : Operation StaticReview (Recorded σ) α) :=
  fun _ h => Operation.upholds_throw.2 h

theorem Meets.bind {f : α → Operation StaticReview (Recorded σ) β} (h : Meets p config op)
    (hf : ∀ a, Meets p config (f a)) : Meets p config (op >>= f) := by
  intro t ht
  rw [Operation.upholds_bind]
  refine (h t ht).mono fun r t' ht' => ?_
  cases r with
  | ok a => exact hf a t' ht'
  | error cause => exact ht'

theorem Meets.unless {cond : Prop} [Decidable cond] {cause : Error} (h : Meets p config op) :
    Meets p config (if cond then (do let _ : Unit ← throw cause; op) else op) := by
  split
  · exact (meets_throw cause).bind fun _ => h
  · exact h

theorem Meets.map (h : Meets p config op) (f : α → β) : Meets p config (f <$> op) :=
  fun t ht => Operation.upholds_map.2 (h t ht)

theorem Meets.attempt (h : Meets p config op) : Meets p config op.attempt :=
  fun t ht => Operation.upholds_attempt.2 (h t ht)

theorem meets_machine :
    Meets p config (Operation.machine : Operation StaticReview (Recorded σ) StaticReview) :=
  fun _ h => Operation.upholds_machine.2 h

theorem meets_modifyMachine {f : StaticReview → StaticReview}
    (h : ∀ r, p.Meets config r.field → p.Meets config (f r).field) :
    Meets p config (Operation.modifyMachine f : Operation StaticReview (Recorded σ) Unit) :=
  fun _ ht => Operation.upholds_modifyMachine.2 (h _ ht)

theorem meets_clear :
    Meets p config (modifyField Field.clear : Operation StaticReview (Recorded σ) Unit) :=
  meets_modifyMachine fun _ => .clear

theorem meets_liftM (x : Checked α) :
    Meets p config (liftM x : Operation StaticReview (Recorded σ) α) :=
  fun _ h => Operation.upholds_liftM.2 fun _ _ => h

theorem meets_note (notice : Notice) :
    Meets p config (Operation.note notice : Operation StaticReview (Recorded σ) Unit) :=
  fun _ h => Operation.upholds_note.2 h

theorem meets_conclude (outcome : Outcome) :
    Meets p config (Operation.conclude p.recorded outcome) :=
  fun _ h => Operation.upholds_conclude.2 h

theorem meets_askItem (item page : UInt8) : Meets p config (askItem p.recorded item page) :=
  fun _ h => ((askItem_tells item page).mono fun _ _ hr => hr.2.1 ▸ h.item item page _).upholds

theorem meets_askItems : Meets p config (askItems p.recorded) :=
  fun _ h => (askItems_asked.mono fun _ _ hr => hr.2.2 ▸ h).upholds

theorem meets_sumPages (items : List UInt8) (sum : UInt16) :
    Meets p config (sumPages p.recorded items sum) := by
  induction items generalizing sum with
  | nil => exact meets_pure sum
  | cons item rest ih =>
    exact (meets_askItem item 0).bind fun _ => (meets_liftM _).bind fun _ => ih _

theorem meets_totalPairs : Meets p config (totalPairs p.recorded) := by
  refine meets_machine.bind fun r => ?_
  cases r.pairCount with
  | some count => exact meets_pure count
  | none =>
    exact meets_askItems.bind fun items => (meets_sumPages items 0).bind fun count =>
      meets_clear.bind fun _ => .bind (meets_modifyMachine fun _ h => h) fun _ => meets_pure count

theorem meets_totalScreens : Meets p config (totalScreens p.recorded) :=
  meets_totalPairs.bind fun _ => meets_machine.bind fun _ => (meets_liftM _).bind fun _ =>
    (meets_liftM _).bind fun _ => meets_pure _

theorem meets_locateFrom (index : UInt16) (items : List UInt8) (base : UInt16) :
    Meets p config (locateFrom p.recorded index items base) := by
  induction items generalizing base with
  | nil => exact meets_throw _
  | cons item rest ih =>
    refine (meets_askItem item 0).bind fun _ => (meets_liftM _).bind fun next => ?_
    split
    · exact (meets_liftM _).bind fun _ => meets_pure _
    · exact ih next

theorem meets_pairAt (index : UInt16) (out : Pair) : Meets p config (pairAt p.recorded index out) :=
  (meets_askItems.bind fun items => meets_locateFrom index items 0).bind fun place =>
    meets_clear.bind fun _ => (meets_askItem place.item place.page).bind fun _ =>
      meets_machine.bind fun _ => meets_clear.bind fun _ => meets_pure _

theorem meets_collectPairs (count : Nat) (index : UInt16) (pairs : List Pair) :
    Meets p config (collectPairs p.recorded count index pairs) := by
  induction count generalizing index pairs with
  | zero => exact meets_pure pairs
  | succ count ih =>
    refine (meets_pairAt index .empty).bind fun pair => ?_
    split
    · exact ih _ _
    · exact meets_throw _

theorem meets_renderScreen (n : UInt16) : Meets p config (renderScreen p.recorded n) := by
  refine meets_totalScreens.bind fun screens => ?_
  apply Meets.unless
  exact meets_machine.bind fun _ => (meets_liftM _).bind fun _ => (meets_liftM _).bind fun _ =>
    meets_totalPairs.bind fun _ => (meets_collectPairs _ _ _).bind fun pairs =>
      (meets_note _).bind fun _ => meets_pure pairs

theorem meets_screenAt (n : UInt16) : Meets p config (screenAt p.recorded n) := by
  refine meets_machine.bind fun r => ?_
  have hkeep (pairs : List Pair) : Meets p config (do
      Operation.modifyMachine fun r : StaticReview =>
        { r with shown := some (n, pairs), reached := some (max (r.reached.getD n) n) }
      return pairs) :=
    .bind (meets_modifyMachine fun _ h => h) fun _ => meets_pure pairs
  apply Meets.unless
  cases r.shown with
  | none => exact (meets_renderScreen n).bind hkeep
  | some last =>
    obtain ⟨m, pairs⟩ := last
    by_cases hm : m = n
    · simp only [if_pos hm]
      exact (meets_pure pairs).bind hkeep
    · simp only [if_neg hm]
      exact (meets_renderScreen n).bind hkeep

theorem meets_isComplete : Meets p config (isComplete p.recorded) := by
  refine meets_totalScreens.attempt.bind fun screens => ?_
  cases screens with
  | error cause => exact meets_pure false
  | ok screens =>
    simp only
    split
    · exact meets_pure true
    · refine meets_machine.bind fun r => ?_
      cases r.reached with
      | none => exact meets_pure false
      | some reached => exact (meets_liftM _).bind fun _ => meets_pure _

theorem meets_finish (approved : Bool) : Meets p config (finish p.recorded approved) := by
  refine meets_machine.bind fun r => ?_
  split
  · exact meets_pure false
  have hend (allowed : Bool) : Meets p config (do
      if !allowed then return false
      Operation.modifyMachine fun r : StaticReview =>
        { r with finished := true, shown := none, field := r.field.wipe }
      Operation.conclude p.recorded (if approved then .accepted else .rejected)
      return true) := by
    cases allowed with
    | false => exact meets_pure false
    | true =>
      exact .bind (meets_modifyMachine fun _ => .wipe) fun _ =>
        (meets_conclude _).bind fun _ => meets_pure true
  cases approved with
  | false => exact (meets_pure true).bind hend
  | true => exact meets_isComplete.bind hend

theorem meets_perform (call : Call) : Meets p config (call.perform p.recorded) := by
  cases call with
  | totalPairs => exact meets_totalPairs.map _
  | totalScreens => exact meets_totalScreens.map _
  | pairAt index out =>
    refine Meets.map ((meets_pairAt index out).attempt.bind fun written => ?_) _
    cases written with
    | error cause => exact meets_pure _
    | ok pair => exact meets_pure _
  | screenAt n => exact (meets_screenAt n).map _
  | isComplete => exact meets_isComplete.map _
  | finish approved => exact (meets_finish approved).map _

end

theorem Run.meets (h : Run p config steps t) : p.Meets config t.machine.field := by
  induction h with
  | start content => exact .blank
  | call call _ hact ih => exact meets_perform call _ ih _ _ hact
  | meddle content _ ih => exact ih

end StaticReview

end WalletReview
