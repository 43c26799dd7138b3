import WalletReview.Proofs.Adapter
import WalletReview.Proofs.Unfailing
import WalletReview.Proofs.Upholds

/-! Reviews of documents of any width. A field with more children than a byte can count cannot be
gone into, and the attempt has the review given up. But that is not passed over: where the answer is
that nothing has changed, nothing has. And going back up leads to levels that have been counted
before, so that nothing is given up on the way. -/
namespace WalletReview

variable {σ α β : Type} {config : Config} {C : Contract config} {d : Document}

/-- The causes that pass for no change on the way into a field. -/
def passing : List Error := [.notInspectable, .maxDepth]

/-- At questions about children, the provider does not fail for a cause that passes for no change.
-/
structure Provider.Plain (p : Provider σ) : Prop where
  childCount : ∀ path st, ∀ cause ∈ passing, (p.childCount path st).1 ≠ .error cause
  child : ∀ path child page f st, ∀ cause ∈ passing,
    (p.child path child page f st).1 ≠ .error cause

theorem Provider.Plain.recorded {p : Provider σ} (h : p.Plain) : p.recorded.Plain where
  childCount path st := h.childCount path st.content
  child path child page f st := h.child path child page f st.content

theorem Provider.Plain.fixed {p : Provider σ} (h : p.Plain) (st : σ) : (p.fixed st).Plain where
  childCount path _ := h.childCount path st
  child path child page f _ := h.child path child page f st

theorem Document.plain : provider.Plain where
  childCount path r cause hcause := by
    simp only [provider]
    split
    · rw [countReply]
      split
      · simp
      · rintro ⟨⟩
        simp [passing] at hcause
    · rintro ⟨⟩
      simp [passing] at hcause
  child path child page f r cause hcause := by
    simp only [provider, writeItem]
    split
    · simp
    · rintro ⟨⟩
      simp [passing] at hcause

namespace Engine

/-- The operation is not refused for a cause that passes for no change. -/
def Plain (op : Operation Engine σ α) : Prop :=
  ∀ s, op.Upholds s fun r _ => ∀ cause ∈ passing, r ≠ .error cause

variable {p : Provider σ} {op : Operation Engine σ α} {dir : Direction}

theorem plain_pure (a : α) : Plain (pure a : Operation Engine σ α) := fun _ => by simp

theorem plain_throw {cause : Error} (h : cause ∉ passing) :
    Plain (throw cause : Operation Engine σ α) := by
  intro s
  rw [Operation.upholds_throw]
  rintro _ hcause ⟨⟩
  exact h hcause

theorem Plain.bind {f : α → Operation Engine σ β} (h : Plain op) (hf : ∀ a, Plain (f a)) :
    Plain (op >>= f) := by
  intro s
  rw [Operation.upholds_bind]
  refine (h s).mono fun r s' hr => ?_
  cases r with
  | ok a => exact hf a s'
  | error cause =>
    rintro _ hcause ⟨⟩
    exact hr cause hcause rfl

theorem Plain.seq {next : Operation Engine σ β} (h : Plain op) (hnext : Plain next) :
    Plain (do let _ ← op; next) :=
  h.bind fun _ => hnext

theorem Plain.loop {round : Operation Engine σ (Option α)} (h : Plain round) (hafter : Plain op)
    (rounds : Nat) : Plain (Operation.loop round op rounds) := by
  induction rounds with
  | zero => exact hafter
  | succ rounds ih =>
    apply h.bind
    rintro (_ | a)
    · exact ih
    · exact plain_pure a

theorem plain_machine : Plain (Operation.machine : Operation Engine σ Engine) := fun _ => by simp

theorem plain_note (notice : Notice) :
    Plain (Operation.note notice : Operation Engine σ Unit) := fun _ => by simp

theorem plain_setState (state : State) :
    Plain (setState state : Operation Engine σ Unit) := fun _ => by simp

theorem plain_modifyField (f : Field → Field) :
    Plain (modifyField f : Operation Engine σ Unit) := fun _ => by simp

theorem plain_setInspection (i : Inspection) :
    Plain (setInspection i : Operation Engine σ Unit) := fun _ => by simp

theorem plain_liftM (x : Checked α) : Plain (liftM x : Operation Engine σ α) := fun _ => by simp

theorem plain_getInspection : Plain (getInspection : Operation Engine σ Inspection) := by
  intro s
  rw [upholds_getInspection]
  split
  · simp
  · rintro _ hcause ⟨⟩
    simp [passing] at hcause

theorem plain_askField {question : Field → σ → Except Error α × Field × σ}
    (h : ∀ f st, ∀ cause ∈ passing, (question f st).1 ≠ .error cause) : Plain (askField question) :=
  fun _ => upholds_askField.2 (h _ _)

theorem plain_settleAsk {question : σ → Except Error α × σ}
    (h : ∀ st, ∀ cause ∈ passing, (question st).1 ≠ .error cause) {f : α → Operation Engine σ β}
    (hf : ∀ a, Plain (f a)) :
    Plain (do
      let a ← Operation.settle (← Operation.ask question)
      f a) := by
  intro s
  simp only [Operation.upholds_bind, Operation.upholds_ask, Operation.upholds_settle]
  have hreply := h s.content
  cases hr : (question s.content).1 with
  | ok a => exact hf a _
  | error cause =>
    rintro _ hcause ⟨⟩
    exact hreply cause hcause hr

theorem plain_loadPage {cursor : Cursor} {pages : UInt8}
    {setCursor : Cursor → Operation Engine σ Unit} {query : UInt8 → Operation Engine σ UInt8}
    (hset : ∀ c, Plain (setCursor c)) (hquery : ∀ page, Plain (query page)) :
    Plain (loadPage cursor pages setCursor query) := by
  unfold loadPage
  generalize cursor.clamp pages = clamped
  obtain ⟨c, beyond⟩ := clamped
  apply (hset c).seq
  apply plain_machine.bind
  intro e
  cases beyond with
  | true =>
    apply (plain_modifyField _).seq
    apply (hquery _).bind
    intro last
    split
    · exact (plain_throw (by decide)).seq ((hset _).seq (plain_modifyField _))
    · exact (hset _).seq (plain_modifyField _)
  | false =>
    simp only [Bool.false_eq_true, ↓reduceIte]
    apply plain_modifyField

theorem plain_childRound (hp : p.Plain) : Plain (childRound p dir) := by
  apply plain_getInspection.bind
  intro i
  apply (plain_modifyField _).seq
  split
  · exact (plain_modifyField _).seq ((plain_setInspection _).seq (plain_pure _))
  · split
    · exact (plain_setInspection _).seq (plain_pure _)
    · rename_i child _
      apply (plain_liftM _).bind
      intro path
      apply (plain_askField (hp.child path child i.cursor.page)).bind
      intro pages
      split
      · cases dir with
        | forward =>
          simp only
          split
          · apply (plain_liftM _).bind
            intro item
            exact (plain_setInspection _).seq (plain_pure _)
          · apply plain_pure
        | backward =>
          simp only
          split
          · exact (plain_setInspection _).seq (plain_pure _)
          · apply plain_pure
      · have hpage : Plain (loadPage i.cursor pages
            (fun cursor => setInspection { i with cursor })
            (fun page => askField (p.child path child page))) :=
          plain_loadPage (fun _ => plain_setInspection _)
            fun page => plain_askField (hp.child path child page)
        exact hpage.seq (plain_pure _)

theorem Plain.loading {body : Operation Engine σ Bool} (h : Plain body) :
    Plain (Engine.loading body) := by
  intro s
  simp only [Engine.loading, Operation.upholds_bind, Operation.upholds_attempt]
  refine (h s).mono fun r s' hr => ?_
  cases r with
  | ok found => simp [Except.map]
  | error cause =>
    simp only [fail, showErrorScreen, Operation.upholds_bind, Operation.upholds_note,
      Operation.upholds_modifyMachine, Operation.upholds_throw]
    rintro _ hcause ⟨⟩
    exact hr cause hcause rfl

theorem plain_loadChild (hp : p.Plain) : Plain (loadChild p dir) := by
  apply Plain.loading
  apply plain_getInspection.bind
  intro i
  apply (plain_liftM _).bind
  intro path
  apply plain_settleAsk (hp.childCount path)
  intro count
  exact (plain_setInspection _).seq ((plain_childRound hp).loop (plain_throw (by decide)) _)

/-- Refused for a cause that passes for no change, the operation has left the engine as it was. -/
def Stays (op : Operation Engine σ α) : Prop :=
  ∀ t, op.Upholds t fun r t' => ∀ cause ∈ passing, r = .error cause → t'.machine = t.machine

theorem Plain.stays (h : Plain op) : Stays op :=
  fun t => (h t).mono fun _ _ hr cause hcause heq => absurd heq (hr cause hcause)

theorem stays_throw (cause : Error) : Stays (throw cause : Operation Engine σ α) := fun _ => by simp

theorem Stays.after {f : α → Operation Engine σ β}
    (h : ∀ t, op.Upholds t fun _ t' => t'.machine = t.machine) (hf : ∀ a, Stays (f a)) :
    Stays (op >>= f) := by
  intro t
  rw [Operation.upholds_bind]
  refine (h t).mono fun r t' ht' => ?_
  cases r with
  | ok a => exact (hf a t').mono fun _ _ hr cause hcause heq => (hr cause hcause heq).trans ht'
  | error cause => exact fun _ _ _ => ht'

theorem Stays.unless {cond : Prop} [Decidable cond] {cause : Error} (h : Stays op) :
    Stays (if cond then (do let _ : Unit ← throw cause; op) else op) := by
  split
  · exact .after (fun _ => by simp) fun _ => h
  · exact h

theorem stays_enterInspect (hp : p.Plain) : Stays (enterInspect p) := by
  apply Stays.after fun _ => by simp
  intro e
  apply Stays.unless
  apply Stays.after fun t => by rw [upholds_getSession]; split <;> rfl
  intro s
  split
  · apply stays_throw
  · apply Stays.after fun _ => by simp
    intro allowed
    split
    · exact ((plain_note _).seq ((plain_setInspection _).seq ((plain_setState _).seq
        ((plain_loadChild hp).seq (plain_pure _))))).stays
    · apply stays_throw

theorem descendInto_machine (i : Inspection) (child : UInt8) (t : Sitting Engine σ) :
    (i.descend p child : Operation Engine σ Inspection).Upholds t fun _ t' =>
      t'.machine = t.machine := by
  rw [Inspection.descend]
  split
  · simp
  · simp only [Operation.upholds_bind, Operation.upholds_liftM, Operation.upholds_ask]
    intro path _
    split <;> simp

theorem stays_descend (hp : p.Plain) : Stays (descend p) := by
  apply Stays.after fun _ => by simp
  intro e
  apply Stays.unless
  apply Stays.after fun t => by rw [upholds_getInspection]; split <;> rfl
  intro i
  split
  · apply stays_throw
  · rename_i child _
    apply Stays.after (descendInto_machine i child)
    intro j
    apply Plain.stays
    apply (plain_setInspection _).seq
    apply (plain_liftM _).bind
    intro path
    exact (plain_note _).seq ((plain_loadChild hp).seq (plain_pure _))

variable {t t' : Sitting Engine (Recorded σ)} {event : Event}

/-- Where nothing is said to have changed, an error screen that is on was on before. -/
def Admits (t : Sitting Engine (Recorded σ)) (r : Except Error Output)
    (t' : Sitting Engine (Recorded σ)) : Prop :=
  r = .ok .none → t'.machine.state = .error → t.machine.state = .error ∨ t'.machine = t.machine

theorem orNothing_admits {causes : List Error} {op : Operation Engine (Recorded σ) Output}
    (hcauses : ∀ cause ∈ causes, cause ∈ passing) (hsilent : Silent true op) (hstays : Stays op) :
    (orNothing causes op).Upholds t (Admits t) := by
  simp only [orNothing, Operation.upholds_bind, Operation.upholds_attempt]
  intro r t' hr
  cases r with
  | ok out =>
    refine Operation.upholds_pure.2 fun _ herror => ?_
    rcases (hsilent t _ t' hr).failed herror with hstart | ⟨-, cause, notes, hcause, -⟩
    · exact Or.inl hstart
    · cases hcause
  | error cause =>
    simp only
    split
    · rename_i hcause
      exact Operation.upholds_pure.2 fun _ _ =>
        Or.inr (hstays t _ t' hr cause (hcauses _ hcause) rfl)
    · exact Operation.upholds_throw.2 fun h => by cases h

theorem select_admits (hp : p.Plain) (htolerated : t.machine.tolerated .select ≠ []) :
    (select p.recorded).Upholds t (Admits t) := by
  rw [select, Loader.select, Operation.upholds_bind]
  refine Operation.upholds_machine.2 ?_
  cases hposition : t.machine.position with
  | item =>
    simp only [hposition]
    exact orNothing_admits (by decide) (silent_enterInspect p) (stays_enterInspect hp.recorded)
  | child =>
    simp only [hposition]
    exact orNothing_admits (by decide) (silent_descend p) (stays_descend hp.recorded)
  | _ => simp [tolerated, hposition] at htolerated

theorem update_admits (hp : p.Plain) (htolerated : t.machine.tolerated event ≠ []) :
    (update p.recorded event).Upholds t (Admits t) := by
  cases event with
  | select =>
    have hselect : (select p.recorded).Upholds
        { t with journal := .event .select t.machine.state :: t.journal } (Admits t) :=
      select_admits hp htolerated
    simp only [update, Loader.update, Operation.upholds_bind, Operation.upholds_machine,
      Operation.upholds_note]
    cases hstate : t.machine.state with
    | idle => simp [tolerated, position, hstate] at htolerated
    | error => simp [tolerated, position, hstate] at htolerated
    | _ =>
      rw [hstate] at hselect
      exact hselect
  | _ => simp [tolerated] at htolerated

/-- In front of a provider that is plain, what is said to have changed nothing has changed nothing,
and neither has a refusal without an error screen. -/
theorem update_stands (hp : p.recorded.Honours C) (he : Sound C t.machine) (hC : C.Determined)
    (hplain : p.Plain) (event : Event) :
    (update p.recorded event).Ensures t fun r t' =>
      (r = .ok .none → t'.machine = t.machine) ∧
      (∀ cause, r = .error cause → t'.machine.state ≠ .error → t'.machine = t.machine) := by
  obtain ⟨r, t', hr, hnone, hrefused⟩ := update_shows hp he hC event
  refine ⟨r, t', hr, fun heq => ?_, hrefused⟩
  rcases hnone heq with hsame | ⟨cause, hcause, hfails⟩
  · exact hsame
  · have htolerated := List.ne_nil_of_mem hcause
    rcases update_admits hplain htolerated r t' hr heq hfails.state with hstate | hsame
    · cases event with
      | select => simp [tolerated, position, hstate] at htolerated
      | _ => simp [tolerated] at htolerated
    · exact hsame

theorem press_stands (hp : p.recorded.Honours C) (he : Sound C t.machine) (hC : C.Determined)
    (hplain : p.Plain) (button : Button) :
    (button.press p.recorded).Ensures t fun r t' => ∃ response, r = .ok response ∧
      (response = .none → t'.machine = t.machine) :=
  press_of_update (update_stands hp he hC hplain (button.event t.machine.position))

end Engine

/-! Ways back. -/

namespace Contract

variable {path : List UInt8} {child : UInt8}

/-- The children at the end of every path on the way down have been counted. -/
def Counted (C : Contract config) (path : List UInt8) : Prop :=
  ∀ above, above ≠ [] → above <+: path → ∃ count, C.childCount above (.ok count)

theorem Counted.above {above : List UInt8} (h : C.Counted path) (habove : above <+: path) :
    C.Counted above :=
  fun other hne hother => h other hne (hother.trans habove)

theorem Counted.concat (h : C.Counted path) {count : UInt8}
    (hcount : C.childCount (path ++ [child]) (.ok count)) : C.Counted (path ++ [child]) := by
  intro above hne habove
  rcases List.prefix_concat_iff.1 habove with rfl | habove
  · exact ⟨count, hcount⟩
  · exact h above hne habove

theorem counted_nil : C.Counted [] := fun _ hne habove => absurd (List.prefix_nil.1 habove) hne

/-- A provider under the contract does not fail at a question for the list, nor at one about
children that it has counted. -/
structure Reliable (C : Contract config) : Prop where
  list : ¬C.Fails
  below : ∀ path count, C.childCount path (.ok count) → ¬Engine.FailsBelow C path

end Contract

namespace Engine

def Counted (C : Contract config) (e : Engine) : Prop :=
  ∀ s i, e.Inspects s i → C.Counted i.chain

variable {p : Provider σ} {t : Sitting Engine σ} {e e' : Engine} {s : Session} {i : Inspection}
  {out : Output}

theorem counted_inspecting {f : Field} (h : C.Counted i.chain) : (e.inspecting s i f).Counted C :=
  inspected_inspecting (P := fun i => C.Counted i.chain) h

theorem counted_of_visits (he : e.Counted C) (h : Visits C e out e') : e'.Counted C := by
  cases h with
  | enter _ _ _ _ hload =>
    obtain ⟨count, d, hcount, rfl, -⟩ := hload
    exact counted_inspecting (Contract.counted_nil.concat hcount)
  | descend hi _ _ _ henter hload =>
    have hchain := Inspection.chain_of_enter henter
    obtain ⟨count, d, hcount, rfl, -⟩ := hload
    rw [hchain] at hcount
    exact counted_inspecting (hchain ▸ (he _ _ hi).concat hcount)
  | ascend hi hascend hload =>
    obtain ⟨child, hchain, -⟩ := Inspection.of_ascend hascend
    obtain ⟨count, d, -, rfl, -⟩ := hload
    exact counted_inspecting ((he _ _ hi).above (hchain ▸ List.prefix_append _ _))
  | leave => exact inspected_of_state (state_showing_ne_inspect _ _ _)
  | stay => exact he
  | @move _ i _ _ _ _ _ hi => exact counted_inspecting (he _ i hi)
  | @miss _ i _ _ _ _ _ _ _ hi _ _ _ hload =>
    obtain ⟨count, d, -, rfl, -⟩ := hload
    exact counted_inspecting (he _ i hi)

/-- On the way up nothing goes wrong that has not gone wrong on the way down. -/
theorem exitLevel_visits (hp : p.Honours C) (he : Sound C t.machine) (hC : C.Reliable)
    (hcounted : t.machine.Counted C) (hi : t.machine.Inspects s i) :
    (exitLevel p).Ensures t fun r t' => ∃ out, r = .ok out ∧ Visits C t.machine out t'.machine := by
  refine (exitLevel_climbs hp he hi).mono fun r t' hr => ?_
  cases r with
  | ok out => exact ⟨out, rfl, hr⟩
  | error cause =>
    obtain ⟨-, hfails | ⟨i', hascend, hfails⟩⟩ := hr
    · exact absurd hfails hC.list
    · obtain ⟨child, hchain, -⟩ := Inspection.of_ascend hascend
      obtain ⟨count, hcount⟩ :=
        hcounted s i hi i'.chain i'.chain_ne_nil (hchain ▸ List.prefix_append _ _)
      exact absurd hfails (hC.below _ count hcount)

/-- What an operation does that cannot have a review aborted, and does not end in approval. -/
def Safe (t : Sitting Engine σ) (r : Except Error Output) (t' : Sitting Engine σ) : Prop :=
  (∀ cause, r = .error cause → t'.machine = t.machine) ∧ .accepted ∉ outcomesOf r

theorem safe_throw (cause : Error) (t : Sitting Engine σ) :
    (throw cause : Operation Engine σ Output).Ensures t (Safe t) :=
  Operation.ensures_throw.2 ⟨fun _ _ => rfl, by simp [outcomesOf]⟩

theorem safe_of_outcomes {t' : Sitting Engine σ} (h : out.outcomes = []) : Safe t (.ok out) t' :=
  ⟨fun cause hr => (by cases hr), by simp [outcomesOf, h]⟩

theorem reject_safe (p : Provider σ) (t : Sitting Engine σ) : (reject p).Ensures t (Safe t) := by
  simp only [reject, Operation.ensures_bind, Operation.ensures_machine]
  split
  · apply safe_throw
  · apply safe_throw
  · rw [finish_ensures]
    exact ⟨fun cause hr => (by cases hr), by simp [outcomesOf, Output.outcomes]⟩

theorem exitLevel_safe (hp : p.Honours C) (he : Sound C t.machine) (hC : C.Reliable)
    (hcounted : t.machine.Counted C) (hstate : t.machine.state = .inspect) :
    (exitLevel p).Ensures t (Safe t) := by
  obtain ⟨s, i, root, f, hi, -⟩ := he.inspect hstate
  refine (exitLevel_visits hp he hC hcounted hi).mono fun r t' hr => ?_
  obtain ⟨out, rfl, hvisits⟩ := hr
  exact safe_of_outcomes hvisits.outcomes

theorem exitToRoot_safe (hp : p.Honours C) (he : Sound C t.machine) (hC : C.Reliable)
    (hstate : t.machine.state = .inspect) : (exitToRoot p).Ensures t (Safe t) := by
  obtain ⟨s, i, root, f, hi, -⟩ := he.inspect hstate
  refine (exitToRoot_leaves hp he hi).mono fun r t' hr => ?_
  cases r with
  | error cause => exact absurd hr.2 hC.list
  | ok out =>
    obtain ⟨rfl, -⟩ := hr
    exact safe_of_outcomes rfl

theorem update_safe (hp : p.Honours C) (he : Sound C t.machine) (hC : C.Reliable)
    (hcounted : t.machine.Counted C) {event : Event}
    (hevent : event = .reject ∨ event = .inspectBack ∨ event = .inspectRoot) :
    (update p event).Ensures t (Safe t) := by
  have hlevel := exitLevel_safe (p := p) (t := { t with
    journal := .event .inspectBack t.machine.state :: t.journal }) hp he hC hcounted
  have hroot := exitToRoot_safe (p := p) (t := { t with
    journal := .event .inspectRoot t.machine.state :: t.journal }) hp he hC
  have hreject := reject_safe p { t with
    journal := .event .reject t.machine.state :: t.journal }
  simp only [update, Loader.update, Operation.ensures_bind, Operation.ensures_machine,
    Operation.ensures_note]
  rcases hevent with rfl | rfl | rfl
  · cases hstate : t.machine.state with
    | idle => apply safe_throw
    | error => apply safe_throw
    | _ =>
      rw [hstate] at hreject
      exact hreject
  · cases hstate : t.machine.state with
    | inspect =>
      rw [hstate] at hlevel
      exact hlevel rfl
    | _ => apply safe_throw
  · cases hstate : t.machine.state with
    | inspect =>
      rw [hstate] at hroot
      exact hroot rfl
    | _ => apply safe_throw

end Engine

namespace Document

theorem written_writeItem (item? : Option Item) (page : UInt8) (f : Field) :
    f.Written (writeItem item? page f).2 := by
  cases item? with
  | none => exact .refl f
  | some item => exact (Field.Written.refl f).setPage _ _ page

theorem writes : provider.Writes where
  item index page f r := written_writeItem r.document.items[index.toNat]? page f
  title f r := by
    simp only [provider]
    split
    · exact ((Field.Written.refl f).setKey _).setValue _
    · exact .refl f
  child path child page f r :=
    written_writeItem (Tree.childBelow? path child r.document.items) page f

theorem toNat_of_countReply {n : Nat} {count : UInt8} (h : countReply n = .ok count) :
    count.toNat = n := by
  rw [countReply] at h
  split at h
  · cases h
    exact UInt8.toNat_ofNat_of_lt' ‹_›
  · cases h

def contract (d : Document) (config : Config) : Contract config :=
  .answered (provider.fixed ⟨d, none⟩).recorded config

theorem honours_contract (d : Document) (config : Config) :
    (provider.fixed ⟨d, none⟩).recorded.Honours (d.contract config) :=
  (writes.fixed _).recorded.answered

theorem determined_contract (d : Document) (config : Config) : (d.contract config).Determined :=
  (provider.fixed_steady ⟨d, none⟩).recorded.determined

theorem not_unsteady (config : Config) {item? : Option Item} {item : Item} (h : item? = some item)
    {answer : (page : UInt8) → Except Error UInt8 → Field → Prop}
    (hanswer : ∀ page r w, answer page r w → r = (writeItem item? page (.blank config)).1) :
    ¬Contract.Unsteady answer := by
  subst h
  rintro (⟨page, cause, w, hpage⟩ | ⟨page, page', pages, last, w, w', hpage, hpage', hne⟩)
  · cases hanswer _ _ _ hpage
  · cases hanswer _ _ _ hpage
    cases hanswer _ _ _ hpage'
    exact hne rfl

theorem childBelow?_of_lt {path : List UInt8} {item : Item}
    (hitem : Tree.find? path d.items = some item) {child count : UInt8}
    (hcount : countReply item.children.length = .ok count) (hlt : child < count) :
    ∃ below, Tree.childBelow? path child d.items = some below := by
  rw [UInt8.lt_iff_toNat_lt, toNat_of_countReply hcount] at hlt
  exact ⟨item.children[child.toNat], by simp [Tree.childBelow?, hitem, hlt]⟩

theorem reliable_contract (d : Document) (config : Config) : (d.contract config).Reliable where
  list := by
    rintro (⟨hcause, st, hreply, -⟩ | ⟨⟨st, hcount⟩, hlt, hunsteady⟩)
    · simp only [Provider.recorded, Provider.fixed, provider] at hreply
      cases htitle : d.title with
      | some text => simp [htitle] at hreply
      | none =>
        simp only [htitle, Except.error.injEq] at hreply
        exact hcause hreply
    · rw [toNat_of_countReply hcount.symm] at hlt
      refine not_unsteady config (List.getElem?_eq_getElem hlt) (fun page r w h => ?_)
        hunsteady
      obtain ⟨st', hr, -⟩ := h
      exact hr
  below path count := by
    rintro ⟨st, hcount⟩ hfails
    simp only [Provider.recorded, Provider.fixed, provider] at hcount
    cases hitem : Tree.find? path d.items with
    | none => simp [hitem] at hcount
    | some item =>
      rcases hfails with ⟨st', hcause⟩ | ⟨⟨st', hcount'⟩, hlt, hunsteady⟩
      · simp only [Provider.recorded, Provider.fixed, provider] at hcause
        cases hcause.trans hcount.symm
      · simp only [Provider.recorded, Provider.fixed, provider, hitem] at hcount'
        obtain ⟨below, hbelow⟩ := childBelow?_of_lt hitem hcount'.symm hlt
        refine not_unsteady config hbelow (fun page r w h => ?_) hunsteady
        obtain ⟨st'', hr, -⟩ := h
        exact hr

end Document
end WalletReview
