import WalletReview.Proofs.Ensures

/-! Contracts of providers. A contract says what a provider may reply to each question on a cleared
field, and names a property of the field that the provider's writing keeps. Everything about a
review is derived from the contract that its provider honours: from `Contract.any` what holds in
front of all providers, from narrower ones what holds if the replies are fixed. -/
namespace WalletReview

structure Contract (config : Config) where
  field : Field → Prop
  itemCount : Except Error UInt8 → Prop
  /-- A reply to the question for a page of an item, with the field as the provider leaves it. -/
  item : (index page : UInt8) → Except Error UInt8 → Field → Prop
  title : Except Error Unit → Field → Prop
  childCount : List UInt8 → Except Error UInt8 → Prop
  child : List UInt8 → (child page : UInt8) → Except Error UInt8 → Field → Prop
  canInspect : List UInt8 → UInt8 → Bool → Prop
  field_clear : ∀ f, field f → field f.clear
  field_wipe : ∀ f, field f → field f.wipe
  field_setKey : ∀ f key, field f → field (f.setKey key)
  field_setValue : ∀ f value, field f → field (f.setValue value)
  field_labelKey : ∀ f page count style, field f → field (f.labelKey page count style)
  field_setPageLength : ∀ f, field f → field (f.setPageLength config.pageLength)

variable {σ α : Type} {config : Config}

/-- The provider replies within the contract, whatever its state. -/
structure Provider.Honours (p : Provider σ) (C : Contract config) : Prop where
  itemCount : ∀ st, C.itemCount (p.itemCount st).1
  item : ∀ index page f st, C.field f →
    C.item index page (p.item index page f.clear st).1 (p.item index page f.clear st).2.1 ∧
      C.field (p.item index page f.clear st).2.1
  title : ∀ f st, C.field f →
    C.title (p.title f.clear st).1 (p.title f.clear st).2.1 ∧ C.field (p.title f.clear st).2.1
  childCount : ∀ path st, C.childCount path (p.childCount path st).1
  child : ∀ path child page f st, C.field f →
    C.child path child page (p.child path child page f.clear st).1
        (p.child path child page f.clear st).2.1 ∧
      C.field (p.child path child page f.clear st).2.1
  canInspect : ∀ path child st, C.canInspect path child (p.canInspect path child st).1

/-- Text and padding on the value of an empty screen: a value is never shown empty. -/
def Field.filled (f : Field) : Field := if f.value.isEmpty then f.setValue " " else f

namespace Contract

def any (config : Config) : Contract config where
  field _ := True
  itemCount _ := True
  item _ _ _ _ := True
  title _ _ := True
  childCount _ _ := True
  child _ _ _ _ _ := True
  canInspect _ _ _ := True
  field_clear _ _ := trivial
  field_wipe _ _ := trivial
  field_setKey _ _ _ := trivial
  field_setValue _ _ _ := trivial
  field_labelKey _ _ _ _ _ := trivial
  field_setPageLength _ _ := trivial

theorem honours_any (p : Provider σ) (config : Config) : p.Honours (any config) where
  itemCount _ := trivial
  item _ _ _ _ _ := ⟨trivial, trivial⟩
  title _ _ _ := ⟨trivial, trivial⟩
  childCount _ _ := trivial
  child _ _ _ _ _ _ := ⟨trivial, trivial⟩
  canInspect _ _ _ := trivial

variable {C : Contract config}

theorem field_filled {f : Field} (h : C.field f) : C.field f.filled := by
  unfold Field.filled
  split
  · exact C.field_setValue f " " h
  · exact h

/-- Key and value of the field are a text of the engine's own, written on a cleared field. -/
def Wrote (C : Contract config) (text : String × String) (f : Field) : Prop :=
  ∃ g, C.field g ∧ f = (g.clear.setKey text.1).setValue text.2

theorem Wrote.field {text : String × String} {f : Field} (h : C.Wrote text f) : C.field f := by
  obtain ⟨g, hg, rfl⟩ := h
  exact C.field_setValue _ _ (C.field_setKey _ _ (C.field_clear g hg))

def Aborted (C : Contract config) (e e' : Engine) : Prop :=
  ∃ g, C.field g ∧ e' = { e with
    session := none
    state := .error
    field := (g.wipe.setKey Engine.errorKey).setValue Engine.errorValue }

/-- A question for pages is refused, or answered with different page counts. -/
def Unsteady (answer : (page : UInt8) → Except Error UInt8 → Field → Prop) : Prop :=
  (∃ page cause w, answer page (.error cause) w) ∨
    ∃ page page' pages last w w', answer page (.ok pages) w ∧ answer page' (.ok last) w' ∧
      last ≠ pages

/-- The provider may fail, or contradict itself, at a question for a screen of the list. -/
inductive Fails (C : Contract config) : Prop
  | title {cause : Error} {w : Field} : cause ≠ .noData → C.title (.error cause) w → Fails C
  | item {count index : UInt8} : C.itemCount (.ok count) → index.toNat < count.toNat →
    Unsteady (C.item index) → Fails C

theorem Aborted.congr {e e' e₁ : Engine} (h : C.Aborted e e') (hconfig : e.config = e₁.config)
    (hmodes : e.modes = e₁.modes) : C.Aborted e₁ e' := by
  obtain ⟨g, hg, rfl⟩ := h
  exact ⟨g, hg, by rw [hconfig, hmodes]⟩

theorem Aborted.state {e e' : Engine} (h : C.Aborted e e') : e'.state = .error := by
  obtain ⟨g, -, rfl⟩ := h
  rfl

/-- `query`, put on a cleared field, leaves the field as `answer` allows for its reply, and all else
as it was. -/
def Asks (C : Contract config) (query : Operation Engine σ α)
    (answer : Except Error α → Field → Prop) : Prop :=
  ∀ s g, C.field g → s.machine.field = g.clear →
    query.Ensures s fun r s' =>
      ∃ w, answer r w ∧ C.field w ∧ s'.machine = { s.machine with field := w }

variable {p : Provider σ}

theorem asks_item (hp : p.Honours C) (index page : UInt8) :
    C.Asks (Engine.askField (p.item index page)) (C.item index page) := by
  intro s g hg hs
  obtain ⟨hi, hw⟩ := hp.item index page g s.content hg
  simp only [Engine.ensures_askField, hs]
  exact ⟨_, hi, hw, rfl⟩

theorem asks_child (hp : p.Honours C) (path : List UInt8) (child page : UInt8) :
    C.Asks (Engine.askField (p.child path child page)) (C.child path child page) := by
  intro s g hg hs
  obtain ⟨hi, hw⟩ := hp.child path child page g s.content hg
  simp only [Engine.ensures_askField, hs]
  exact ⟨_, hi, hw, rfl⟩

theorem asks_title (hp : p.Honours C) : C.Asks (Engine.askField p.title) C.title := by
  intro s g hg hs
  obtain ⟨hi, hw⟩ := hp.title g s.content hg
  simp only [Engine.ensures_askField, hs]
  exact ⟨_, hi, hw, rfl⟩

/-- What is left of the engine when a screen could not be loaded, before the error is shown. -/
structure Spoilt (C : Contract config) (e e' : Engine) : Prop where
  config : e'.config = e.config
  modes : e'.modes = e.modes
  field : C.field e'.field

theorem Spoilt.congr {e e' e₁ : Engine} (h : C.Spoilt e e') (hconfig : e.config = e₁.config)
    (hmodes : e.modes = e₁.modes) : C.Spoilt e₁ e' :=
  ⟨h.config.trans hconfig, h.modes.trans hmodes, h.field⟩

/-- `loading` aborts the review if its body is refused, and else fills the field. -/
theorem loading_ensures {body : Operation Engine σ Bool} {s : Sitting Engine σ} (why : Prop)
    (post : Bool → Engine → Prop)
    (h : body.Ensures s fun r s' => match r with
      | .ok found => post found s'.machine
      | .error _ => C.Spoilt s.machine s'.machine ∧ why) :
    (Engine.loading body).Ensures s fun r s' => match r with
      | .ok found => ∃ e, post found e ∧ s'.machine = { e with field := e.field.filled }
      | .error _ => C.Aborted s.machine s'.machine ∧ why := by
  simp only [Engine.loading, Operation.ensures_bind, Operation.ensures_attempt]
  refine h.mono fun r s' hr => ?_
  cases r with
  | ok found =>
    simp only [Operation.ensures_bind, Engine.ensures_modifyField, Operation.ensures_pure]
    exact ⟨_, hr, rfl⟩
  | error cause =>
    simp only [Engine.fail, Engine.showErrorScreen, Operation.ensures_bind, Operation.ensures_note,
      Operation.ensures_modifyMachine, Operation.ensures_throw]
    obtain ⟨⟨hconfig, hmodes, hfield⟩, hwhy⟩ := hr
    exact ⟨⟨s'.machine.field, hfield, by rw [hconfig, hmodes]⟩, hwhy⟩

end Contract
end WalletReview
