import WalletReview.Proofs.Levels
import WalletReview.Proofs.Return

/-! Walking through the levels of an inspection. In front of a provider that never fails and always
answers the same, a level with a screen on it is one list that can be walked from end to end,
whichever children have no pages. -/
namespace WalletReview

open Engine (Direction)

variable {σ : Type} {config : Config} {x : Content} {p : Provider σ}
  {leave : List UInt8 → UInt8 → Bool} {path : List UInt8} {child : UInt8} {layout : InspectLayout}

/-- A path that leads down by leave of the provider at each of its steps. -/
inductive Validated (leave : List UInt8 → UInt8 → Bool) : List UInt8 → Prop
  | item {index : UInt8} : leave [] index = true → Validated leave [index]
  | child {path : List UInt8} {child : UInt8} : Validated leave path → leave path child = true →
    Validated leave (path ++ [child])

theorem Validated.exists_find {α : Type} {trees : List (Tree α)} (h : Validated leave path)
    (hleave : ∀ path child, leave path child = true →
      ∃ item, Tree.find? (path ++ [child]) trees = some item) :
    ∃ item, Tree.find? path trees = some item := by
  cases h with
  | item h => exact hleave [] _ h
  | child _ h => exact hleave _ _ h

/-- Whatever its state, the provider presents the content, and gives the same leave to go down; it
does not fail at a question about the children at the end of a path with leave. -/
structure Provider.Nested (p : Provider σ) (config : Config) (x : Content)
    (leave : List UInt8 → UInt8 → Bool) : Prop where
  presents : p.Presents config x
  canInspect : ∀ path child st, (p.canInspect path child st).1 = leave path child
  childCount : ∀ path st, Validated leave path →
    (p.childCount path st).1 = .ok (x.childCount path)
  child : ∀ path child page st, Validated leave path → child < x.childCount path →
    (p.child path child page (.blank config) st).1 = .ok (x.childPages path child)

def Contract.nested (config : Config) (x : Content) (leave : List UInt8 → UInt8 → Bool) :
    Contract config :=
  { Contract.presented config x with
    childCount := fun path r => (∀ count, r = .ok count → count = x.childCount path) ∧
      (Validated leave path → r = .ok (x.childCount path))
    child := fun path child page r w =>
      Content.Writes config (x.childPages path child) (x.child path child page) r w ∧
        (Validated leave path → child < x.childCount path → r = .ok (x.childPages path child))
    canInspect := fun path child holds => holds = leave path child }

theorem Provider.Nested.honours (h : p.Nested config x leave) :
    p.Honours (Contract.nested config x leave) where
  itemCount _ := trivial
  item index page f st hf := h.presents.honours.item index page f st hf
  title f st hf := h.presents.honours.title f st hf
  childCount path st := ⟨h.presents.childCount path st, h.childCount path st⟩
  child path child page f st hf := by
    obtain ⟨hwrites, hclean⟩ := h.presents.honours.child path child page f st hf
    refine ⟨⟨hwrites, fun hpath hlt => ?_⟩, hclean⟩
    rw [Field.Clean.clear_eq hf]
    exact h.child path child page st hpath hlt
  canInspect path child st := h.canInspect path child st

namespace Fixture

def inspectable (y : Fixture) (path : List UInt8) (child : UInt8) : Bool :=
  match Tree.find? (path ++ [child]) y.items with
  | some item => !item.children.isEmpty
  | none => false

/-- One item, whose first and last children have no pages. -/
def gapped : Fixture := { items := [.node 1 [.leaf 0, .leaf 2, .leaf 0]] }

theorem exists_of_inspectable {y : Fixture} (h : y.inspectable path child = true) :
    ∃ item, Tree.find? (path ++ [child]) y.items = some item := by
  unfold inspectable at h
  split at h
  · exact ⟨_, ‹_›⟩
  · cases h

theorem nested_fixed (y : Fixture) (config : Config) :
    (provider.fixed y).Nested config (y.content config) y.inspectable where
  presents := y.presents config
  canInspect path child _ := by
    simp only [Provider.fixed, provider, inspectable]
    cases Tree.find? (path ++ [child]) y.items <;> rfl
  childCount path _ hpath := by
    obtain ⟨item, hitem⟩ := hpath.exists_find fun _ _ => exists_of_inspectable
    simp [Provider.fixed, provider, content, hitem]
  child path child page _ hpath hlt := by
    obtain ⟨item, hitem⟩ := hpath.exists_find fun _ _ => exists_of_inspectable
    have hchild : child.toNat < item.children.length := by
      simp only [content, hitem, Option.map_some, Option.getD_some, UInt8.lt_iff_toNat_lt,
        Nat.toUInt8, UInt8.toNat_ofNat'] at hlt
      exact Nat.lt_of_lt_of_le hlt (Nat.mod_le _ _)
    simp [Provider.fixed, provider, content, Tree.childBelow?, hitem, hchild]

end Fixture

namespace Contract

theorem counts_nested : (Contract.nested config x leave).Counts x where
  childCount _ count h := h.1 count rfl
  child _ _ _ pages _ h := (h.1.2 pages rfl).1

theorem not_failsBelow_nested (hpath : Validated leave path) :
    ¬Engine.FailsBelow (Contract.nested config x leave) path := by
  rintro (⟨-, hcount⟩ | ⟨hcount, hlt, hunsteady⟩)
  · cases hcount hpath
  · cases hcount.1 _ rfl
    rcases hunsteady with ⟨page, cause, w, -, hanswer⟩ |
      ⟨page, page', pages, last, w, w', ⟨hanswer, -⟩, ⟨hlast, -⟩, hne⟩
    · cases hanswer hpath hlt
    · rw [(hanswer.2 pages rfl).1, (hlast.2 last rfl).1] at hne
      exact hne rfl

end Contract

/-- A path that an inspection can come down: by leave at each of its steps, and where the level of
the step has a screen on it, into a child that has pages. -/
inductive Reached (x : Content) (leave : List UInt8 → UInt8 → Bool) (layout : InspectLayout) :
    List UInt8 → Prop
  | item {index : UInt8} : leave [] index = true → Reached x leave layout [index]
  | child {path : List UInt8} {child : UInt8} : Reached x leave layout path →
    leave path child = true →
    (x.Listed path layout → child < x.childCount path ∧ x.childPages path child ≠ 0) →
    Reached x leave layout (path ++ [child])

theorem Reached.validated (h : Reached x leave layout path) : Validated leave path := by
  induction h with
  | item hleave => exact .item hleave
  | child _ hleave _ ih => exact .child ih hleave

theorem Reached.of_append (h : Reached x leave layout (path ++ [child])) (hne : path ≠ []) :
    Reached x leave layout path ∧
      (x.Listed path layout → child < x.childCount path ∧ x.childPages path child ≠ 0) := by
  generalize hwhole : path ++ [child] = whole at h
  cases h with
  | item =>
    rw [List.append_eq_singleton_iff] at hwhole
    rcases hwhole with ⟨hnil, -⟩ | ⟨-, hnil⟩
    · exact absurd hnil hne
    · cases hnil
  | child hreached _ hpages =>
    obtain ⟨rfl, hchild⟩ := List.append_inj' hwhole rfl
    cases hchild
    exact ⟨hreached, hpages⟩

/-- The inspection has come down a path that can be reached, and is on a screen of the list of its
level if there is one. -/
structure Inspection.OnCourse (x : Content) (leave : List UInt8 → UInt8 → Bool) (i : Inspection) :
    Prop where
  reached : Reached x leave i.layout i.chain
  on : x.Listed i.chain i.layout → Blocks.On (i.blocks x) i.cursor

namespace Inspection

variable {C : Contract config} {i j : Inspection} {root : UInt8} {c d : Cursor} {f w : Field}
  {dir : Direction}

theorem Loads.onCourse (h : i.Loads C j f) (hC : C.Counts x)
    (hreached : Reached x leave i.layout i.chain)
    (hahead : x.Listed i.chain i.layout → i.Ahead x) : j.OnCourse x leave := by
  have hon (hlisted : x.Listed i.chain i.layout) : Blocks.On (i.blocks x) j.cursor := by
    obtain ⟨d, rfl, hcomes⟩ := h.comes hC hlisted (hahead hlisted)
    exact hcomes.on
  obtain ⟨count, d, -, rfl, -⟩ := h
  exact ⟨hreached, hon⟩

end Inspection

namespace Engine

variable {C : Contract config} {e e' : Engine} {s : Session} {i : Inspection} {out : Output}
  {dir : Direction} {t : Sitting Engine σ}

/-- What the engine inspects, if it does, satisfies `P`. -/
def Inspected (P : Inspection → Prop) (e : Engine) : Prop := ∀ s i, e.Inspects s i → P i

section

variable {P : Inspection → Prop}

theorem inspected_inspecting {j : Inspection} {f : Field} (h : P j) :
    (e.inspecting s j f).Inspected P := by
  intro s' j' hi
  cases hi.session
  cases hi.inspection
  exact h

theorem inspected_of_state (h : e.state ≠ .inspect) : e.Inspected P :=
  fun _ _ hi => absurd hi.state h

end

def OnCourse (x : Content) (leave : List UInt8 → UInt8 → Bool) (e : Engine) : Prop :=
  ∀ s i, e.Inspects s i → i.OnCourse x leave

theorem Sound.spans_on (he : Sound C e) (hcourse : e.OnCourse x leave) (hC : C.Counts x)
    (hi : e.Inspects s i) (hlisted : x.Listed i.chain i.layout) :
    i.Spans x i.cursor ∧ Blocks.On (i.blocks x) i.cursor := by
  obtain ⟨root, -, hstands⟩ := he.of_inspects hi
  exact ⟨hstands.spans hC hlisted, (hcourse s i hi).on hlisted⟩

theorem onCourse_of_visits (he : Sound C e) (hcourse : e.OnCourse x leave) (hC : C.Counts x)
    (hleave : ∀ path child, C.canInspect path child true → leave path child = true)
    (h : Visits C e out e') : e'.OnCourse x leave := by
  cases h with
  | enter hstate hs hat hcan hload =>
    exact inspected_inspecting (hload.onCourse hC (.item (hleave _ _ hcan))
      fun hlisted => Inspection.ahead_of_listed hlisted rfl)
  | @descend s i i' j child f hi hchild hdepth hcan henter hload =>
    obtain ⟨root, -, hstands⟩ := he.of_inspects hi
    obtain ⟨i'', henter', hfits, hcursor, -⟩ := hstands.fits.enter hchild hdepth
    cases henter.symm.trans henter'
    have hlayout : i'.layout = i.layout := hfits.layout.trans hstands.fits.layout.symm
    refine inspected_inspecting (hload.onCourse hC ?_ fun hlisted =>
      Inspection.ahead_of_listed hlisted (by rw [hcursor]; rfl))
    rw [hlayout, Inspection.chain_of_enter henter]
    refine .child (hcourse s i hi).reached (hleave _ _ hcan) fun hlisted => ?_
    obtain ⟨hspans, hon⟩ := he.spans_on hcourse hC hi hlisted
    exact hspans.childPages_ne_zero hon hchild
  | @ascend s i i' j f hi hascend hload =>
    -- The child gone into was on a screen of the level above, so it has pages and is shown again.
    obtain ⟨child, hchain, -, hlayout, -⟩ := Inspection.of_ascend hascend
    have hreached := (hcourse s i hi).reached
    rw [hchain, ← hlayout] at hreached
    obtain ⟨hreached', hpages⟩ := hreached.of_append i'.chain_ne_nil
    refine inspected_inspecting (hload.onCourse hC hreached' fun hlisted => ?_)
    obtain ⟨hlt, hne⟩ := hpages hlisted
    exact Inspection.ahead_of_ascend hascend hchain hlt hne
  | leave => exact inspected_of_state (state_showing_ne_inspect _ _ _)
  | stay => exact hcourse
  | @move s i dir c d count w hi hstep hcount hland =>
    refine inspected_inspecting ⟨(hcourse s i hi).reached, fun hlisted => ?_⟩
    obtain ⟨hspans, -⟩ := he.spans_on hcourse hC hi hlisted
    exact (hspans.comes_of_step hC hstep hcount hland).on
  | @miss s i j dir c d count w f hi _ _ _ hload =>
    refine inspected_inspecting (hload.onCourse hC (hcourse s i hi).reached fun hlisted => ?_)
    obtain ⟨-, hon⟩ := he.spans_on hcourse hC hi hlisted
    exact Inspection.ahead_of_on hon

theorem visits_of_moves {skips : Bool} {r : Except Error Output} (h : Moves C skips e r e')
    (hstate : e'.state = .inspect) : e' = e ∨ ∃ out, Visits C e out e' := by
  cases h with
  | refused => exact Or.inl rfl
  | nothing => exact Or.inl rfl
  | aborted h =>
    obtain ⟨g, -, rfl⟩ := h
    cases hstate
  | lost h =>
    obtain ⟨g, -, rfl⟩ := h
    cases hstate
  | begins _ h =>
    cases h with
    | begin => exact absurd hstate (state_showing_ne_inspect _ _ _)
  | goes _ h =>
    cases h with
    | offer => cases hstate
    | step _ _ _ _ hstep =>
      cases hstep with
      | stay => exact Or.inl rfl
      | move => exact absurd hstate (state_showing_ne_inspect _ _ _)
      | miss => exact absurd hstate (state_showing_ne_inspect _ _ _)
    | resume => exact absurd hstate (state_showing_ne_inspect _ _ _)
    | visit _ h => exact Or.inr ⟨_, h⟩
  | jumps _ h =>
    cases h with
    | skip => exact absurd hstate (state_showing_ne_inspect _ _ _)
  | visits _ h => exact Or.inr ⟨_, h⟩
  | ends h => cases h <;> cases hstate

section

variable {P : Inspection → Prop}

theorem inspected_of_moves {skips : Bool} {r : Except Error Output} (h : Moves C skips e r e')
    (he : e.Inspected P) (hvisits : ∀ out, Visits C e out e' → e'.Inspected P) :
    e'.Inspected P := by
  by_cases hstate : e'.state = .inspect
  · rcases visits_of_moves h hstate with rfl | ⟨out, h⟩
    · exact he
    · exact hvisits out h
  · exact inspected_of_state hstate

theorem inspected_of_acts {action : Action} {reply : Except Error Reply}
    (h : Acts C e action reply e') (he : e.Inspected P)
    (hvisits : ∀ out, Visits C e out e' → e'.Inspected P) : e'.Inspected P := by
  cases h with
  | output h => exact inspected_of_moves h he hvisits
  | press h => exact inspected_of_moves h he hvisits
  | shows => exact inspected_of_state fun hstate => by cases hstate
  | canDescend => exact he
  | setModes => exact fun s i hi => he s i ⟨hi.state, hi.session, hi.inspection⟩

theorem Run.inspected {steps : List Step} (hp : p.Honours C)
    (hfield : C.field (Engine.start config).field)
    (hvisits : ∀ e out e', Sound C e → e.Inspected P → Visits C e out e' → e'.Inspected P)
    (h : Run p config steps t) : t.machine.Inspected P := by
  induction h with
  | start => exact inspected_of_state fun hstate => by cases hstate
  | act action hrun hact ih =>
    exact inspected_of_acts (hrun.acts hp hfield hact) ih fun out =>
      hvisits _ out _ (hrun.sound hp hfield) ih
  | meddle _ _ ih => exact ih

end

theorem Run.onCourse {steps : List Step} (hp : p.Nested config x leave)
    (h : Run p config steps t) : t.machine.OnCourse x leave :=
  h.inspected hp.honours Field.clean_blank fun _ _ _ he hcourse hvisits =>
    onCourse_of_visits he hcourse Contract.counts_nested (fun _ _ hcan => hcan.symm) hvisits

def OnLevel (x : Content) (layout : InspectLayout) (path : List UInt8) (k : Nat) (e : Engine) :
    Prop :=
  (∃ s i, e.Inspects s i ∧ i.chain = path) ∧ (x.level path layout)[k]? = some e.position

/-- What a step from screen `k` of a level does. It comes to the screen that follows, or changes
nothing where none does. -/
inductive Paces (x : Content) (layout : InspectLayout) (path : List UInt8) (e : Engine)
    (dir : Direction) (k : Nat) : Output → Engine → Prop
  | next {k' : Nat} {e' : Engine} : Blocks.Follows dir k k' → e'.OnLevel x layout path k' →
    Paces x layout path e dir k .redraw e'
  | last : Blocks.Ends (x.level path layout).length dir k → Paces x layout path e dir k .none e

theorem OnLevel.unique {k k' : Nat} (h : e.OnLevel x layout path k)
    (h' : e.OnLevel x layout path k') : k = k' :=
  (List.getElem?_inj (List.getElem?_eq_some_iff.1 h.2).1 (x.nodup_level path layout)).1
    (h.2.trans h'.2.symm)

theorem Sound.onLevel (he : Sound C e) (hcourse : e.OnCourse x leave) (hC : C.Counts x)
    (hi : e.Inspects s i) (hlisted : x.Listed i.chain i.layout) :
    e.OnLevel x i.layout i.chain (Blocks.rank (i.blocks x) i.cursor) := by
  obtain ⟨root, -, hstands⟩ := he.of_inspects hi
  obtain ⟨hspans, hon⟩ := he.spans_on hcourse hC hi hlisted
  refine ⟨⟨s, i, hi, rfl⟩, ?_⟩
  rw [hi.position]
  exact hspans.position hon hstands.fits.depth

/-- Going by leave into what is at the end of a path loads the level there. -/
theorem GoesInto.loads {above : List UInt8} {child : UInt8} {r : Except Error Output}
    (h : e.GoesInto (Contract.nested config x leave) s above child i r e')
    (hpath : Validated leave i.chain) (hleave : leave above child = true) :
    r = .ok .redraw ∧ ∃ j f, i.Loads (Contract.nested config x leave) j f ∧
      e' = { e with state := .inspect }.inspecting s j f := by
  cases r with
  | error cause =>
    rcases h with ⟨-, hdenied, -⟩ | ⟨-, -, hfails⟩
    · cases hdenied.trans hleave
    · exact absurd hfails (Contract.not_failsBelow_nested hpath)
  | ok out =>
    obtain ⟨rfl, -, j, f, hload, -, he'⟩ := h
    exact ⟨rfl, j, f, hload, he'⟩

theorem GoesInto.onLevel {root : UInt8} {above : List UInt8} {r : Except Error Output}
    (h : e.GoesInto (Contract.nested config x leave) s above child i r e')
    (hi : i.Fits config root) (hcursor : i.cursor = .start 0) (hpath : Validated leave i.chain)
    (hleave : leave above child = true) (hlisted : x.Listed i.chain config.inspectLayout) :
    r = .ok .redraw ∧ e'.OnLevel x config.inspectLayout i.chain 0 := by
  obtain ⟨hr, j, f, hload, rfl⟩ := h.loads hpath hleave
  rw [← hi.layout] at hlisted ⊢
  obtain ⟨hchain, hposition⟩ := hload.position_first Contract.counts_nested hi hlisted hcursor
  exact ⟨hr, ⟨_, j, ⟨rfl, rfl, rfl⟩, hchain⟩, hposition⟩

theorem Sound.eq_of_session (he : Sound (Contract.presented config x) e)
    (he' : Sound (Contract.presented config x) e') (hs : e.session = some s)
    (hpages : x.HasPages s.path e.position) (h : e' = { e with field := e'.field }) : e' = e := by
  have hs' : e'.session = some s := by rw [h]; exact hs
  have hposition : e'.position = e.position := by rw [h]; rfl
  obtain ⟨o, ho⟩ := he.exists_openedBy hs
  have htext := (he.displays hs ho hpages).field
  have htext' := (he'.displays hs' ho (by rw [hposition]; exact hpages)).field
  rw [hposition] at htext'
  have hfield : e'.field = e.field := Field.Clean.eq_of_holds he'.field he.field htext' htext
  rw [h, hfield]

/-- A step on a level leads to the screen that follows, and leaves everything as it was where there
is none. -/
theorem Treads.paces (he : Sound (Contract.nested config x leave) e)
    (hcourse : e.OnCourse x leave) (hi : e.Inspects s i)
    (hlisted : x.Listed i.chain i.layout)
    (h : Treads (Contract.nested config x leave) e s i dir out e')
    (hpresented : Sound (Contract.presented config x) e)
    (hpresented' : Sound (Contract.presented config x) e') :
    Paces x i.layout i.chain e dir (Blocks.rank (i.blocks x) i.cursor) out e' := by
  have hC : (Contract.nested config x leave).Counts x := Contract.counts_nested
  obtain ⟨hspans, hon⟩ := he.spans_on hcourse hC hi hlisted
  have hsound := sound_of_visits he (h.visits hi)
  have hcourse' := onCourse_of_visits he hcourse hC (fun _ _ hcan => hcan.symm) (h.visits hi)
  cases h with
  | stay hno => exact .last (hspans.ends_of_not_steps hon hno)
  | @move c d count w hstep hcount hland =>
    have hcomes := hspans.comes_of_step hC hstep hcount hland
    exact .next (hcomes.follows hon hstep)
      (hsound.onLevel hcourse' hC (s := { s with inspection := some { i with cursor := d } })
        (i := { i with cursor := d }) ⟨hi.state, rfl, rfl⟩ hlisted)
  | @miss j c d count w f hstep hcount hmiss hload =>
    obtain rfl := hload.eq_of_on hC hlisted hspans hon
    have hpages : x.HasPages s.path e.position := by
      rw [hi.position, Session.path, hi.inspection]
      exact hspans.hasPages hon
    have hsame : e.inspecting s j f = e := by
      refine hpresented.eq_of_session hpresented' hi.session hpages ?_
      rw [inspecting, ← hi.inspection, hi.session]
    rw [hsame]
    exact .last (hspans.ends_of_misses hon hC hstep hcount hmiss)

variable {steps : List Step}

theorem inspectStep_paces (hp : p.Nested config x leave) (h : Run p config steps t)
    (hi : t.machine.Inspects s i) (hlisted : x.Listed i.chain i.layout) :
    (inspectStep p dir).Ensures t fun r t' => ∃ out, r = .ok out ∧ Paces x i.layout i.chain
      t.machine dir (Blocks.rank (i.blocks x) i.cursor) out t'.machine := by
  have he := h.sound hp.honours Field.clean_blank
  have hpresented := h.sound hp.presents.honours Field.clean_blank
  have hcourse := h.onCourse hp
  have hpath := (hcourse s i hi).reached.validated
  refine ((inspectStep_treads hp.honours he hi).and
    (inspectStep_treads hp.presents.honours hpresented hi)).mono fun r t' hr => ?_
  obtain ⟨hr, hr'⟩ := hr
  cases r with
  | error cause => exact absurd hr.2 (Contract.not_failsBelow_nested hpath)
  | ok out =>
    exact ⟨out, rfl, hr.paces he hcourse hi hlisted hpresented
      (sound_of_visits hpresented (hr'.visits hi))⟩

theorem ensures_advance {post : Except Error Output → Sitting Engine σ → Prop}
    (hstate : t.machine.state = .inspect) :
    (advance p).Ensures t post ↔ (inspectStep p .forward).Ensures t post := by
  simp only [advance, inspectStep, Loader.advance, Operation.ensures_bind,
    Operation.ensures_machine, hstate]

theorem ensures_retreat {post : Except Error Output → Sitting Engine σ → Prop}
    (hstate : t.machine.state = .inspect) :
    (retreat p).Ensures t post ↔ (inspectStep p .backward).Ensures t post := by
  simp only [retreat, inspectStep, Loader.retreat, Operation.ensures_bind,
    Operation.ensures_machine, hstate]

/-- Each level of an inspection that has a screen is one list of screens. -/
structure Browses (p : Provider σ) (config : Config) (x : Content)
    (leave : List UInt8 → UInt8 → Bool) (t : Sitting Engine σ) : Prop where
  enters (index page : UInt8) : t.machine.position = .item index page → leave [] index = true →
    x.Listed [index] config.inspectLayout →
    (enterInspect p).Ensures t fun r t' => r = .ok .redraw ∧
      t'.machine.OnLevel x config.inspectLayout [index] 0
  descends (s : Session) (i : Inspection) (child : UInt8) : t.machine.Inspects s i →
    i.childIndex = some child → i.depth.toNat < maxDepth → leave i.chain child = true →
    x.Listed (i.chain ++ [child]) config.inspectLayout →
    (descend p).Ensures t fun r t' => r = .ok .redraw ∧
      t'.machine.OnLevel x config.inspectLayout (i.chain ++ [child]) 0
  walks (s : Session) (i : Inspection) : t.machine.Inspects s i →
    x.Listed i.chain config.inspectLayout →
    ∃ k, (∀ k', t.machine.OnLevel x config.inspectLayout i.chain k' ↔ k' = k) ∧
      ((advance p).Ensures t fun r t' => ∃ out, r = .ok out ∧
        Paces x config.inspectLayout i.chain t.machine .forward k out t'.machine) ∧
      ((retreat p).Ensures t fun r t' => ∃ out, r = .ok out ∧
        Paces x config.inspectLayout i.chain t.machine .backward k out t'.machine)

/-- In front of a provider that never fails and always answers the same, every level of an
inspection is one list of screens in every state of every run. -/
theorem browses_of_run (hp : p.Nested config x leave) (h : Run p config steps t) :
    Browses p config x leave t := by
  have he := h.sound hp.honours Field.clean_blank
  have hcourse := h.onCourse hp
  refine ⟨fun index page hposition hleave hlisted => ?_,
    fun s i child hi hchild hdepth hleave hlisted => ?_, fun s i hi hlisted => ?_⟩
  · obtain ⟨hstate, s, hs, hindex, -⟩ := he.position_eq_item_iff.1 hposition
    have hat := (he.runs hs).1.itemIndex?_eq_some_iff.1 hindex
    exact (enterInspect_goesInto hp.honours he hstate hs hat).mono fun r t' hr =>
      hr.onLevel (Inspection.fits_start index) rfl (.item hleave) hleave hlisted
  · obtain ⟨root, -, hstands⟩ := he.of_inspects hi
    obtain ⟨i', henter, hfits, hcursor, -⟩ := hstands.fits.enter hchild hdepth
    have hchain := Inspection.chain_of_enter henter
    have hpath := Validated.child (hcourse s i hi).reached.validated hleave
    rw [← hchain] at hpath hlisted ⊢
    exact (descend_goesInto hp.honours he hi hchild hdepth henter).mono fun r t' hr =>
      hr.onLevel hfits hcursor hpath hleave hlisted
  · obtain ⟨root, -, hstands⟩ := he.of_inspects hi
    rw [← hstands.fits.layout] at hlisted ⊢
    have hlevel := he.onLevel hcourse Contract.counts_nested hi hlisted
    exact ⟨_, fun k' => ⟨fun h => h.unique hlevel, fun h => h ▸ hlevel⟩,
      (ensures_advance hi.state).2 (inspectStep_paces hp h hi hlisted),
      (ensures_retreat hi.state).2 (inspectStep_paces hp h hi hlisted)⟩

theorem browses_of_run_gapped : ∃ steps t s i,
    Run (Fixture.provider.fixed .gapped) .stax steps t ∧ t.machine.Inspects s i ∧
      i.chain = [0] ∧ (Fixture.gapped.content .stax).Listed [0] .native ∧
      (Fixture.gapped.content .stax).level [0] .native = [.child 0 1 0, .child 0 1 1] ∧
      Browses (Fixture.provider.fixed .gapped) .stax (Fixture.gapped.content .stax)
        Fixture.gapped.inspectable t := by
  have h : ∃ steps t s i, Run (Fixture.provider.fixed .gapped) .stax steps t ∧
      t.machine.Inspects s i ∧ i.chain = [0] :=
    ⟨_, _, _, _, .act .enterInspect (.act (.begin .transaction false none) (.start ()) rfl) rfl,
      ⟨rfl, rfl, rfl⟩, rfl⟩
  obtain ⟨steps, t, s, i, hrun, hi, hchain⟩ := h
  exact ⟨steps, t, s, i, hrun, hi, hchain, ⟨1, by decide, by decide⟩, rfl,
    browses_of_run (Fixture.nested_fixed _ _) hrun⟩

end Engine
end WalletReview
