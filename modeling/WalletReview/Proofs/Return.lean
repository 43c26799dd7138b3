import WalletReview.Proofs.FrontEnds
import WalletReview.Proofs.Refusals
import WalletReview.Proofs.Replay

/-! Coming back from an inspection. Whatever is done in between, and by whichever way out, the
review is on the first page of the item that was inspected, and nothing else about it has changed.
-/
namespace WalletReview

variable {σ : Type} {config : Config} {C : Contract config} {pages : List UInt8} {x : Content}
  {p : Provider σ}

theorem Field.Clean.eq_of_holds {f g : Field} {text : String × String} (hf : f.Clean config)
    (hg : g.Clean config) (htext : f.Holds text) (htext' : g.Holds text) : f = g := by
  obtain ⟨key, value, pageLength⟩ := f
  obtain ⟨key', value', pageLength'⟩ := g
  cases htext.key.unique htext'.key
  cases htext.value.unique htext'.value
  cases hf.pageLength.trans hg.pageLength.symm
  rfl

theorem Provider.Constant.recorded (h : p.Constant config pages x) :
    p.recorded.Constant config pages x where
  presents := {
    item := fun index page st => h.presents.item index page st.content
    title := fun st => h.presents.title st.content
    childCount := fun path st => h.presents.childCount path st.content
    child := fun path child page st => h.presents.child path child page st.content }
  itemCount st := h.itemCount st.content
  item index page f st count := h.item index page f st.content count
  clean index page f st := h.clean index page f st.content
  title st := h.title st.content

def Fixture.nest : Fixture := { items := [chain 1] }

namespace Session

variable {s : Session} {c d : Cursor} {f w : Field} {index : UInt8}

theorem AtItem.unique {index' : UInt8} (h : s.AtItem c index) (h' : s.AtItem c index') :
    index = index' := by
  rw [← UInt8.toNat_inj]
  have := h.1
  have := h'.1
  omega

theorem Rests.turns (h : s.Rests (Contract.presented config x) c d w) (hat : s.AtItem c index) :
    d.pageCount = x.pages index ∧ (c.page < x.pages index ∧ d.page = c.page ∨
      x.pages index ≤ c.page ∧ d.page.toNat + 1 = (x.pages index).toNat) := by
  cases h with
  | intro hscreen =>
    have hlt := (List.getElem?_eq_some_iff.1 hscreen).1
    have := hat.1
    omega
  | item hat' hturn =>
    cases hat.unique hat'
    exact hturn.page_eq fun page n w hanswer => (hanswer.2 n rfl).1
  | decision hle =>
    have := hat.1
    have := hat.2
    omega

/-- From an item on screen, loading its first page ends there. -/
theorem Lands.first
    (h : s.Lands (Contract.presented config x) .forward { s.cursor with page := 0 } d w)
    (hshows : s.Shows (Contract.presented config x) f) (hat : s.AtItem s.cursor index) :
    d = { s.cursor with page := 0 } := by
  obtain ⟨c, w', hrest, -⟩ := hshows
  have hat' : s.AtItem c index := ⟨by rw [← hrest.item_eq]; exact hat.1, hat.2⟩
  obtain ⟨hcount, -⟩ := hrest.turns hat'
  have hlt := hrest.page_lt
  obtain ⟨c', hpass, hrest'⟩ := h
  have hnot : ¬s.Empty (Contract.presented config x) { s.cursor with page := 0 } := by
    rintro ⟨index', w, hat'', hanswer⟩
    cases hat.unique hat''
    have hzero := (hanswer.2 0 rfl).1
    rw [hcount, ← hzero] at hlt
    exact UInt8.not_lt_zero hlt
  cases hpass.eq_of_not_empty hnot
  obtain ⟨hcount', hpage⟩ := hrest'.turns hat
  have hitem := hrest'.item_eq
  have hitemCount := hrest'.itemCount_eq
  obtain ⟨item, itemCount, page, pageCount⟩ := d
  simp only at hcount' hpage hitem hitemCount
  rcases hpage with ⟨-, hpage⟩ | ⟨hle, -⟩
  · rw [hitem, hitemCount, hpage, hcount', ← hcount]
  · rw [hcount] at hlt
    exact absurd (UInt8.lt_of_lt_of_le hlt hle) (by simp [UInt8.not_lt_zero])

end Session

namespace Engine

variable {e e' X : Engine} {s : Session} {i : Inspection} {out : Output} {index page : UInt8}

/-- What becomes of an engine that inspects: its review is lost, or it shows another screen of the
inspection, or the item that was inspected. -/
inductive Onward (C : Contract config) (e : Engine) (s : Session) : Engine → Prop
  | lost {e' : Engine} : e'.session = none → Onward C e s e'
  | inspect (j : Inspection) (f : Field) : Onward C e s (e.inspecting s j f)
  | item {d : Cursor} {w : Field} :
    { s with inspection := none }.Lands C .forward { s.cursor with page := 0 } d w →
    Onward C e s ({ e with state := .review }.showing { s with inspection := none, cursor := d }
      w.filled)

theorem Inspects.inspecting_self (h : e.Inspects s i) : e.inspecting s i e.field = e := by
  have hself : some { s with inspection := some i } = e.session := by rw [h.session, ← h.inspection]
  rw [inspecting, hself]

theorem onward_self (hi : e.Inspects s i) : Onward C e s e := by
  have h := Onward.inspect (C := C) (e := e) (s := s) i e.field
  rwa [hi.inspecting_self] at h

theorem onward_of_aborted (h : C.Aborted e e') : Onward C e s e' := by
  obtain ⟨g, -, rfl⟩ := h
  exact .lost rfl

theorem onward_of_visits (hi : e.Inspects s i) (h : Visits C e out e') : Onward C e s e' := by
  cases h with
  | enter hstate => cases hstate.symm.trans hi.state
  | descend hi' =>
    cases hi.session.symm.trans hi'.session
    exact .inspect _ _
  | ascend hi' =>
    cases hi.session.symm.trans hi'.session
    exact .inspect _ _
  | leave hi' hland =>
    cases hi.session.symm.trans hi'.session
    exact .item hland
  | stay => exact onward_self hi
  | move hi' =>
    cases hi.session.symm.trans hi'.session
    exact .inspect _ _
  | miss hi' =>
    cases hi.session.symm.trans hi'.session
    exact .inspect _ _

theorem onward_of_moves {skips : Bool} {r : Except Error Output} (hi : e.Inspects s i)
    (h : Moves C skips e r e') : Onward C e s e' := by
  cases h with
  | refused => exact onward_self hi
  | aborted h => exact onward_of_aborted h
  | nothing => exact onward_self hi
  | lost h => exact onward_of_aborted h
  | begins _ h => cases h.idle.symm.trans hi.state
  | goes _ h =>
    cases h with
    | offer hstate => cases hstate.symm.trans hi.state
    | step _ hstate => exact absurd hi.state hstate
    | resume hstate => cases hstate.symm.trans hi.state
    | visit _ h => exact onward_of_visits hi h
  | jumps _ h =>
    cases h with
    | skip _ hcan => simp [canSkip, hi.state] at hcan
  | visits _ h => exact onward_of_visits hi h
  | ends h =>
    cases h with
    | acknowledge hstate => cases hstate.symm.trans hi.state
    | _ => exact .lost rfl

def Action.setsModes : Action → Bool
  | setModes _ => true
  | _ => false

theorem onward_of_acts {action : Action} {reply : Except Error Reply} (hi : e.Inspects s i)
    (hmodes : action.setsModes = false) (h : Acts C e action reply e') : Onward C e s e' := by
  cases h with
  | output h => exact onward_of_moves hi h
  | press h => exact onward_of_moves hi h
  | shows => exact .lost rfl
  | canDescend => exact onward_self hi
  | setModes => cases hmodes

/-- Everything about the engine is as in `X`, except that it inspects. -/
def Away (X : Engine) (s : Session) (e : Engine) : Prop :=
  ∃ i f, e = { X with
    state := .inspect, session := some { s with inspection := some i }, field := f }

theorem Away.inspects (h : Away X s e) : ∃ i, e.Inspects { s with inspection := some i } i := by
  obtain ⟨i, f, rfl⟩ := h
  exact ⟨i, rfl, rfl, rfl⟩

/-- The engine is as `X`, but for the page of the item on screen, which is the first one. -/
structure Returned (x : Content) (X : Engine) (index : UInt8) (e : Engine) : Prop where
  engine : e = { X with
    session := X.session.map fun s => { s with cursor := { s.cursor with page := 0 } }
    field := e.field }
  state : e.state = .review
  inspection : ∀ s, e.session = some s → s.inspection = none
  position : e.position = .item index 0
  field : e.field.Holds (x.shown e.config (index, 0))

theorem away_of_enter (hs : X.session = some s) (hX : X.state = .review) (h : Visits C X out e) :
    Away X s e := by
  cases h with
  | enter _ hs' =>
    cases hs.symm.trans hs'
    exact ⟨_, _, rfl⟩
  | descend hi => cases hX.symm.trans hi.state
  | ascend hi => cases hX.symm.trans hi.state
  | leave hi => cases hX.symm.trans hi.state
  | stay hi => cases hX.symm.trans hi.state
  | move hi => cases hX.symm.trans hi.state
  | miss hi => cases hX.symm.trans hi.state

/-- As long as an inspection goes on, nothing but it and the screen changes. -/
theorem Away.onward {action : Action} {reply : Except Error Reply} (h : Away X s e)
    (he' : Sound C e') (hmodes : action.setsModes = false) (hacts : Acts C e action reply e')
    (hstate : e'.state = .inspect) : Away X s e' := by
  obtain ⟨i, f, rfl⟩ := h
  cases onward_of_acts (s := { s with inspection := some i }) ⟨rfl, rfl, rfl⟩ hmodes hacts with
  | lost hnone =>
    obtain ⟨s', hs'⟩ := he'.exists_session (by simp [hstate]) (by simp [hstate])
    cases hnone.symm.trans hs'
  | inspect j g => exact ⟨j, g, rfl⟩
  | item =>
    rcases state_showing _ _ _ with h | h
    · cases hstate.symm.trans h
    · cases hstate.symm.trans h

theorem returned_of_lands {d : Cursor} {w : Field} (hX : Sound (Contract.presented config x) X)
    (hstate : X.state = .review) (hs : X.session = some s) (hat : s.AtItem s.cursor index)
    (h : Away X s e) (hland : s.Lands (Contract.presented config x) .forward
      { s.cursor with page := 0 } d w)
    (he' : Sound (Contract.presented config x)
      ({ e with state := .review }.showing { s with cursor := d } w.filled)) :
    Returned x X index ({ e with state := .review }.showing { s with cursor := d } w.filled) := by
  obtain ⟨i, f, rfl⟩ := h
  obtain ⟨hruns, g, hshows⟩ := hX.runs hs
  obtain rfl := hland.first hshows hat
  have hspans : s.Spans { s.cursor with page := 0 } := ⟨hruns.spans.itemCount, hruns.spans.item_lt⟩
  have hat' : s.AtItem { s.cursor with page := 0 } index := hat
  have hopen : ¬(s.terminal = .dedicated ∧
      { s with cursor := { s.cursor with page := 0 } }.isTerminal = true) := fun h =>
    hat'.not_isTerminal hspans h.2
  rw [showing, if_neg hopen] at he' ⊢
  have hposition := he'.position_eq_item_iff.2
    ⟨rfl, _, rfl, hruns.itemIndex?_eq_some_iff.2 hat, rfl⟩
  obtain ⟨o, ho⟩ := he'.exists_openedBy rfl
  have hdisplays := he'.displays rfl ho (by rw [hposition]; trivial)
  rw [hposition] at hdisplays
  exact ⟨by simp [hs, hstate], rfl, fun s' hs' => he'.inspection_eq_none hs' (fun h => by cases h),
    hposition, hX.config ▸ hdisplays.field⟩

/-- Off the inspection with the review still going on, the item is on screen that was inspected. -/
theorem Away.returned (hX : Sound (Contract.presented config x) X) (hstate : X.state = .review)
    (hs : X.session = some s) (hat : s.AtItem s.cursor index) (h : Away X s e)
    (he' : Sound (Contract.presented config x) e')
    (honward : Onward (Contract.presented config x) e { s with inspection := some i } e')
    (hleft : e'.state ≠ .inspect) (hsession : e'.session ≠ none) : Returned x X index e' := by
  have hnone := hX.inspection_eq_none hs (by rw [hstate]; decide)
  have hback : { s with inspection := none } = s := by rw [← hnone]
  cases honward with
  | lost hnone => exact absurd hnone hsession
  | inspect j f =>
    obtain ⟨i, g, rfl⟩ := h
    exact absurd rfl hleft
  | @item d w hland =>
    have hback' : { s with inspection := none, cursor := d } = { s with cursor := d } := by
      rw [← hnone]
    simp only [hback] at hland
    simp only [hback'] at he' ⊢
    exact returned_of_lands hX hstate hs hat h hland he'

theorem Returned.eq (hX : Sound (Contract.presented config x) X)
    (he : Sound (Contract.presented config x) e) (hposition : X.position = .item index 0)
    (h : Returned x X index e) : e = X := by
  obtain ⟨hstate, s, hs, -, hpage⟩ := hX.position_eq_item_iff.1 hposition
  obtain ⟨o, ho⟩ := hX.exists_openedBy hs
  have hdisplays := hX.displays hs ho (by rw [hposition]; trivial)
  rw [hposition] at hdisplays
  have hfield : e.field = X.field :=
    Field.Clean.eq_of_holds he.field hX.field (he.config ▸ h.field) hdisplays.field
  have hcursor : { s with cursor := { s.cursor with page := 0 } } = s := by rw [← hpage]
  rw [h.engine, hfield, hs, Option.map_some, hcursor, ← hs]

inductive Action.Leads (e : Engine) (i : Inspection) : Action → Prop
  | toRoot : Leads e i .exitToRoot
  | level : i.depth ≤ 1 → Leads e i .exitLevel
  | selectRoot : e.position = .goToRoot → Leads e i (.take .select)
  | selectBack : e.position = .back → i.depth ≤ 1 → Leads e i (.take .select)
  | inspectRoot : Leads e i (.take .inspectRoot)
  | inspectBack : i.depth ≤ 1 → Leads e i (.take .inspectBack)

variable {t : Sitting Engine σ}

theorem exitLevel_leaves (hp : p.Honours C) (he : Sound C t.machine) (hi : t.machine.Inspects s i)
    (hdepth : i.depth ≤ 1) :
    (exitLevel p).Ensures t fun r t' => t.machine.Leaves C s r t'.machine := by
  have hascend : i.ascend = .ok none := by rw [Inspection.ascend, if_pos hdepth]; rfl
  rw [exitLevel, Loader.exitLevel]
  simp only [Operation.ensures_bind, Operation.ensures_machine, hi.state, ne_eq, not_true_eq_false,
    ↓reduceIte, ensures_getInspection hi.session hi.inspection, Operation.ensures_liftM, hascend,
    Except.ok.injEq, exists_eq_left']
  exact exitToRoot_leaves hp he hi

theorem leads_ensures {action : Action} (hp : p.Honours C) (he : Sound C t.machine)
    (hi : t.machine.Inspects s i) (h : action.Leads t.machine i) :
    (action.perform p).Ensures t fun r t' => ∃ r', r = r'.map Reply.output ∧
      t.machine.Leaves C s r' t'.machine := by
  have hmap {op : Operation Engine σ Output}
      (hop : op.Ensures t fun r t' => t.machine.Leaves C s r t'.machine) :
      (Reply.output <$> op).Ensures t fun r t' => ∃ r', r = r'.map Reply.output ∧
        t.machine.Leaves C s r' t'.machine := by
    rw [Operation.ensures_map]
    exact hop.mono fun r t' hr => ⟨r, rfl, hr⟩
  cases h with
  | toRoot => exact hmap (exitToRoot_leaves hp he hi)
  | level hdepth => exact hmap (exitLevel_leaves hp he hi hdepth)
  | selectRoot hposition =>
    refine hmap ?_
    simp only [Loader.update, Operation.ensures_bind, Operation.ensures_machine,
      Operation.ensures_note, hi.state]
    rw [Loader.select, Operation.ensures_bind]
    refine Operation.ensures_machine.2 ?_
    simp only [hposition]
    exact exitToRoot_leaves hp he hi
  | selectBack hposition hdepth =>
    refine hmap ?_
    simp only [Loader.update, Operation.ensures_bind, Operation.ensures_machine,
      Operation.ensures_note, hi.state]
    rw [Loader.select, Operation.ensures_bind]
    refine Operation.ensures_machine.2 ?_
    simp only [hposition]
    exact exitLevel_leaves hp he hi hdepth
  | inspectRoot =>
    refine hmap ?_
    simp only [Loader.update, Operation.ensures_bind, Operation.ensures_machine,
      Operation.ensures_note, hi.state]
    exact exitToRoot_leaves hp he hi
  | inspectBack hdepth =>
    refine hmap ?_
    simp only [Loader.update, Operation.ensures_bind, Operation.ensures_machine,
      Operation.ensures_note, hi.state]
    exact exitLevel_leaves hp he hi hdepth

theorem Course.away (hp : p.Honours C) (hstart : C.field (start config).field)
    {t' : Sitting Engine σ} {before steps : List Step} (hrun : Run p config before t)
    (h : Course p t steps t') (haway : Away X s t.machine)
    (hsteps : ∀ x ∈ steps, x.action.setsModes = false ∧ x.after.state = .inspect) :
    Away X s t'.machine := by
  induction h generalizing before with
  | nil => exact haway
  | cons action hact _ ih =>
    obtain ⟨hmodes, hstate⟩ := hsteps _ List.mem_cons_self
    have hrun' := hrun.act action hact
    have hnext := haway.onward (hrun'.sound hp hstart) hmodes (hrun.acts hp hstart hact) hstate
    exact ih hrun' hnext fun x hx => hsteps x (List.mem_cons_of_mem _ hx)

/-- After an inspection of an item, in front of a provider that always answers the same, the review
is on the first page of that item; the session is as it was apart from the page, and the field holds
the text of the page. Where the inspection began on the first page, the engine is the one that it
was then, and whatever is done next goes the same way as it would have gone from there, with the
same questions to the provider. This holds for every action that leaves the inspection without
ending the review; and the ways out that there are do leave it. -/
theorem returned_of_run (hp : p.Constant config pages x) (hsteady : p.Steady) {before : List Step}
    {t t₁ t₂ : Sitting Engine (Recorded σ)} (h : Run p.recorded config before t)
    (hposition : t.machine.position = .item index page)
    (henter : enterInspect p.recorded t = .ok (.ok out, t₁)) {during : List Step}
    (hcourse : Course p.recorded t₁ during t₂)
    (hduring : ∀ x ∈ during, x.action.setsModes = false ∧ x.after.state = .inspect) :
    (∀ (action : Action) reply t₃, action.perform p.recorded t₂ = .ok (reply, t₃) →
      t₃.machine.state ≠ .inspect → t₃.machine.session ≠ none →
      Returned x t.machine index t₃.machine ∧
        (page = 0 → t₃.machine = t.machine ∧ Repeats p t t₃)) ∧
    ∀ s i (action : Action), t₂.machine.Inspects s i → action.Leads t₂.machine i → ∃ t₃,
      action.perform p.recorded t₂ = .ok (.ok (.output .redraw), t₃) ∧
        t₃.machine.state ≠ .inspect ∧ t₃.machine.session ≠ none := by
  have hhonours := hp.recorded.presents.honours
  have hX := h.sound hhonours Field.clean_blank
  obtain ⟨hstate, s, hs, hindex, -⟩ := hX.position_eq_item_iff.1 hposition
  have hat := (hX.runs hs).1.itemIndex?_eq_some_iff.1 hindex
  obtain ⟨steps₁, hrun₁⟩ := h.exists_act .enterInspect rfl henter
  have haway₁ : Away t.machine s t₁.machine :=
    away_of_enter hs hstate ((enterInspect_ensures hhonours hX).of_eq henter)
  have haway := hcourse.away hhonours Field.clean_blank hrun₁ haway₁ hduring
  have hrun₂ := hcourse.run hrun₁
  refine ⟨fun action reply t₃ hact hleft hsession => ?_, fun s' i action hi hleads => ?_⟩
  · obtain ⟨i, hi⟩ := haway.inspects
    have he₃ := (hrun₂.act action hact).sound hhonours Field.clean_blank
    -- Setting the mode flags does not lead out of the inspection, so that it is another action.
    have hmodes : action.setsModes = false := by
      cases action with
      | setModes modes =>
        cases hact
        exact absurd hi.state hleft
      | _ => rfl
    have honward := onward_of_acts hi hmodes (hrun₂.acts hhonours Field.clean_blank hact)
    have hreturned := haway.returned hX hstate hs hat he₃ honward hleft hsession
    refine ⟨hreturned, fun hpage => ?_⟩
    subst hpage
    have hmachine := hreturned.eq hX he₃ hposition
    exact ⟨hmachine, repeats_of_eq hsteady hmachine⟩
  · obtain ⟨r, t₃, hact, r', rfl, hleaves⟩ :=
      leads_ensures hp.recorded.honours (hrun₂.constant hp.recorded) hi hleads
    cases r' with
    | error cause => exact absurd hleaves.2 Contract.not_fails_constant
    | ok out =>
      obtain ⟨rfl, d, w, -, ht₃⟩ := hleaves
      refine ⟨t₃, hact, ?_, by rw [ht₃]; exact Option.some_ne_none _⟩
      rw [ht₃]
      rcases state_showing t₂.machine { s' with inspection := none, cursor := d } w.filled with
        h | h
      · rw [h]
        decide
      · rw [h]
        decide

theorem returned_of_run_nest : ∃ t t₁ t₂ t₃,
    t.machine.position = .item 0 0 ∧
    enterInspect (Fixture.provider.fixed .nest).recorded t = .ok (.ok .redraw, t₁) ∧
    Action.advance.perform (Fixture.provider.fixed .nest).recorded t₁ =
      .ok (.ok (.output .redraw), t₂) ∧
    Action.exitToRoot.perform (Fixture.provider.fixed .nest).recorded t₂ =
      .ok (.ok (.output .redraw), t₃) ∧
    t₃.machine = t.machine ∧ Repeats (Fixture.provider.fixed .nest) t t₃ := by
  have hp := Fixture.constant .nest (by decide) rfl .stax
  have hsteady := Fixture.provider.fixed_steady .nest
  have hrun : ∃ steps t, Run (Fixture.provider.fixed .nest).recorded .stax steps t ∧
      t.machine.position = .item 0 0 ∧ ∃ t₁ t₂ s i,
        enterInspect (Fixture.provider.fixed .nest).recorded t = .ok (.ok .redraw, t₁) ∧
        Action.advance.perform (Fixture.provider.fixed .nest).recorded t₁ =
          .ok (.ok (.output .redraw), t₂) ∧ t₂.machine.Inspects s i :=
    ⟨_, _, .act (.begin .transaction false none) (.start ⟨(), []⟩) rfl, rfl, _, _, _, _, rfl, rfl,
      rfl, rfl, rfl⟩
  obtain ⟨steps, t, hrun, hposition, t₁, t₂, s, i, henter, hadvance, hi⟩ := hrun
  obtain ⟨hback, hleads⟩ := returned_of_run hp hsteady hrun hposition henter
    (.cons .advance hadvance .nil) (by simp [hi.state, Action.setsModes])
  obtain ⟨t₃, hexit, hleft, hsession⟩ := hleads s i .exitToRoot hi .toRoot
  obtain ⟨-, hfirst⟩ := hback .exitToRoot _ t₃ hexit hleft hsession
  exact ⟨t, t₁, t₂, t₃, hposition, henter, hadvance, hexit, hfirst rfl⟩

end Engine
end WalletReview
