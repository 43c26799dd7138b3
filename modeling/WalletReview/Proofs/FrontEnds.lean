import WalletReview.Proofs.OnScreen
import WalletReview.Proofs.StaticScreens

/-! The two ways to review a content agree. Going on from the beginning of a review up to its
approval, an engine shows the pages of the items one by one; a review without a cursor deals the
same pairs of key and value out in screens. -/
namespace WalletReview

open Engine (Run Step)

variable {σ : Type} {config : Config} {pages : List UInt8} {x : Content} {p : Provider σ}

def Screen.pair? (screen : Screen) : Option (String × String) :=
  match screen.position with
  | .item _ _ => some (screen.key, screen.value)
  | _ => none

def Content.pair? (x : Content) (config : Config) : Position → Option (String × String)
  | .item index page => some (x.shown config (index, page))
  | _ => none

theorem Content.filterMap_itemScreens (x : Content) (config : Config) (pages : List UInt8) :
    (itemScreens pages).filterMap (x.pair? config) = x.pairs config pages := by
  rw [itemScreens, List.filterMap_map, pairs, ← List.filterMap_eq_map]
  rfl

theorem Content.filterMap_intro (x : Content) (config : Config) (intro : List IntroScreen) :
    (intro.map Position.intro).filterMap (x.pair? config) = [] := by
  rw [List.filterMap_map, List.filterMap_eq_nil_iff]
  exact fun _ _ => rfl

theorem screens_eq (config : Config) (kind : Kind) (modes : Modes) (pages : List UInt8) :
    ∃ rest, screens config kind modes pages =
      ((introScreens kind modes config.titleScreen).map .intro ++ itemScreens pages) ++
        .approve :: rest := by
  unfold screens
  cases config.terminal with
  | items => exact ⟨[.reject], rfl⟩
  | approveOnly => exact ⟨[], rfl⟩
  | dedicated => exact ⟨[], rfl⟩

namespace Engine

/-- Going on as long as the approve screen is not there comes by these screens, that one included.
-/
inductive Walks (p : Provider σ) : Sitting Engine σ → List Screen → Prop
  | stop {t : Sitting Engine σ} : t.machine.isAtApprove = true → Walks p t [t.machine.display]
  | next {t t' : Sitting Engine σ} {screens : List Screen} : t.machine.isAtApprove = false →
    advance p t = .ok (.ok .redraw, t') → Walks p t' screens →
    Walks p t (t.machine.display :: screens)

theorem Walks.unique {t : Sitting Engine σ} {screens screens' : List Screen}
    (h : Walks p t screens) (h' : Walks p t screens') : screens = screens' := by
  induction h generalizing screens' with
  | stop happrove =>
    cases h' with
    | stop => rfl
    | next hnot => cases happrove.symm.trans hnot
  | next hnot hadvance _ ih =>
    cases h' with
    | stop happrove => cases happrove.symm.trans hnot
    | next _ hadvance' hrest =>
      cases hadvance.symm.trans hadvance'
      rw [ih hrest]

variable {e e' : Engine} {s : Session} {out : Output}

theorem state_showing (e : Engine) (s : Session) (f : Field) :
    ({ e with state := .review }.showing s f).state = .review ∨
      ({ e with state := .review }.showing s f).state = .confirm := by
  unfold showing
  by_cases h : s.terminal = .dedicated ∧ s.isTerminal = true
  · exact Or.inr (if_pos h)
  · exact Or.inl (if_neg h)

theorem state_showing_ne_inspect (e : Engine) (s : Session) (f : Field) :
    ({ e with state := .review }.showing s f).state ≠ .inspect := by
  rcases state_showing e s f with h | h <;> rw [h] <;> decide

/-- What is on display is the screen of the list under the cursor. -/
theorem Sound.position_of_rank (he : Sound (Contract.constant config pages x) e)
    (hs : e.session = some s) (hstate : e.state = .review ∨ e.state = .confirm) :
    (s.list config pages)[s.rank pages s.cursor]? = some e.position := by
  obtain ⟨hruns, f, hshows⟩ := he.runs hs
  rw [he.position_eq hs hstate]
  exact (hshows.mono Contract.constant_refines).list (hruns.mono Contract.constant_refines)

theorem Sound.position_of_drop {screen : Position} {rest : List Position}
    (he : Sound (Contract.constant config pages x) e) (hs : e.session = some s)
    (hstate : e.state = .review ∨ e.state = .confirm)
    (hlist : (s.list config pages).drop (s.rank pages s.cursor) = screen :: rest) :
    e.position = screen := by
  have hscreen := he.position_of_rank hs hstate
  rw [← List.head?_drop, hlist] at hscreen
  exact (Option.some.inj hscreen).symm

theorem Stepped.next (he : Sound (Contract.constant config pages x) e) (hs : e.session = some s)
    (hmore : s.rank pages s.cursor + 1 < (s.list config pages).length)
    (h : Stepped (Contract.constant config pages x) e s s.terminal.decisions .forward out e') :
    out = .redraw ∧ (e'.state = .review ∨ e'.state = .confirm) ∧
      ∃ d, e'.session = some { s with cursor := d } ∧
        s.rank pages d = s.rank pages s.cursor + 1 := by
  obtain ⟨hruns, f, hshows⟩ := he.runs hs
  have hruns' := hruns.mono Contract.constant_refines
  have hshows' := hshows.mono Contract.constant_refines
  cases h with
  | stay hno =>
    have hlast := hshows'.rank_last hruns' hno
    omega
  | move hstep hland =>
    have hland' := hland.mono Contract.constant_refines
    exact ⟨rfl, state_showing _ _ _, _, rfl, hland'.rank_next hruns' hshows' hstep⟩

/-- Without an offer to skip, going on comes to the next screen of the list, if there is one. -/
theorem Goes.next (he : Sound (Contract.constant config pages x) e) (hs : e.session = some s)
    (hstate : e.state = .review ∨ e.state = .confirm) (hconfirmation : s.confirmation = false)
    (hmore : s.rank pages s.cursor + 1 < (s.list config pages).length)
    (h : Goes (Contract.constant config pages x) e .forward out e') :
    out = .redraw ∧ (e'.state = .review ∨ e'.state = .confirm) ∧
      ∃ d, e'.session = some { s with cursor := d } ∧
        s.rank pages d = s.rank pages s.cursor + 1 := by
  cases h with
  | offer _ hs' hskip =>
    cases hs.symm.trans hs'
    obtain ⟨hruns, f, hshows⟩ := he.runs hs
    obtain ⟨index, hoffers⟩ := hruns.offersSkip hshows hskip
    cases hconfirmation.symm.trans hoffers.confirmation
  | step hs' _ _ _ hstep =>
    cases hs.symm.trans hs'
    exact hstep.next he hs hmore
  | visit hvisit => simp [hvisit] at hstate

theorem Sound.pair?_display (he : Sound (Contract.presented config x) e) (hs : e.session = some s) :
    e.display.pair? = x.pair? config e.position := by
  unfold Screen.pair?
  cases hposition : e.position with
  | item index page =>
    obtain ⟨o, ho⟩ := he.exists_openedBy hs
    have hdisplays := he.displays hs ho (by rw [hposition]; trivial)
    have hkey := hdisplays.key
    have hvalue := hdisplays.value
    rw [hposition] at hkey hvalue
    simp only [display, hposition] at hkey hvalue ⊢
    rw [hkey, hvalue]
    rfl
  | _ => simp only [display, hposition, Content.pair?]

theorem perform_of_eq {action : Action} {op : Operation Engine σ Output} {r : Except Error Output}
    {t t' : Sitting Engine σ} (haction : action.perform p = Reply.output <$> op)
    (hop : op t = .ok (r, t')) : action.perform p t = .ok (r.map .output, t') := by
  have hperform : (action.perform p).Ensures t fun r' t'' => r' = r.map .output ∧ t'' = t' := by
    rw [haction, Operation.ensures_map, Operation.ensures_iff_of_eq hop]
    exact ⟨rfl, rfl⟩
  obtain ⟨r', t'', hr, rfl, rfl⟩ := hperform
  exact hr

theorem Run.exists_act {steps : List Step} {t t' : Sitting Engine σ} (h : Run p config steps t)
    (action : Action) {op : Operation Engine σ Output} {r : Except Error Output}
    (haction : action.perform p = Reply.output <$> op) (hop : op t = .ok (r, t')) :
    ∃ steps', Run p config steps' t' :=
  ⟨_, .act action h (perform_of_eq haction hop)⟩

theorem Run.constant (hp : p.Constant config pages x) {steps : List Step} {t : Sitting Engine σ}
    (h : Run p config steps t) : Sound (Contract.constant config pages x) t.machine :=
  h.sound hp.honours Field.clean_blank

theorem Run.exists_advance (hp : p.Constant config pages x) {steps : List Step}
    {t : Sitting Engine σ} (h : Run p config steps t) (hs : t.machine.session = some s)
    (hinspect : t.machine.state ≠ .inspect) :
    ∃ out t', advance p t = .ok (.ok out, t') ∧
      t.machine.Goes (Contract.constant config pages x) .forward out t'.machine := by
  obtain ⟨r, t', hadvance, hyields⟩ := advance_ensures hp.honours (h.constant hp)
  obtain ⟨out, rfl, hgoes⟩ := hyields.exists_ok (by simp [hs]) fun hblames =>
    Contract.not_fails_constant (hblames.fails hinspect)
  exact ⟨out, t', hadvance, hgoes⟩

/-- On its way through the list of a review that never offers to skip, the engine has the screens
`left` to go, of which the first is on display. -/
structure Ahead (p : Provider σ) (config : Config) (pages : List UInt8) (left : List Position)
    (t : Sitting Engine σ) : Prop where
  run : ∃ steps, Run p config steps t
  review : ∃ s, t.machine.session = some s ∧
    (t.machine.state = .review ∨ t.machine.state = .confirm) ∧ s.confirmation = false ∧
    (s.list config pages).drop (s.rank pages s.cursor) = left

namespace Ahead

variable {t : Sitting Engine σ} {screen : Position} {left : List Position}

theorem position (hp : p.Constant config pages x) (h : Ahead p config pages (screen :: left) t) :
    t.machine.position = screen := by
  obtain ⟨steps, hrun⟩ := h.run
  obtain ⟨s, hs, hstate, -, hlist⟩ := h.review
  exact (hrun.constant hp).position_of_drop hs hstate hlist

theorem pair? (hp : p.Constant config pages x) (h : Ahead p config pages (screen :: left) t) :
    t.machine.display.pair? = x.pair? config screen := by
  obtain ⟨steps, hrun⟩ := h.run
  obtain ⟨s, hs, -⟩ := h.review
  rw [← h.position hp]
  exact (hrun.sound hp.presents.honours Field.clean_blank).pair?_display hs

theorem next (hp : p.Constant config pages x) (h : Ahead p config pages (screen :: left) t)
    (hleft : left ≠ []) :
    ∃ t', advance p t = .ok (.ok .redraw, t') ∧ Ahead p config pages left t' := by
  obtain ⟨steps, hrun⟩ := h.run
  obtain ⟨s, hs, hstate, hconfirmation, hlist⟩ := h.review
  have he := hrun.constant hp
  have hmore : s.rank pages s.cursor + 1 < (s.list config pages).length := by
    have hlength := congrArg List.length hlist
    have hpos := List.length_pos_iff.2 hleft
    rw [List.length_drop, List.length_cons] at hlength
    omega
  have hinspect : t.machine.state ≠ .inspect := by
    rcases hstate with hstate | hstate <;> rw [hstate] <;> decide
  obtain ⟨out, t', hadvance, hgoes⟩ := hrun.exists_advance hp hs hinspect
  obtain ⟨rfl, hstate', d, hs', hrank⟩ := hgoes.next he hs hstate hconfirmation hmore
  refine ⟨t', hadvance, hrun.exists_act .advance rfl hadvance, _, hs', hstate', hconfirmation, ?_⟩
  change (s.list config pages).drop (s.rank pages d) = left
  rw [hrank, List.drop_add_one_eq_tail_drop, hlist]
  rfl

end Ahead

/-- A walk comes by the screens before the approve screen, and shows the pages among them. The
induction is on the screens to go: each step on takes one of them away. -/
theorem exists_walks (hp : p.Constant config pages x) {ahead rest : List Position}
    (hahead : .approve ∉ ahead) {t : Sitting Engine σ}
    (h : Ahead p config pages (ahead ++ .approve :: rest) t) :
    ∃ screens, Walks p t screens ∧
      screens.filterMap Screen.pair? = ahead.filterMap (x.pair? config) := by
  induction ahead generalizing t with
  | nil =>
    refine ⟨_, .stop (by rw [isAtApprove, h.position hp]; rfl), ?_⟩
    rw [List.filterMap_cons, h.pair? hp]
    rfl
  | cons screen ahead ih =>
    have hne : screen ≠ .approve := fun heq => hahead (by rw [heq]; exact List.mem_cons_self)
    obtain ⟨t', hadvance, hnext⟩ := h.next hp (by simp)
    obtain ⟨screens, hwalks, hscreens⟩ := ih (fun hmem => hahead (List.mem_cons_of_mem _ hmem))
      hnext
    refine ⟨_, .next ?_ hadvance hwalks, ?_⟩
    · rw [isAtApprove, h.position hp]
      exact beq_false_of_ne hne
    · rw [List.filterMap_cons, List.filterMap_cons, h.pair? hp, hscreens]

theorem Begins.state {C : Contract config} {kind : Kind} {confirmation : Bool}
    {intent : Option String} (h : Begins C e kind confirmation intent out e') :
    e'.state = .review ∨ e'.state = .confirm := by
  cases h with
  | begin => exact state_showing _ _ _

theorem exists_begin (hp : p.Constant config pages x) {steps : List Step} {t : Sitting Engine σ}
    (h : Run p config steps t) (hidle : t.machine.state = .idle) (kind : Kind) (confirmation : Bool)
    (intent : Option String)
    (hroom : pages.length + (introScreens kind t.machine.modes config.titleScreen).length +
      config.terminal.trailing.toNat ≤ 255) :
    ∃ t₀, begin p kind confirmation intent t = .ok (.ok .redraw, t₀) := by
  have he := h.constant hp
  have hbarred : ¬Barred (Contract.constant config pages x) t.machine kind := fun hbarred =>
    not_barred_paged he.config (Contract.not_fails_paged fun _ hr => hr) hroom
      (hbarred.mono Contract.constant_refines)
  obtain ⟨r, t₀, hbegin, hyields⟩ := begin_ensures hp.honours he
  obtain ⟨out, rfl, hbegins⟩ := hyields.exists_ok (fun h => h hidle) fun h => hbarred h.2
  obtain ⟨rfl, -⟩ := hbegins.session
  exact ⟨t₀, hbegin⟩

/-- In front of a provider that never fails and always answers the same, a review without a cursor
shows the same pairs of key and value on its screens, from the first to the last, as an engine shows
for the pages of the items on its way from the beginning of a review to its approval. -/
theorem agrees_of_run (hp : p.Constant config pages x) {steps : List Step}
    {t t₀ : Sitting Engine σ} (h : Run p config steps t) {kind : Kind} {intent : Option String}
    {out : Output} (hbegin : begin p kind false intent t = .ok (.ok out, t₀))
    (content : σ) (journal : List Notice) :
    (∃ screens, Walks p t₀ screens) ∧ ∀ screens, Walks p t₀ screens →
      (StaticReview.allPairs p).Ensures ⟨.start config, content, journal⟩ fun r _ =>
        ∃ pairs, r = .ok pairs ∧ pairs.map Pair.text = screens.filterMap Screen.pair? := by
  have hbegins : Begins (Contract.constant config pages x) t.machine kind false intent out
      t₀.machine := (begin_ensures hp.honours (h.constant hp)).of_eq hbegin
  obtain ⟨s, hs, hrank, -⟩ := (hbegins.mono Contract.constant_refines).rank
  obtain ⟨-, s', hs', hkind, hmodes, hconfirmation⟩ := hbegins.session
  cases hs.symm.trans hs'
  obtain ⟨rest, hlist⟩ := screens_eq config kind t.machine.modes pages
  have hahead : Position.approve ∉
      (introScreens kind t.machine.modes config.titleScreen).map .intro ++ itemScreens pages := by
    simp [itemScreens]
  have hdrop : (s.list config pages).drop (s.rank pages s.cursor) =
      screens config kind t.machine.modes pages := by
    rw [hrank, Session.list, hkind, hmodes]
    rfl
  obtain ⟨screens, hwalks, hscreens⟩ := exists_walks hp hahead
    ⟨h.exists_act (.begin kind false intent) rfl hbegin, s, hs, hbegins.state, hconfirmation,
      hdrop.trans hlist⟩
  refine ⟨⟨screens, hwalks⟩, fun screens' hwalks' => ?_⟩
  cases hwalks.unique hwalks'
  rw [hscreens, List.filterMap_append, x.filterMap_intro, List.nil_append, x.filterMap_itemScreens]
  exact StaticReview.allPairs_ensures hp (StaticReview.serves_start config _)

theorem agrees_of_run_transfer : ∃ t₀ screens,
    begin (Listing.provider.fixed .transfer) .transaction false none ⟨.start .nanoS, (), []⟩ =
      .ok (.ok .redraw, t₀) ∧
    Walks (Listing.provider.fixed .transfer) t₀ screens ∧
    (StaticReview.allPairs (Listing.provider.fixed .transfer)).Ensures
      ⟨.start .nanoS, (), []⟩ fun r _ =>
        ∃ pairs, r = .ok pairs ∧ pairs.map Pair.text = screens.filterMap Screen.pair? := by
  have hp := Listing.constant .transfer (by decide) .nanoS
  have hrun : Run (Listing.provider.fixed .transfer) .nanoS [] ⟨.start .nanoS, (), []⟩ := .start ()
  obtain ⟨t₀, hbegin⟩ := exists_begin hp hrun rfl .transaction false none (by decide)
  obtain ⟨⟨screens, hwalks⟩, hagrees⟩ := agrees_of_run hp hrun hbegin () []
  exact ⟨t₀, screens, hbegin, hwalks, hagrees screens hwalks⟩

end Engine
end WalletReview
