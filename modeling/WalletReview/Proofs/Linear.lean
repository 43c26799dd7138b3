import WalletReview.Proofs.Content
import WalletReview.Proofs.Reviews
import WalletReview.Proofs.Screens

/-! A review walks the list of its screens one by one. The walk leaves the list for the offer to
skip, which stands between a last page and the screen after it, and for inspections. -/
namespace WalletReview

open Engine (Direction)

variable {σ : Type} {config : Config} {pages : List UInt8} {title : Except Error Unit → Prop}
  {p : Provider σ}

def Position.Ends (pages : List UInt8) (screen : Position) (index : UInt8) : Prop :=
  ∃ page count, screen = .item index page ∧ pages[index.toNat]? = some count ∧
    page.toNat + 1 = count.toNat

theorem Fixture.paged {y : Fixture} (hfail : y.failAt = none) (h : y.items.length ≤ 255) :
    (provider.fixed y).Paged (y.items.map (·.value)) where
  itemCount _ := by
    refine ⟨y.items.length.toUInt8, rfl, ?_⟩
    rw [Nat.toUInt8, UInt8.toNat_ofNat', Nat.mod_eq_of_lt (by omega), List.length_map]
  item index page f _ count hcount := by
    rw [List.getElem?_map, Option.map_eq_some_iff] at hcount
    obtain ⟨item, hitem, rfl⟩ := hcount
    simp [Provider.fixed, provider, hfail, hitem]

theorem Fixture.paged_ofPages (h : pages.length ≤ 255) :
    (provider.fixed (.ofPages pages)).Paged pages := by
  have hpaged := paged (y := .ofPages pages) rfl (by simpa [ofPages] using h)
  have hvalues : (Fixture.ofPages pages).items.map (·.value) = pages :=
    List.map_map.trans (List.map_id pages)
  rwa [hvalues] at hpaged

namespace Session

variable {s : Session} {c d : Cursor} {f w : Field} {index skipMin : UInt8} {dir : Direction}

def list (s : Session) (config : Config) (pages : List UInt8) : List Position :=
  screens config s.kind s.modes pages

theorem Fits.flatten_blocks (hs : s.Fits (Contract.paged config pages title)) :
    (s.blocks pages).flatten = s.list config pages := by
  rw [blocks_flatten, list, screens, hs.intro, hs.terminal]

theorem Shows.list (h : s.Shows (Contract.paged config pages title) f)
    (hs : s.Runs (Contract.paged config pages title)) :
    (s.list config pages)[s.rank pages s.cursor]? = some s.screen := by
  rw [← hs.fits.flatten_blocks]
  exact h.screen hs

theorem Lands.list (h : s.Lands (Contract.paged config pages title) dir c d w)
    (hs : s.Fits (Contract.paged config pages title)) (hc : s.Spans c) :
    (s.list config pages)[s.rank pages d]? = some { s with cursor := d }.screen := by
  have hruns : { s with cursor := d }.Runs (Contract.paged config pages title) :=
    ⟨hs.congr d s.inspection, (h.spans hc).congr d s.inspection⟩
  exact h.shows.list hruns

/-- A step on comes to the next screen. -/
theorem Lands.rank_next (h : s.Lands (Contract.paged config pages title) .forward c d w)
    (hs : s.Runs (Contract.paged config pages title))
    (hshows : s.Shows (Contract.paged config pages title) f)
    (hstep : s.cursor.Steps s.terminal.decisions .forward c) :
    s.rank pages d = s.rank pages s.cursor + 1 :=
  (h.comes hs.fits (hs.spans.of_steps hstep)).rank_next (hshows.on hs) hstep

theorem Lands.rank_previous (h : s.Lands (Contract.paged config pages title) .backward c d w)
    (hs : s.Runs (Contract.paged config pages title))
    (hshows : s.Shows (Contract.paged config pages title) f)
    (hstep : s.cursor.Steps s.terminal.decisions .backward c) :
    s.rank pages d + 1 = s.rank pages s.cursor :=
  (h.comes hs.fits (hs.spans.of_steps hstep)).rank_previous (hshows.on hs) hstep

theorem Shows.rank_last (h : s.Shows (Contract.paged config pages title) f)
    (hs : s.Runs (Contract.paged config pages title))
    (hno : ∀ c, ¬s.cursor.Steps s.terminal.decisions .forward c) :
    (s.list config pages).length = s.rank pages s.cursor + 1 := by
  have hblocks := s.blocks_length pages
  have hcount := hs.spans.itemCount
  have hroom := hs.fits.room
  have hdecisions : s.terminal.decisions ≤ s.terminal.trailing.toNat + 1 := by
    cases s.terminal <;> decide
  rw [← hs.fits.itemCount_eq] at hblocks
  rw [← hs.fits.flatten_blocks]
  exact (h.on hs).rank_last hno (by omega) (by omega)

theorem rank_first (hno : ∀ c, ¬s.cursor.Steps s.terminal.decisions .backward c) :
    s.rank pages s.cursor = 0 :=
  Blocks.rank_first hno

/-- A step back that finds nothing starts at the beginning of the list. -/
theorem Misses.rank_first (h : s.Misses (Contract.paged config pages title) c)
    (hs : s.Runs (Contract.paged config pages title))
    (hshows : s.Shows (Contract.paged config pages title) f)
    (hstep : s.cursor.Steps s.terminal.decisions .backward c) :
    s.rank pages s.cursor = 0 := by
  obtain ⟨c', hpass, hzero, hempty⟩ := h
  exact (hshows.on hs).rank_first_of_passes hstep (passes_block hpass hs.fits)
    (hempty.block hs.fits) hzero

theorem Lands.rank_same (h : s.Lands (Contract.paged config pages title) dir s.cursor d w)
    (hs : s.Runs (Contract.paged config pages title))
    (hshows : s.Shows (Contract.paged config pages title) f) :
    s.rank pages d = s.rank pages s.cursor :=
  h.rank_of_lt hs hshows rfl rfl hshows.page_lt

theorem AtItem.ends_iff (h : s.AtItem s.cursor index)
    (hs : s.Runs (Contract.paged config pages title))
    (hshows : s.Shows (Contract.paged config pages title) f) :
    s.screen.Ends pages index ↔ s.cursor.pageCount.toNat ≤ s.cursor.page.toNat + 1 := by
  obtain ⟨b, hb, hlength, hlt⟩ := hshows.on hs
  obtain ⟨count, hcount⟩ := h.exists_count hs.fits
  have hscreen := screen_item hs.fits hs.spans h
  rw [h.block hcount] at hb
  cases hb
  simp only [List.length_map, List.length_range] at hlength hlt
  constructor
  · rintro ⟨page, count', hpage, hcount', hlast⟩
    rw [hscreen, Position.item.injEq] at hpage
    cases hcount.symm.trans hcount'
    rw [hpage.2]
    omega
  · intro hlast
    exact ⟨_, _, hscreen, hcount, by omega⟩

theorem atItem_of_ends (hs : s.Runs (Contract.paged config pages title))
    (h : s.screen.Ends pages index) : s.AtItem s.cursor index := by
  obtain ⟨page, count, hpage, -⟩ := h
  rcases s.place_cases s.cursor with ⟨screen, hscreen⟩ | ⟨index', hat⟩ | hle
  · rw [screen_intro hs.spans hscreen] at hpage
    cases hpage
  · rw [screen_item hs.fits hs.spans hat, Position.item.injEq] at hpage
    rw [← hpage.1]
    exact hat
  · have hscreen := List.mem_of_getElem? (screen_decision hs hle)
    rw [hpage] at hscreen
    cases hmode : s.terminal <;> simp [hmode, TerminalMode.screens] at hscreen

structure OffersAfter (s : Session) (config : Config) (pages : List UInt8) (screen : Position)
    (index : UInt8) : Prop where
  confirmation : s.confirmation = true
  signing : s.kind.isSigning = true
  ends : screen.Ends pages index
  le : config.skipMinItem ≤ index
  next : index.toNat + 1 < pages.length

theorem offersSkip_iff (hs : s.Runs (Contract.paged config pages title))
    (hshows : s.Shows (Contract.paged config pages title) f) :
    s.OffersSkip config.skipMinItem index ↔ s.OffersAfter config pages s.screen index := by
  have hcount := hs.fits.itemCount_eq
  constructor
  · intro h
    exact ⟨h.confirmation, h.signing, (h.atItem.ends_iff hs hshows).2 h.last, h.le,
      by rw [← hcount]; exact h.next⟩
  · intro h
    have hat := atItem_of_ends hs h.ends
    exact ⟨h.confirmation, h.signing, hat, (hat.ends_iff hs hshows).1 h.ends, h.le,
      by rw [hcount]; exact h.next⟩

end Session

theorem Contract.not_fails_paged (htitle : ∀ r, title r → r = .ok () ∨ r = .error .noData) :
    ¬(Contract.paged config pages title).Fails := by
  rintro (⟨hcause, htitled⟩ | ⟨hcounted, hindex, hunsteady⟩)
  · rcases htitle _ htitled with h | h
    · cases h
    · cases h
      exact hcause rfl
  · obtain ⟨count, hcount, hlength⟩ := hcounted
    cases hcount
    rw [hlength] at hindex
    have hpages := List.getElem?_eq_getElem hindex
    rcases hunsteady with ⟨page, cause, w, hanswer⟩ | ⟨_, _, _, _, _, _, hanswer, hlast, hne⟩
    · cases hanswer _ hpages
    · cases hanswer _ hpages
      cases hlast _ hpages
      exact hne rfl

namespace Engine

inductive MovesOn (s : Session) (config : Config) (pages : List UInt8) (k : Nat) :
    Output → Engine → Prop
  | offer {screen : Position} {index : UInt8} {e' : Engine} :
    (s.list config pages)[k]? = some screen → s.OffersAfter config pages screen index →
    e'.position = .interstitial index → MovesOn s config pages k .redraw e'
  | next {screen : Position} {e' : Engine} : (s.list config pages)[k]? = some screen →
    (∀ index, ¬s.OffersAfter config pages screen index) →
    (s.list config pages)[k + 1]? = some e'.position → MovesOn s config pages k .redraw e'
  | stay {screen : Position} {e' : Engine} : (s.list config pages)[k]? = some screen →
    (∀ index, ¬s.OffersAfter config pages screen index) →
    (s.list config pages).length = k + 1 → e'.position = screen →
    MovesOn s config pages k .none e'

inductive MovesBack (s : Session) (config : Config) (pages : List UInt8) :
    Nat → Output → Engine → Prop
  | previous {k : Nat} {e' : Engine} : (s.list config pages)[k]? = some e'.position →
    MovesBack s config pages (k + 1) .redraw e'
  | stay {e' : Engine} : (s.list config pages)[0]? = some e'.position →
    MovesBack s config pages 0 .none e'

variable {s : Session} {e e' : Engine} {out : Output}
  {t : Sitting Engine σ}

theorem movesOn_of_goes (he : Sound (Contract.paged config pages title) e)
    (hs : e.session = some s) (hstate : e.state = .review ∨ e.state = .confirm)
    (h : Goes (Contract.paged config pages title) e .forward out e') :
    MovesOn s config pages (s.rank pages s.cursor) out e' := by
  obtain ⟨hruns, f, hshows⟩ := he.runs hs
  have hposition := he.position_eq hs hstate
  have hlist := hshows.list hruns
  cases h with
  | offer _ hs' hskip =>
    cases hs.symm.trans hs'
    obtain ⟨index, hoffers⟩ := hruns.offersSkip hshows hskip
    refine .offer hlist ((Session.offersSkip_iff hruns hshows).1 hoffers) ?_
    simp [position, hs, hruns.itemIndex?_eq_some_iff.2 hoffers.atItem]
  | step hs' _ _ hno hstep =>
    cases hs.symm.trans hs'
    have hnot (index : UInt8) : ¬s.OffersAfter config pages s.screen index := by
      intro hoffers
      rcases hstate with hstate | hstate
      · have hskip := (Session.offersSkip_iff hruns hshows).2 hoffers
        rcases Session.skipEligible_eq hruns hshows.page_lt config.skipMinItem with
          ⟨htrue, -⟩ | ⟨-, hnone⟩
        · cases htrue.symm.trans (hno rfl hstate)
        · exact hnone index hskip
      · obtain ⟨page, count, hpage, -⟩ := hoffers.ends
        rw [← hposition, position, hstate, hs] at hpage
        cases hpage
    cases hstep with
    | stay hno => exact .stay hlist hnot (hshows.rank_last hruns hno) hposition
    | move hstep hland =>
      refine .next hlist hnot ?_
      rw [position_showing, ← hland.rank_next hruns hshows hstep]
      exact hland.list hruns.fits (hruns.spans.of_steps hstep)
  | visit hvisit => simp [hvisit] at hstate

theorem movesBack_of_goes (he : Sound (Contract.paged config pages title) e)
    (hs : e.session = some s) (hstate : e.state = .review ∨ e.state = .confirm)
    (h : Goes (Contract.paged config pages title) e .backward out e') :
    MovesBack s config pages (s.rank pages s.cursor) out e' := by
  obtain ⟨hruns, f, hshows⟩ := he.runs hs
  have hposition := he.position_eq hs hstate
  have hlist := hshows.list hruns
  cases h with
  | step hs' _ _ _ hstep =>
    cases hs.symm.trans hs'
    cases hstep with
    | stay hno =>
      rw [Session.rank_first hno] at hlist ⊢
      exact .stay (by rw [hposition]; exact hlist)
    | move hstep hland =>
      rw [← hland.rank_previous hruns hshows hstep]
      refine .previous ?_
      rw [position_showing]
      exact hland.list hruns.fits (hruns.spans.of_steps hstep)
    | miss hstep hmiss hland =>
      have hrank := hmiss.rank_first hruns hshows hstep
      have hsame := hland.rank_same hruns hshows
      have hlist' := hland.list hruns.fits hruns.spans
      rw [hsame, hrank] at hlist'
      rw [hrank]
      refine .stay ?_
      rw [position_showing]
      exact hlist'
  | resume hinter => simp [hinter] at hstate
  | visit hvisit => simp [hvisit] at hstate

theorem next_of_goes (he : Sound (Contract.paged config pages title) e)
    (hs : e.session = some s) (hstate : e.state = .interstitial)
    (hsteps : ∃ c, s.cursor.Steps s.terminal.decisions .forward c)
    (h : Goes (Contract.paged config pages title) e .forward out e') :
    out = .redraw ∧ (s.list config pages)[s.rank pages s.cursor + 1]? = some e'.position := by
  obtain ⟨hruns, f, hshows⟩ := he.runs hs
  cases h with
  | offer hreview => simp [hstate] at hreview
  | step hs' _ _ _ hstep =>
    cases hs.symm.trans hs'
    cases hstep with
    | stay hno =>
      obtain ⟨c, hc⟩ := hsteps
      exact absurd hc (hno c)
    | move hstep hland =>
      refine ⟨rfl, ?_⟩
      rw [position_showing, ← hland.rank_next hruns hshows hstep]
      exact hland.list hruns.fits (hruns.spans.of_steps hstep)
  | visit hvisit => simp [hstate] at hvisit

theorem back_of_goes (he : Sound (Contract.paged config pages title) e)
    (hs : e.session = some s) (hstate : e.state = .interstitial)
    (h : Goes (Contract.paged config pages title) e .backward out e') :
    out = .redraw ∧ (s.list config pages)[s.rank pages s.cursor]? = some e'.position := by
  obtain ⟨hruns, f, hshows⟩ := he.runs hs
  cases h with
  | step _ _ hdir => cases hdir hstate
  | resume _ hs' hland =>
    cases hs.symm.trans hs'
    refine ⟨rfl, ?_⟩
    rw [position_showing, ← hland.rank_same hruns hshows]
    exact hland.list hruns.fits hruns.spans
  | visit hvisit => simp [hstate] at hvisit

theorem Begins.rank {kind : Kind} {confirmation : Bool} {intent : Option String}
    (h : Begins (Contract.paged config pages title) e kind confirmation intent out e') :
    ∃ s, e'.session = some s ∧ s.rank pages s.cursor = 0 ∧
      (s.list config pages)[0]? = some e'.position := by
  cases h with
  | @begin count d w hidle hfits hland =>
    have hspans := newSession_spans hfits
    have hstart : (e.newSession kind confirmation intent count).cursor =
        .start (e.newSession kind confirmation intent count).cursor.itemCount := by
      obtain ⟨text, -, hnew⟩ := e.newSession_eq kind confirmation intent count
      rw [hnew]
      rfl
    have hrank := hland.rank_near hfits hspans (by rw [hstart]; rfl)
    have hlist := hland.list hfits hspans
    have hzero : (e.newSession kind confirmation intent count).rank pages
        (e.newSession kind confirmation intent count).cursor = 0 := by
      rw [Session.rank, hstart]
      rfl
    rw [hzero] at hrank
    rw [hrank] at hlist
    exact ⟨_, rfl, hrank, by rw [position_showing]; exact hlist⟩

theorem Begins.session {C : Contract config} {kind : Kind} {confirmation : Bool}
    {intent : Option String} (h : Begins C e kind confirmation intent out e') :
    out = .redraw ∧ ∃ s, e'.session = some s ∧ s.kind = kind ∧ s.modes = e.modes ∧
      s.confirmation = confirmation := by
  cases h with
  | @begin count d w hidle hfits hland =>
    obtain ⟨text, -, hnew⟩ := e.newSession_eq kind confirmation intent count
    refine ⟨rfl, _, rfl, ?_⟩
    rw [hnew]
    exact ⟨rfl, rfl, rfl⟩

theorem not_barred_paged {kind : Kind} (hconfig : e.config = config)
    (hfails : ¬(Contract.paged config pages title).Fails)
    (hroom : pages.length + (introScreens kind e.modes config.titleScreen).length +
      config.terminal.trailing.toNat ≤ 255) :
    ¬Barred (Contract.paged config pages title) e kind := by
  subst hconfig
  rintro (hcounted | ⟨hcounted, hcrowded⟩ | h)
  · obtain ⟨count, hcount, -⟩ := hcounted
    cases hcount
  · obtain ⟨count, hcount, hlength⟩ := hcounted
    cases hcount
    omega
  · exact hfails h

/-- The moves of a review are those of a walk through the list of its screens. -/
structure Linear (p : Provider σ) (config : Config) (pages : List UInt8) (t : Sitting Engine σ) :
    Prop where
  begins (kind : Kind) (confirmation : Bool) (intent : Option String) :
    t.machine.state = .idle →
    pages.length + (introScreens kind t.machine.modes config.titleScreen).length +
      config.terminal.trailing.toNat ≤ 255 →
    (begin p kind confirmation intent).Ensures t fun r t' => r = .ok .redraw ∧
      (screens config kind t.machine.modes pages)[0]? = some t'.machine.position ∧
      ∃ s, t'.machine.session = some s ∧ s.kind = kind ∧ s.modes = t.machine.modes ∧
        s.confirmation = confirmation
  listed (s : Session) : t.machine.session = some s →
    t.machine.state = .review ∨ t.machine.state = .confirm →
    ∃ k, (s.list config pages)[k]? = some t.machine.position ∧
      ((advance p).Ensures t fun r t' => ∃ out, r = .ok out ∧
        MovesOn s config pages k out t'.machine) ∧
      ((retreat p).Ensures t fun r t' => ∃ out, r = .ok out ∧
        MovesBack s config pages k out t'.machine)
  offered (s : Session) : t.machine.session = some s → t.machine.state = .interstitial →
    ∃ k screen index, (s.list config pages)[k]? = some screen ∧
      s.OffersAfter config pages screen index ∧ t.machine.position = .interstitial index ∧
      ((advance p).Ensures t fun r t' => r = .ok .redraw ∧
        (s.list config pages)[k + 1]? = some t'.machine.position) ∧
      ((retreat p).Ensures t fun r t' => r = .ok .redraw ∧ t'.machine.position = screen)
  /-- The list stays the same as long as the review lasts. -/
  continues (action : Action) (reply : Except Error Reply) (t' : Sitting Engine σ)
    (s s' : Session) :
    action.perform p t = .ok (reply, t') → t.machine.session = some s →
    t'.machine.session = some s' → s.Continues s'

/-- In front of a provider that never fails and whose items have fixed page counts, a review is a
walk through one list of screens in every state of every run. -/
theorem linear_of_run (hp : p.Paged pages)
    (htitle : ∀ f st, (p.title f st).1 = .ok () ∨ (p.title f st).1 = .error .noData)
    {steps : List Step} (h : Run p config steps t) : Linear p config pages t := by
  let replies (r : Except Error Unit) : Prop := r = .ok () ∨ r = .error .noData
  have hhonours : p.Honours (Contract.paged config pages replies) := hp.honours htitle
  have hfails : ¬(Contract.paged config pages replies).Fails :=
    Contract.not_fails_paged fun _ hr => hr
  have he := h.sound hhonours trivial
  -- Off an inspection there is nothing to blame a provider for that never fails: moves succeed.
  have hgoes {s : Session} (hs : t.machine.session = some s) (hstate : t.machine.state ≠ .inspect)
      {dir : Direction} {r : Except Error Output} {t' : Sitting Engine σ}
      (hr : t.machine.Yields (Contract.paged config pages replies) (t.machine.session = none)
        (t.machine.Blames (Contract.paged config pages replies))
        (t.machine.Goes (Contract.paged config pages replies) dir) r t'.machine) :=
    hr.exists_ok (by simp [hs]) fun hblames => hfails (hblames.fails hstate)
  refine ⟨fun kind confirmation intent hidle hroom => ?_, fun s hs hstate => ?_,
    fun s hs hstate => ?_, fun action reply t' s s' hact hs hs' => ?_⟩
  · refine (begin_ensures hhonours he).mono fun r t' hr => ?_
    obtain ⟨out, rfl, hbegins⟩ :=
      hr.exists_ok (fun h => h hidle) fun h => not_barred_paged he.config hfails hroom h.2
    obtain ⟨s, hs, -, hfirst⟩ := hbegins.rank
    obtain ⟨rfl, s', hs', hkind, hmodes, hconfirmation⟩ := hbegins.session
    cases hs.symm.trans hs'
    rw [Session.list, hkind, hmodes] at hfirst
    exact ⟨rfl, hfirst, s, hs, hkind, hmodes, hconfirmation⟩
  · have hinspect : t.machine.state ≠ .inspect := by
      rcases hstate with hstate | hstate <;> rw [hstate] <;> decide
    obtain ⟨hruns, f, hshows⟩ := he.runs hs
    refine ⟨s.rank pages s.cursor, ?_, ?_, ?_⟩
    · rw [he.position_eq hs hstate]
      exact hshows.list hruns
    · refine (advance_ensures hhonours he).mono fun r t' hr => ?_
      obtain ⟨out, hout, h⟩ := hgoes hs hinspect hr
      exact ⟨out, hout, movesOn_of_goes he hs hstate h⟩
    · refine (retreat_ensures hhonours he).mono fun r t' hr => ?_
      obtain ⟨out, hout, h⟩ := hgoes hs hinspect hr
      exact ⟨out, hout, movesBack_of_goes he hs hstate h⟩
  · have hinspect : t.machine.state ≠ .inspect := by rw [hstate]; decide
    obtain ⟨s', f, hs', -, hskip, hruns, hshows⟩ := he.interstitial hstate
    cases hs.symm.trans hs'
    obtain ⟨index, hoffers⟩ := hruns.offersSkip hshows hskip
    refine ⟨_, s.screen, index, hshows.list hruns, (Session.offersSkip_iff hruns hshows).1 hoffers,
      ?_, ?_, ?_⟩
    · simp [position, hstate, hs, hruns.itemIndex?_eq_some_iff.2 hoffers.atItem]
    · refine (advance_ensures hhonours he).mono fun r t' hr => ?_
      obtain ⟨out, rfl, h⟩ := hgoes hs hinspect hr
      obtain ⟨rfl, hnext⟩ := next_of_goes he hs hstate (hoffers.steps hruns) h
      exact ⟨rfl, hnext⟩
    · refine (retreat_ensures hhonours he).mono fun r t' hr => ?_
      obtain ⟨out, rfl, h⟩ := hgoes hs hinspect hr
      obtain ⟨rfl, hback⟩ := back_of_goes he hs hstate h
      rw [hshows.list hruns] at hback
      exact ⟨rfl, (Option.some.inj hback).symm⟩
  · rcases continues_of_acts he (h.acts hhonours trivial hact) hs with hnone | ⟨s'', hs'', hcont⟩
    · simp [hnone] at hs'
    · cases hs'.symm.trans hs''
      exact hcont

theorem linear_of_run_ofPages : ∃ steps t,
    Run (Fixture.provider.fixed (.ofPages [2, 0, 1])) .stax steps t ∧
      t.machine.position = .item 0 1 ∧
      Linear (Fixture.provider.fixed (.ofPages [2, 0, 1])) .stax [2, 0, 1] t := by
  have h : ∃ steps t, Run (Fixture.provider.fixed (.ofPages [2, 0, 1])) .stax steps t ∧
      t.machine.position = .item 0 1 :=
    ⟨_, _, .act .advance (.act (.begin .transaction false none) (.start ()) rfl) rfl, rfl⟩
  obtain ⟨steps, t, hrun, hposition⟩ := h
  exact ⟨steps, t, hrun, hposition,
    linear_of_run (Fixture.paged_ofPages (by decide)) (fun _ _ => Or.inr rfl) hrun⟩

end Engine
end WalletReview
