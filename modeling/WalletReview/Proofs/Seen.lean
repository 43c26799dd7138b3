import Mathlib.Control.Monad.Basic
import WalletReview.Proofs.Linear

/-! Approval of what was seen. Up to the screen under the cursor, everything in the list of a review
has been on display since the review began, unless there was a jump to its end. -/
namespace WalletReview

open Engine (Direction)

variable {σ : Type} {config : Config} {pages : List UInt8} {title : Except Error Unit → Prop}
  {f : Field}

def Position.IsPage (pages : List UInt8) (screen : Position) : Prop :=
  ∃ index page count, screen = .item index page ∧ pages[index.toNat]? = some count ∧ page < count

namespace Session

/-- The screen is in the list of a session, up to the one under its cursor. -/
def Passed (s : Session) (config : Config) (pages : List UInt8) (screen : Position) : Prop :=
  ∃ k, k ≤ s.rank pages s.cursor ∧ (s.list config pages)[k]? = some screen

variable {s : Session} {c : Cursor} {index page count : UInt8}

theorem list_item (hs : s.Fits (Contract.paged config pages title))
    (hcount : pages[index.toNat]? = some count) (hpage : page < count) :
    (s.list config pages)[Blocks.offset (s.blocks pages) (s.intro.length + index.toNat) +
      page.toNat]? = some (.item index page) := by
  have hlt := UInt8.lt_iff_toNat_lt.1 hpage
  rw [← hs.flatten_blocks, Blocks.getElem?_flatten (blocks_item hcount) (by simpa using hlt)]
  simp [hlt, Nat.toUInt8]

theorem rank_item_lt (hcount : pages[index.toNat]? = some count) (hpage : page < count)
    (hc : s.intro.length + index.toNat < c.item.toNat) :
    Blocks.offset (s.blocks pages) (s.intro.length + index.toNat) + page.toNat <
      s.rank pages c := by
  have hlt := UInt8.lt_iff_toNat_lt.1 hpage
  have hoffset := Blocks.offset_succ (blocks_item (s := s) hcount)
  have hle : Blocks.offset (s.blocks pages) (s.intro.length + index.toNat + 1) ≤
      Blocks.offset (s.blocks pages) c.item.toNat := Blocks.offset_le hc
  simp only [List.length_map, List.length_range] at hoffset
  rw [rank]
  omega

/-- Where skipping is offered, no page of the items so far is left to come. -/
theorem OffersSkip.rank_item_le {skipMin i : UInt8} (h : s.OffersSkip skipMin index)
    (hs : s.Runs (Contract.paged config pages title))
    (hshows : s.Shows (Contract.paged config pages title) f) (hi : i ≤ index)
    (hcount : pages[i.toNat]? = some count) (hpage : page < count) :
    Blocks.offset (s.blocks pages) (s.intro.length + i.toNat) + page.toNat ≤
      s.rank pages s.cursor := by
  have hitem := h.atItem.1
  rw [UInt8.le_iff_toNat_le] at hi
  rcases Nat.eq_or_lt_of_le hi with heq | hlt
  · obtain ⟨b, hb, hlength, -⟩ := hshows.on hs
    have hlast := h.last
    have hpage := UInt8.lt_iff_toNat_lt.1 hpage
    rw [hitem, ← heq, blocks_item hcount] at hb
    cases hb
    simp only [List.length_map, List.length_range] at hlength
    rw [rank, hitem, heq]
    omega
  · exact Nat.le_of_lt (rank_item_lt hcount hpage (by omega))

theorem screen_eq_shortcut (hs : s.Runs (Contract.paged config pages title))
    (h : s.intro[s.cursor.item.toNat]? = some .shortcut) :
    s.screen = .intro .shortcut ∧ s.modes.shortcut = true ∧ s.kind ≠ .address := by
  refine ⟨screen_intro hs.spans h, ?_⟩
  have hmem := List.mem_of_getElem? h
  rw [hs.fits.intro, introScreens] at hmem
  simpa using hmem

end Session

namespace Engine

def Displayed (steps : List Step) (screen : Position) : Prop :=
  ∃ x ∈ steps, x.after.position = screen

instance (steps : List Step) (screen : Position) : Decidable (Displayed steps screen) :=
  inferInstanceAs (Decidable (∃ x ∈ steps, _))

namespace Step

def Skips (x : Step) : Prop :=
  x.action.skips x.before = true ∧
    (x.reply = .ok (.output .redraw) ∨ x.reply = .ok (.response .update)) ∧
    x.after.session.isSome = true

def Approves (x : Step) : Prop :=
  x.reply = .ok (.output .approved) ∨ x.reply = .ok (.response (.exit true))

instance (x : Step) : Decidable x.Approves := inferInstanceAs (Decidable (_ ∨ _))

/-- The jump was offered by the shortcut, or by an offer to skip that came after every page of the
items so far. -/
inductive MaySkip (config : Config) (pages : List UInt8) (x : Step) (earlier : List Step) : Prop
  | shortcut {s : Session} : x.before.session = some s → x.before.position = .intro .shortcut →
    s.modes.shortcut = true → s.kind ≠ .address → MaySkip config pages x earlier
  | offer {s : Session} {index : UInt8} : x.before.session = some s →
    x.before.position = .interstitial index → s.confirmation = true → s.kind.isSigning = true →
    config.skipMinItem ≤ index →
    (∀ i page count, i ≤ index → pages[i.toNat]? = some count → page < count →
      Displayed earlier (.item i page)) → MaySkip config pages x earlier

end Step

/-- Among the steps of a review there is no jump to its end, and all of `screens` were on; or else
the first jump was one that may be taken. -/
def Shown (config : Config) (pages : List UInt8) (screens : Position → Prop) (steps : List Step) :
    Prop :=
  (∀ x ∈ steps, ¬x.Skips) ∧ (∀ screen, screens screen → Displayed steps screen) ∨
    ∃ later x earlier, steps = later ++ x :: earlier ∧ x.Skips ∧ (∀ y ∈ earlier, ¬y.Skips) ∧
      x.MaySkip config pages earlier

variable {s s' : Session} {e e' : Engine} {dir : Direction} {out : Output} {skips : Bool}
  {steps : List Step} {x : Step} {rank : Nat}

/-- A review has come one screen on at most, and then that screen is on. -/
def Reaches (config : Config) (pages : List UInt8) (s s' : Session) (e' : Engine) : Prop :=
  s.Continues s' ∧ (s'.rank pages s'.cursor ≤ s.rank pages s.cursor ∨
    s'.rank pages s'.cursor = s.rank pages s.cursor + 1 ∧
      (s.list config pages)[s.rank pages s.cursor + 1]? = some e'.position)

theorem reaches_self : Reaches config pages s s e' := ⟨⟨_, _, rfl⟩, Or.inl (Nat.le_refl _)⟩

theorem reaches_of_stepped (hruns : s.Runs (Contract.paged config pages title))
    (hshows : s.Shows (Contract.paged config pages title) f)
    (h : Stepped (Contract.paged config pages title) e s s.terminal.decisions dir out e')
    (hs : e.session = some s) :
    ∃ s', e'.session = some s' ∧ Reaches config pages s s' e' := by
  cases h with
  | stay => exact ⟨s, hs, reaches_self⟩
  | @move _ _ d w hstep hland =>
    refine ⟨{ s with cursor := d }, rfl, ⟨_, _, rfl⟩, ?_⟩
    have hlist := hland.list hruns.fits (hruns.spans.of_steps hstep)
    cases dir with
    | forward =>
      right
      have hrank := hland.rank_next hruns hshows hstep
      rw [hrank] at hlist
      exact ⟨hrank, by rw [position_showing]; exact hlist⟩
    | backward =>
      left
      have hrank := hland.rank_previous hruns hshows hstep
      exact Nat.le_of_succ_le (Nat.le_of_eq hrank)
  | @miss _ d w hstep hmiss hland =>
    exact ⟨{ s with cursor := d }, rfl, ⟨_, _, rfl⟩, Or.inl
      (Nat.le_of_eq (hland.rank_same hruns hshows))⟩

theorem reaches_of_visits (he : Sound (Contract.paged config pages title) e)
    (h : Visits (Contract.paged config pages title) e out e') (hs : e.session = some s) :
    ∃ s', e'.session = some s' ∧ Reaches config pages s s' e' := by
  have hinspecting (e₁ : Engine) (j : Inspection) (f : Field) :
      ∃ s', (e₁.inspecting s j f).session = some s' ∧
        Reaches config pages s s' (e₁.inspecting s j f) :=
    ⟨_, rfl, ⟨_, _, rfl⟩, Or.inl (Nat.le_refl _)⟩
  cases h with
  | enter _ hs' => cases hs.symm.trans hs'; exact hinspecting _ _ _
  | descend hi => cases hs.symm.trans hi.session; exact hinspecting _ _ _
  | ascend hi => cases hs.symm.trans hi.session; exact hinspecting _ _ _
  | @leave _ _ d w hi hland =>
    cases hs.symm.trans hi.session
    obtain ⟨hruns, f, hshows⟩ := he.runs hs
    refine ⟨_, rfl, ⟨_, _, rfl⟩, Or.inl ?_⟩
    have hruns' : { s with inspection := none }.Runs (Contract.paged config pages title) :=
      ⟨hruns.fits.congr s.cursor none, hruns.spans.congr s.cursor none⟩
    have hpos : 0 < s.cursor.pageCount := UInt8.lt_of_le_of_lt UInt8.zero_le hshows.page_lt
    have hrank := hland.rank_of_lt hruns' (hshows.withInspection none) rfl rfl hpos
    have hle : { s with inspection := none }.rank pages { s.cursor with page := 0 } ≤
        s.rank pages s.cursor := Nat.add_le_add_left (Nat.zero_le _) _
    rw [← hrank] at hle
    exact hle
  | stay hi => exact ⟨_, hs, reaches_self⟩
  | move hi => cases hs.symm.trans hi.session; exact hinspecting _ _ _
  | miss hi => cases hs.symm.trans hi.session; exact hinspecting _ _ _

theorem reaches_of_goes (he : Sound (Contract.paged config pages title) e)
    (h : Goes (Contract.paged config pages title) e dir out e') (hs : e.session = some s) :
    ∃ s', e'.session = some s' ∧ Reaches config pages s s' e' := by
  obtain ⟨hruns, f, hshows⟩ := he.runs hs
  cases h with
  | offer => exact ⟨_, hs, reaches_self⟩
  | step hs' _ _ _ hstep =>
    cases hs.symm.trans hs'
    exact reaches_of_stepped hruns hshows hstep hs
  | @resume _ d _ _ hs' hland =>
    cases hs.symm.trans hs'
    exact ⟨_, rfl, ⟨_, _, rfl⟩, Or.inl (Nat.le_of_eq (hland.rank_same hruns hshows))⟩
  | visit _ h => exact reaches_of_visits he h hs

/-- Unless it jumps to the end, a review comes one screen on at most. -/
theorem reaches_of_moves {r : Except Error Output}
    (he : Sound (Contract.paged config pages title) e)
    (h : Moves (Contract.paged config pages title) skips e r e') (hs : e.session = some s)
    (hs' : e'.session = some s') :
    skips = true ∧ r = .ok .redraw ∧ e.canSkip s = true ∨
      ¬(skips = true ∧ r = .ok .redraw) ∧ Reaches config pages s s' e' := by
  have hsame (h : e'.session = e.session) : s' = s :=
    Option.some.inj (hs'.symm.trans (h.trans hs))
  cases h with
  | refused =>
    cases hsame rfl
    exact Or.inr ⟨(fun h => by cases h.2), reaches_self⟩
  | nothing =>
    cases hsame rfl
    exact Or.inr ⟨(fun h => by cases h.2), reaches_self⟩
  | aborted h =>
    obtain ⟨g, -, rfl⟩ := h
    cases hs'
  | lost h =>
    obtain ⟨g, -, rfl⟩ := h
    cases hs'
  | begins _ h =>
    cases h with
    | begin hidle => simp [he.session_eq_none (Or.inl hidle)] at hs
  | goes hskips h =>
    obtain ⟨s'', hs'', hreach⟩ := reaches_of_goes he h hs
    cases hs'.symm.trans hs''
    exact Or.inr ⟨fun h => by simp [hskips] at h, hreach⟩
  | jumps hskips h =>
    cases h with
    | skip hses hcan =>
      cases hs.symm.trans hses
      exact Or.inl ⟨hskips, rfl, hcan⟩
  | visits hskips h =>
    obtain ⟨s'', hs'', hreach⟩ := reaches_of_visits he h hs
    cases hs'.symm.trans hs''
    exact Or.inr ⟨fun h => by simp [hskips] at h, hreach⟩
  | ends h =>
    cases h with
    | approve => cases hs'
    | reject => cases hs'
    | acknowledge hstate => simp [he.session_eq_none (Or.inr hstate)] at hs

theorem reaches_of_acts (he : Sound (Contract.paged config pages title) x.before)
    (h : Acts (Contract.paged config pages title) x.before x.action x.reply x.after)
    (hs : x.before.session = some s) (hs' : x.after.session = some s') :
    x.Skips ∧ x.before.canSkip s = true ∨
      ¬x.Skips ∧ Reaches config pages s s' x.after := by
  have hsound := sound_of_acts he h
  obtain ⟨action, e, reply, e'⟩ := x
  have hopen : e'.state ≠ .error := by
    intro herror
    have hnone := hsound.session_eq_none (Or.inr herror)
    simp only at hs' hnone
    simp [hnone] at hs'
  simp only at hs hs' h he
  simp only [Step.Skips, hs', Option.isSome_some, and_true]
  cases h with
  | @output a r e' hmoves =>
    have hreply : (r.map Reply.output = .ok (.output .redraw) ∨
        r.map Reply.output = .ok (.response .update)) ↔ r = .ok .redraw := by
      cases r <;> simp [Except.map]
    rw [hreply]
    exact (reaches_of_moves he hmoves hs hs').imp_left fun h => ⟨⟨h.1, h.2.1⟩, h.2.2⟩
  | @press button r e' hmoves =>
    have hreply : ((.ok (.response (buttonResponse r e')) : Except Error Reply) =
        .ok (.output .redraw) ∨ (.ok (.response (buttonResponse r e')) : Except Error Reply) =
        .ok (.response .update)) ↔ r = .ok .redraw := by
      rcases r with cause | _ | _ | _ | _ | _ <;> simp [buttonResponse, hopen]
    rw [hreply]
    exact (reaches_of_moves he hmoves hs hs').imp_left fun h => ⟨⟨h.1, h.2.1⟩, h.2.2⟩
  | shows => cases hs'
  | canDescend =>
    cases hs.symm.trans hs'
    exact Or.inr ⟨(fun h => by cases h.1), reaches_self⟩
  | setModes =>
    cases hs.symm.trans hs'
    exact Or.inr ⟨(fun h => by cases h.1), reaches_self⟩

theorem Displayed.cons {screen : Position} (h : Displayed steps screen) :
    Displayed (x :: steps) screen := by
  obtain ⟨y, hy, hscreen⟩ := h
  exact ⟨y, List.mem_cons_of_mem x hy, hscreen⟩

/-- A jump is taken from where it is offered, so what comes before the offer was on. -/
theorem maySkip_of_canSkip (he : Sound (Contract.paged config pages title) x.before)
    (hs : x.before.session = some s) (hcan : x.before.canSkip s = true)
    (hall : ∀ screen, s.Passed config pages screen → Displayed steps screen) :
    x.MaySkip config pages steps := by
  obtain ⟨hruns, f, hshows⟩ := he.runs hs
  unfold canSkip at hcan
  split at hcan
  · rename_i hstate
    obtain ⟨s', f', hs', -, hskip, -, -⟩ := he.interstitial hstate
    cases hs.symm.trans hs'
    obtain ⟨index, hoffers⟩ := hruns.offersSkip hshows hskip
    refine .offer hs ?_ hoffers.confirmation hoffers.signing hoffers.le
      fun i page count hi hcount hpage => ?_
    · simp [position, hstate, hs, hruns.itemIndex?_eq_some_iff.2 hoffers.atItem]
    · exact hall _ ⟨_, hoffers.rank_item_le hruns hshows hi hcount hpage,
        Session.list_item hruns.fits hcount hpage⟩
  · rename_i hstate
    have hscreen : s.intro[s.cursor.item.toNat]? = some .shortcut := by
      simpa [Session.introScreen?] using hcan
    obtain ⟨hposition, hmodes, hkind⟩ := Session.screen_eq_shortcut hruns hscreen
    refine .shortcut hs ?_ hmodes hkind
    rw [he.position_eq hs (Or.inl hstate)]
    exact hposition
  · cases hcan

/-- The invariant of a review: a step on puts the next screen of the list on, other steps but jumps
do not come further, and a jump is taken where it may be. -/
theorem Shown.step (h : Shown config pages (s.Passed config pages) steps)
    (he : Sound (Contract.paged config pages title) x.before)
    (hacts : Acts (Contract.paged config pages title) x.before x.action x.reply x.after)
    (hs : x.before.session = some s) (hs' : x.after.session = some s') :
    Shown config pages (s'.Passed config pages) (x :: steps) := by
  rcases h with ⟨hno, hall⟩ | ⟨later, y, earlier, rfl, hskip⟩
  · rcases reaches_of_acts he hacts hs hs' with ⟨hskip, hcan⟩ | ⟨hskip, ⟨c, i, rfl⟩, hreach⟩
    · exact Or.inr ⟨[], x, steps, rfl, hskip, hno, maySkip_of_canSkip he hs hcan hall⟩
    · refine Or.inl ⟨?_, fun screen hpassed => ?_⟩
      · rintro y (_ | ⟨_, hy⟩)
        · exact hskip
        · exact hno y hy
      · obtain ⟨k, hk, hscreen⟩ := hpassed
        rcases Nat.lt_or_ge (s.rank pages s.cursor) k with hlt | hle
        · obtain ⟨hrank, hposition⟩ := hreach.resolve_left (by omega)
          have hk : k = s.rank pages s.cursor + 1 := by omega
          subst hk
          cases hscreen.symm.trans hposition
          exact ⟨x, List.mem_cons_self, rfl⟩
        · exact (hall screen ⟨k, hle, hscreen⟩).cons
  · exact Or.inr ⟨x :: later, y, earlier, rfl, hskip⟩

theorem Shown.begins
    (hacts : Acts (Contract.paged config pages title) x.before x.action x.reply x.after)
    (hs : x.before.session = none) (hs' : x.after.session = some s') :
    Shown config pages (s'.Passed config pages) [x] := by
  obtain ⟨hskips, kind, confirmation, intent, out, hbegins⟩ := begins_of_acts hacts hs hs'
  obtain ⟨s'', hs'', hrank, hfirst⟩ := hbegins.rank
  cases hs'.symm.trans hs''
  refine Or.inl ⟨?_, fun screen ⟨k, hk, hscreen⟩ => ?_⟩
  · intro y hy
    cases List.mem_singleton.1 hy
    exact fun h => absurd h.1 (by simp [hskips])
  · have hk : k = 0 := by omega
    subst hk
    cases hscreen.symm.trans hfirst
    exact ⟨x, List.mem_singleton_self x, rfl⟩

/-- What holds of a review in every state of a run. -/
theorem Run.shown {p : Provider σ} {t : Sitting Engine σ} (h : Run p config steps t)
    (hp : p.Paged pages) (hs : t.machine.session = some s) :
    Shown config pages (s.Passed config pages) (sinceBegin steps) := by
  have hhonours : p.Honours (Contract.paged config pages fun _ => True) :=
    hp.honours fun _ _ => trivial
  induction h generalizing s with
  | start => cases hs
  | @act steps t t' reply action hrun hact ih =>
    have he := hrun.sound hhonours trivial
    have hacts := hrun.acts hhonours trivial hact
    cases hbefore : t.machine.session with
    | none =>
      rw [sinceBegin, if_neg (by simp [hbefore])]
      exact Shown.begins (x := ⟨action, t.machine, reply, t'.machine⟩) hacts hbefore hs
    | some s₀ =>
      rw [sinceBegin, if_pos (by simp [hbefore])]
      exact (ih hbefore).step (x := ⟨action, t.machine, reply, t'.machine⟩) he hacts hbefore hs
  | meddle _ _ ih => exact ih hs

theorem Sound.le_item_of_canApprove {C : Contract config} (he : Sound C e)
    (h : e.canApprove = true) : ∃ s, e.session = some s ∧
      s.intro.length + s.itemCount.toNat ≤ s.cursor.item.toNat := by
  unfold canApprove at h
  split at h
  · rename_i hstate _
    obtain ⟨s, hs, -, -, ht, hruns, -⟩ := he.confirm hstate
    exact ⟨s, hs, hruns.spans.isTerminal_iff.1 ht⟩
  · rename_i s hstate hs
    obtain ⟨s', hs', -, -, hruns, -⟩ := he.review hstate
    cases hs.symm.trans hs'
    refine ⟨s, hs, Nat.le_of_eq ?_⟩
    simp only [Session.isApprove, Session.approveIndex, Bool.and_eq_true, beq_iff_eq] at h
    rw [h.2, hruns.fits.leading]
  · cases h

/-- In front of items of fixed page counts, every page of every item was on when a review is
approved, unless there was a jump to its end, and that from where it was offered. -/
theorem shown_of_approves {p : Provider σ} {t : Sitting Engine σ} (hp : p.Paged pages)
    (h : Run p config (x :: steps) t) (happroves : x.Approves) :
    Shown config pages (Position.IsPage pages) (sinceBegin steps) := by
  have hhonours : p.Honours (Contract.paged config pages fun _ => True) :=
    hp.honours fun _ _ => trivial
  generalize hlist : x :: steps = list at h
  induction h with
  | start => cases hlist
  | act action hrun hact =>
    cases hlist
    have he := hrun.sound hhonours trivial
    have hcan := canApprove_of_acts (hrun.acts hhonours trivial hact) happroves
    obtain ⟨s, hs, hle⟩ := he.le_item_of_canApprove hcan
    obtain ⟨hruns, -⟩ := he.runs hs
    refine (hrun.shown hp hs).imp_left fun h => ⟨h.1, fun screen hscreen => h.2 screen ?_⟩
    obtain ⟨index, page, count, rfl, hcount, hpage⟩ := hscreen
    have hindex := (List.getElem?_eq_some_iff.1 hcount).1
    rw [← hruns.fits.itemCount_eq] at hindex
    have hrank := Session.rank_item_lt (s := s) (c := s.cursor) hcount hpage (by omega)
    exact ⟨_, Nat.le_of_lt hrank, Session.list_item hruns.fits hcount hpage⟩
  | meddle _ _ ih => exact ih hlist

/-- Two items that are passed over or gone into stand between two others. -/
def Fixture.mixed : Fixture := { items := [.leaf 2, .leaf 0, .node 1 [.leaf 1], .leaf 1] }

/-- In the first review there is a step back and an inspection, in the second the offer to skip is
taken. -/
theorem shown_of_approves_mixed :
    (∃ steps x t, Run (Fixture.provider.fixed Fixture.mixed) .stax (x :: steps) t ∧ x.Approves ∧
      Displayed steps (.child 0 0 0) ∧
      Shown .stax [2, 0, 1, 1] (Position.IsPage [2, 0, 1, 1]) (sinceBegin steps)) ∧
    ∃ steps x t, Run (Fixture.provider.fixed Fixture.mixed) .stax (x :: steps) t ∧ x.Approves ∧
      Displayed steps (.interstitial 2) ∧
      Shown .stax [2, 0, 1, 1] (Position.IsPage [2, 0, 1, 1]) (sinceBegin steps) := by
  have hpaged : (Fixture.provider.fixed Fixture.mixed).Paged [2, 0, 1, 1] :=
    Fixture.paged rfl (by decide)
  have hread : After (Fixture.provider.fixed Fixture.mixed)
      (fun steps _ => (∃ x ∈ steps.head?, x.Approves) ∧ Displayed steps.tail (.child 0 0 0))
      [.begin .transaction false none, .advance, .retreat, .advance, .advance, .press .both,
        .exitToRoot, .advance, .advance, .press .both] [] ⟨.start .stax, (), []⟩ := by
    decide +kernel
  have hskip : After (Fixture.provider.fixed Fixture.mixed)
      (fun steps _ => (∃ x ∈ steps.head?, x.Approves) ∧ Displayed steps.tail (.interstitial 2))
      [.begin .transaction true none, .advance, .advance, .advance, .press .both, .press .both]
      [] ⟨.start .stax, (), []⟩ := by
    decide +kernel
  constructor
  · obtain ⟨all, t, hrun, ⟨x, hx, happroves⟩, hchild⟩ := hread.run (.start ())
    obtain ⟨steps, rfl⟩ := List.head?_eq_some_iff.1 hx
    exact ⟨steps, x, t, hrun, happroves, hchild, shown_of_approves hpaged hrun happroves⟩
  · obtain ⟨all, t, hrun, ⟨x, hx, happroves⟩, hoffer⟩ := hskip.run (.start ())
    obtain ⟨steps, rfl⟩ := List.head?_eq_some_iff.1 hx
    exact ⟨steps, x, t, hrun, happroves, hoffer, shown_of_approves hpaged hrun happroves⟩

end Engine
end WalletReview
