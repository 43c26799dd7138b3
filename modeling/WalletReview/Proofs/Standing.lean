import WalletReview.Proofs.Children
import WalletReview.Engine.Decide

/-! What holds of an engine between any two of its operations: which state goes with which session,
where the cursors are, and that the field holds the text of the screen under them. -/
namespace WalletReview

variable {σ : Type} {config : Config} {C : Contract config}

namespace Session

/-- The review was begun under the contract, and its cursor is in the list of its screens. -/
structure Runs (C : Contract config) (s : Session) : Prop where
  fits : s.Fits C
  spans : s.Spans s.cursor

def Shows (C : Contract config) (s : Session) (f : Field) : Prop :=
  ∃ c w, s.Rests C c s.cursor w ∧ f = w.filled

variable {s : Session} {c d : Cursor} {f w : Field} {dir : Engine.Direction}

theorem Shows.page_lt (h : s.Shows C f) : s.cursor.page < s.cursor.pageCount := by
  obtain ⟨c, w, hrest, -⟩ := h
  exact hrest.page_lt

theorem Shows.field (h : s.Shows C f) : C.field f := by
  obtain ⟨c, w, hrest, rfl⟩ := h
  exact C.field_filled hrest.field

theorem Shows.withInspection (h : s.Shows C f) (i : Option Inspection) :
    { s with inspection := i }.Shows C f := by
  obtain ⟨c, w, hrest, hf⟩ := h
  exact ⟨c, w, hrest.congr s.cursor i, hf⟩

theorem Fits.congr (h : s.Fits C) (c : Cursor) (i : Option Inspection) :
    { s with cursor := c, inspection := i }.Fits C :=
  ⟨h.terminal, h.intro, h.room, h.counted, h.intent⟩

theorem Spans.congr (h : s.Spans d) (c : Cursor) (i : Option Inspection) :
    { s with cursor := c, inspection := i }.Spans d :=
  ⟨h.itemCount, h.item_lt⟩

theorem Lands.shows (h : s.Lands C dir c d w) : { s with cursor := d }.Shows C w.filled := by
  obtain ⟨c', -, hrest⟩ := h
  exact ⟨c', w, hrest.congr d s.inspection, rfl⟩

theorem Passes.spans {c' : Cursor} (h : Cursor.Passes (s.Empty C) dir c c') (hc : s.Spans c) :
    s.Spans c' := by
  induction h with
  | stay => exact hc
  | on hempty hitem _ ih =>
    obtain ⟨index, w, hat, -⟩ := hempty
    have hcount := hc.itemCount
    refine ih (hc.of_item_le rfl ?_)
    have := hat.1
    have := hat.2
    simp only
    omega
  | back hempty hitem _ ih =>
    obtain ⟨index, w, hat, -⟩ := hempty
    have hcount := hc.itemCount
    refine ih (hc.of_item_le rfl ?_)
    have := hat.1
    have := hat.2
    simp only
    omega

theorem Lands.spans (h : s.Lands C dir c d w) (hc : s.Spans c) : s.Spans d := by
  obtain ⟨c', hpass, hrest⟩ := h
  exact (Passes.spans hpass hc).of_rests hrest

end Session

namespace Inspection

/-- An inspection of an item, with the cursor on a screen that the field shows, or else on the last
of children that are all empty. -/
structure Stands (C : Contract config) (root : UInt8) (i : Inspection) (f : Field) : Prop where
  fits : i.Fits config root
  counted : ∃ count, C.childCount i.chain (.ok count) ∧
    i.cursor.itemCount = (i.recounted count).itemCount
  within : i.cursor.Within
  page_lt : i.cursor.page < i.cursor.pageCount
  shown : (∃ c w, i.Rests C c i.cursor w ∧ f = w.filled) ∨
    i.cursor.AtEnd .forward ∧ ∃ w, i.Blank C i.cursor w ∧ f = w.filled

end Inspection

namespace Engine

structure Inspects (e : Engine) (s : Session) (i : Inspection) : Prop where
  state : e.state = .inspect
  session : e.session = some s
  inspection : s.inspection = some i

instance decidableInspects {e : Engine} {q : Session → Inspection → Prop}
    [∀ s i, Decidable (q s i)] : Decidable (∃ s i, e.Inspects s i ∧ q s i) :=
  match hsession : e.session with
  | none => isFalse fun ⟨_, _, hi, _⟩ => nomatch hsession.symm.trans hi.session
  | some s =>
    match hinspection : s.inspection with
    | none => isFalse fun ⟨_, _, hi, _⟩ => by
      cases hsession.symm.trans hi.session
      cases hinspection.symm.trans hi.inspection
    | some i => decidable_of_iff (e.state = .inspect ∧ q s i)
      ⟨fun ⟨hstate, h⟩ => ⟨s, i, ⟨hstate, hsession, hinspection⟩, h⟩, fun ⟨_, _, hi, h⟩ => by
        cases hsession.symm.trans hi.session
        cases hinspection.symm.trans hi.inspection
        exact ⟨hi.state, h⟩⟩

theorem Inspects.position {e : Engine} {s : Session} {i : Inspection} (h : e.Inspects s i) :
    e.position = inspectPosition i := by
  simp [Engine.position, h.state, h.session, h.inspection]

/-- Which session and which screen go with a state. -/
inductive Standing (C : Contract config) (e : Engine) : Prop
  | idle : e.state = .idle → e.session = none → Standing C e
  | error : e.state = .error → e.session = none → Standing C e
  | review {s : Session} : e.state = .review → e.session = some s → s.inspection = none →
    ¬(s.terminal = .dedicated ∧ s.isTerminal = true) → s.Runs C → s.Shows C e.field → Standing C e
  | confirm {s : Session} : e.state = .confirm → e.session = some s → s.inspection = none →
    s.terminal = .dedicated → s.isTerminal = true → s.Runs C → s.Shows C e.field → Standing C e
  | interstitial {s : Session} {f : Field} : e.state = .interstitial → e.session = some s →
    s.inspection = none → s.skipEligible config.skipMinItem = .ok true → s.Runs C → s.Shows C f →
    C.Wrote ("Press right to read", "Double-press to skip") e.field → Standing C e
  | inspect {s : Session} {i : Inspection} {root : UInt8} {f : Field} : e.Inspects s i → s.Runs C →
    s.Shows C f → s.AtItem s.cursor root → i.Stands C root e.field → Standing C e

/-- What holds of an engine between any two of its operations. -/
structure Sound (C : Contract config) (e : Engine) : Prop where
  config : e.config = config
  field : C.field e.field
  standing : Standing C e

/-- The causes for which an operation is refused that is not available. -/
def refusals : List Error := [.invalidState, .unexpectedEvent, .notInspectable, .maxDepth]

/-- An operation is refused and changes nothing, or has the review aborted, or else `post` holds of
its answer; `refuses` and `why` follow from the first two. -/
def Yields (C : Contract config) (refuses why : Prop) (e : Engine)
    (post : Output → Engine → Prop) : Except Error Output → Engine → Prop
  | .ok out, e' => post out e'
  | .error cause, e' => e' = e ∧ refuses ∧ cause ∈ refusals ∨ C.Aborted e e' ∧ why

variable {e e' : Engine} {s : Session} {i : Inspection} {root : UInt8} {c d : Cursor} {f w : Field}
  {dir : Direction}

theorem Yields.exists_ok {refuses why : Prop} {post : Output → Engine → Prop}
    {r : Except Error Output} (h : e.Yields C refuses why post r e') (hrefuses : ¬refuses)
    (hwhy : ¬why) : ∃ out, r = .ok out ∧ post out e' := by
  cases r with
  | ok out => exact ⟨out, rfl, h⟩
  | error _ =>
    rcases h with ⟨-, h, -⟩ | ⟨-, h⟩
    · exact absurd h hrefuses
    · exact absurd h hwhy

namespace Sound

theorem review (h : Sound C e) (hstate : e.state = .review) :
    ∃ s, e.session = some s ∧ s.inspection = none ∧
      ¬(s.terminal = .dedicated ∧ s.isTerminal = true) ∧ s.Runs C ∧ s.Shows C e.field := by
  cases h.standing with
  | review _ hs hi hd hruns hshows => exact ⟨_, hs, hi, hd, hruns, hshows⟩
  | inspect h => simp [h.state] at hstate
  | _ => simp_all

theorem confirm (h : Sound C e) (hstate : e.state = .confirm) :
    ∃ s, e.session = some s ∧ s.inspection = none ∧ s.terminal = .dedicated ∧
      s.isTerminal = true ∧ s.Runs C ∧ s.Shows C e.field := by
  cases h.standing with
  | confirm _ hs hi hd ht hruns hshows => exact ⟨_, hs, hi, hd, ht, hruns, hshows⟩
  | inspect h => simp [h.state] at hstate
  | _ => simp_all

theorem interstitial (h : Sound C e) (hstate : e.state = .interstitial) :
    ∃ s f, e.session = some s ∧ s.inspection = none ∧
      s.skipEligible config.skipMinItem = .ok true ∧ s.Runs C ∧ s.Shows C f := by
  cases h.standing with
  | interstitial _ hs hi hskip hruns hshows => exact ⟨_, _, hs, hi, hskip, hruns, hshows⟩
  | inspect h => simp [h.state] at hstate
  | _ => simp_all

theorem inspect (h : Sound C e) (hstate : e.state = .inspect) :
    ∃ s i root f, e.Inspects s i ∧ s.Runs C ∧ s.Shows C f ∧ s.AtItem s.cursor root ∧
      i.Stands C root e.field := by
  cases h.standing with
  | inspect hi hruns hshows hat hstands => exact ⟨_, _, _, _, hi, hruns, hshows, hat, hstands⟩
  | _ => simp_all

theorem exists_session (h : Sound C e) (hidle : e.state ≠ .idle) (herror : e.state ≠ .error) :
    ∃ s, e.session = some s := by
  cases h.standing with
  | idle hstate => exact absurd hstate hidle
  | error hstate => exact absurd hstate herror
  | review _ hs => exact ⟨_, hs⟩
  | confirm _ hs => exact ⟨_, hs⟩
  | interstitial _ hs => exact ⟨_, hs⟩
  | inspect hi => exact ⟨_, hi.session⟩

theorem session_eq_none (h : Sound C e) (hstate : e.state = .idle ∨ e.state = .error) :
    e.session = none := by
  cases h.standing with
  | idle _ hnone => exact hnone
  | error _ hnone => exact hnone
  | inspect hi => simp [hi.state] at hstate
  | _ => simp_all

/-- Whatever the state, a session that there is runs, and shows a screen. -/
theorem runs (h : Sound C e) (hs : e.session = some s) : s.Runs C ∧ ∃ f, s.Shows C f := by
  cases h.standing with
  | idle _ hnone => simp [hnone] at hs
  | error _ hnone => simp [hnone] at hs
  | review _ hs' _ _ hruns hshows =>
    cases hs.symm.trans hs'
    exact ⟨hruns, _, hshows⟩
  | confirm _ hs' _ _ _ hruns hshows =>
    cases hs.symm.trans hs'
    exact ⟨hruns, _, hshows⟩
  | interstitial _ hs' _ _ hruns hshows =>
    cases hs.symm.trans hs'
    exact ⟨hruns, _, hshows⟩
  | inspect hi hruns hshows =>
    cases hs.symm.trans hi.session
    exact ⟨hruns, _, hshows⟩

theorem inspection_eq_none (h : Sound C e) (hs : e.session = some s)
    (hstate : e.state ≠ .inspect) : s.inspection = none := by
  cases h.standing with
  | idle _ hnone => simp [hnone] at hs
  | error _ hnone => simp [hnone] at hs
  | review _ hs' hi => cases hs.symm.trans hs'; exact hi
  | confirm _ hs' hi => cases hs.symm.trans hs'; exact hi
  | interstitial _ hs' hi => cases hs.symm.trans hs'; exact hi
  | inspect hi => exact absurd hi.state hstate

theorem inspects (h : Sound C e) (hs : e.session = some s) (hi : s.inspection = some i) :
    e.Inspects s i := by
  refine ⟨Decidable.byContradiction fun hstate => ?_, hs, hi⟩
  rw [h.inspection_eq_none hs hstate] at hi
  cases hi

theorem withModes (h : Sound C e) (modes : Modes) : Sound C { e with modes } := by
  refine ⟨h.config, h.field, ?_⟩
  cases h.standing with
  | idle hstate hs => exact .idle hstate hs
  | error hstate hs => exact .error hstate hs
  | review hstate hs hi hd hruns hshows => exact .review hstate hs hi hd hruns hshows
  | confirm hstate hs hi hd ht hruns hshows => exact .confirm hstate hs hi hd ht hruns hshows
  | interstitial hstate hs hi hskip hruns hshows hw =>
    exact .interstitial hstate hs hi hskip hruns hshows hw
  | inspect hi hruns hshows hat hstands =>
    exact .inspect ⟨hi.state, hi.session, hi.inspection⟩ hruns hshows hat hstands

theorem of_inspects (h : Sound C e) (hi : e.Inspects s i) :
    ∃ root, s.AtItem s.cursor root ∧ i.Stands C root e.field := by
  obtain ⟨s', i', root, f, hi', -, -, hat, hstands⟩ := h.inspect hi.state
  cases hi.session.symm.trans hi'.session
  cases hi.inspection.symm.trans hi'.inspection
  exact ⟨root, hat, hstands⟩

end Sound

theorem sound_start (hfield : C.field (start config).field) :
    Sound C (start config) :=
  ⟨rfl, hfield, .idle rfl rfl⟩

theorem sound_of_aborted (h : C.Aborted e e') (hconfig : e.config = config) : Sound C e' := by
  obtain ⟨g, hg, rfl⟩ := h
  exact ⟨hconfig, C.field_setValue _ _ (C.field_setKey _ _ (C.field_wipe g hg)), .error rfl rfl⟩

theorem sound_showing (hconfig : e.config = config) (hs : s.Fits C) (hc : s.Spans c)
    (hi : s.inspection = none) (hland : s.Lands C dir c d w) :
    Sound C ({ e with state := .review }.showing { s with cursor := d } w.filled) := by
  have hruns : { s with cursor := d }.Runs C :=
    ⟨hs.congr d s.inspection, (hland.spans hc).congr d s.inspection⟩
  refine ⟨hconfig, hland.shows.field, ?_⟩
  by_cases hd : s.terminal = .dedicated ∧ { s with cursor := d }.isTerminal = true
  · rw [showing_of_dedicated hd.2 hd.1]
    exact .confirm rfl rfl hi hd.1 hd.2 hruns hland.shows
  · rw [showing, if_neg hd]
    exact .review rfl rfl hi hd hruns hland.shows

theorem sound_inspecting (hconfig : e.config = config) (hs : s.Runs C) (hshows : s.Shows C f)
    (hat : s.AtItem s.cursor root) (hi : i.Stands C root w) (hw : C.field w) :
    Sound C ({ e with state := .inspect }.inspecting s i w) :=
  ⟨hconfig, hw, .inspect ⟨rfl, rfl, rfl⟩
    ⟨hs.fits.congr s.cursor (some i), hs.spans.congr s.cursor (some i)⟩
    (hshows.withInspection (some i)) hat hi⟩

end Engine
end WalletReview
