import WalletReview.Proofs.BoundedText
import WalletReview.Proofs.Passing

/-! Where loading a screen of the list of a review ends. Whatever the provider answers, the cursor
passes over items that were found empty and rests on a screen whose text is on the field; going
backward it may instead come to the first place and find nothing. -/
namespace WalletReview

variable {σ : Type} {config : Config} {C : Contract config}

/-- The number of decision screens, be they in the list or behind it. -/
def TerminalMode.decisions : TerminalMode → Nat
  | items => 2
  | approveOnly | dedicated => 1

theorem Cursor.clamp_one (c : Cursor) : (c.clamp 1).1 = ⟨c.item, c.itemCount, 0, 1⟩ := by
  have h1 : (1 : UInt8) ≤ 1 := by decide
  rw [Cursor.clamp, dif_pos h1]
  split
  · rfl
  · rename_i h
    have hpage : c.page = 0 := by
      rw [UInt8.le_iff_toNat_le] at h
      rw [← UInt8.toNat_inj]
      simpa using h
    rw [hpage]

namespace Session

/-- The session was begun under `config` and the contract, with room for all its screens. -/
structure Fits (C : Contract config) (s : Session) : Prop where
  terminal : s.terminal = config.terminal
  intro : s.intro = introScreens s.kind s.modes config.titleScreen
  room : s.intro.length + s.itemCount.toNat + s.terminal.trailing.toNat ≤ 255
  counted : C.itemCount (.ok s.itemCount)
  intent : ∃ cs, s.intent.Holds cs

structure Spans (s : Session) (c : Cursor) : Prop where
  itemCount : c.itemCount.toNat = s.intro.length + s.itemCount.toNat
  item_lt : c.item.toNat < c.itemCount.toNat + s.terminal.decisions

def AtItem (s : Session) (c : Cursor) (index : UInt8) : Prop :=
  c.item.toNat = s.intro.length + index.toNat ∧ index.toNat < s.itemCount.toNat

/-- The item under the cursor was found to have no pages. -/
def Empty (C : Contract config) (s : Session) (c : Cursor) : Prop :=
  ∃ index w, s.AtItem c index ∧ C.item index c.page (.ok 0) w

inductive IntroText (C : Contract config) (s : Session) : IntroScreen → Field → Prop
  | intent {f : Field} : s.intent.isEmpty = false →
    C.Wrote (if s.kind = .message then "Review message" else "Review transaction",
      s.intent.text) f → IntroText C s .title f
  | provider {f : Field} : s.intent.isEmpty = true → s.kind = .transaction ∨ s.kind = .generic →
    C.title (.ok ()) f → C.field f → IntroText C s .title f
  | plain {screen : IntroScreen} {f : Field} :
    (screen = .title → s.intent.isEmpty = true ∧
      (s.kind = .transaction ∨ s.kind = .generic → ∃ w, C.title (.error .noData) w)) →
    C.Wrote (screen.text s.kind) f → IntroText C s screen f

theorem IntroText.field {s : Session} {screen : IntroScreen} {f : Field}
    (h : s.IntroText C screen f) : C.field f := by
  cases h with
  | intent _ h => exact h.field
  | provider _ _ _ h => exact h
  | plain _ h => exact h.field

theorem IntroText.congr {s : Session} {screen : IntroScreen} {f : Field}
    (h : s.IntroText C screen f) (c : Cursor) (i : Option Inspection) :
    { s with cursor := c, inspection := i }.IntroText C screen f := by
  cases h with
  | intent hi hw => exact .intent hi hw
  | provider hi hk ht hw => exact .provider hi hk ht hw
  | plain ht hw => exact .plain ht hw

inductive Rests (C : Contract config) (s : Session) (c : Cursor) : Cursor → Field → Prop
  | intro {screen : IntroScreen} {f : Field} : s.intro[c.item.toNat]? = some screen →
    s.IntroText C screen f → Rests C s c ⟨c.item, c.itemCount, 0, 1⟩ f
  | item {index : UInt8} {d : Cursor} {w : Field} : s.AtItem c index →
    Cursor.Turns (C.item index) c d w → C.field w →
    Rests C s c d (w.labelKey d.page d.pageCount config.labelStyle)
  | decision {f : Field} : s.intro.length + s.itemCount.toNat ≤ c.item.toNat →
    C.Wrote (Engine.terminalText { s with cursor := c } config) f →
    Rests C s c ⟨c.item, c.itemCount, 0, 1⟩ f

variable {s : Session} {c d : Cursor} {w : Field}

namespace Rests

theorem field (h : s.Rests C c d w) : C.field w := by
  cases h with
  | intro _ h => exact h.field
  | item _ _ h => exact C.field_labelKey _ _ _ _ h
  | decision _ h => exact h.field

theorem item_eq (h : s.Rests C c d w) : d.item = c.item := by
  cases h with
  | intro => rfl
  | item _ h => exact h.item
  | decision => rfl

theorem itemCount_eq (h : s.Rests C c d w) : d.itemCount = c.itemCount := by
  cases h with
  | intro => rfl
  | item _ h => exact h.itemCount
  | decision => rfl

theorem page_lt (h : s.Rests C c d w) : d.page < d.pageCount := by
  cases h with
  | intro => exact UInt8.zero_lt_one
  | item _ h => exact h.page_lt
  | decision => exact UInt8.zero_lt_one

theorem page_le (h : s.Rests C c d w) : d.page.toNat ≤ c.page.toNat := by
  cases h with
  | intro => exact Nat.zero_le _
  | item _ h => exact h.page_le
  | decision => exact Nat.zero_le _

theorem congr (h : s.Rests C c d w) (c' : Cursor) (i : Option Inspection) :
    { s with cursor := c', inspection := i }.Rests C c d w := by
  cases h with
  | intro hscreen htext => exact .intro hscreen (htext.congr c' i)
  | item hat hturn hw => exact .item hat hturn hw
  | decision hc hw => exact .decision hc hw

end Rests

/-- Where a cursor that is to show a screen comes to rest, in a direction of travel. -/
def Lands (C : Contract config) (s : Session) (dir : Engine.Direction) (c d : Cursor) (w : Field) :
    Prop :=
  ∃ c', Cursor.Passes (s.Empty C) dir c c' ∧ s.Rests C c' d w

/-- No screen is left on the way back. -/
def Misses (C : Contract config) (s : Session) (c : Cursor) : Prop :=
  ∃ c', Cursor.Passes (s.Empty C) .backward c c' ∧ c'.item = 0 ∧ s.Empty C c'

theorem leading_toNat (h : s.intro.length ≤ 255) : s.leading.toNat = s.intro.length := by
  simp only [leading, Nat.toUInt8, UInt8.toNat_ofNat']
  omega

theorem Fits.leading (h : s.Fits C) : s.leading.toNat = s.intro.length :=
  leading_toNat (by have := h.room; omega)

theorem place_cases (s : Session) (c : Cursor) :
    (∃ screen, s.intro[c.item.toNat]? = some screen) ∨ (∃ index, s.AtItem c index) ∨
      s.intro.length + s.itemCount.toNat ≤ c.item.toNat := by
  rcases Nat.lt_or_ge c.item.toNat s.intro.length with hlt | hge
  · exact Or.inl ⟨_, List.getElem?_eq_getElem hlt⟩
  · right
    rcases Nat.lt_or_ge c.item.toNat (s.intro.length + s.itemCount.toNat) with hlt | hge'
    · refine Or.inl ⟨.ofNat (c.item.toNat - s.intro.length), ?_, ?_⟩
      all_goals
        have := s.itemCount.toNat_lt
        rw [UInt8.toNat_ofNat', Nat.mod_eq_of_lt (by omega)]
        omega
    · exact Or.inr hge'

theorem Spans.isTerminal_iff (h : s.Spans c) :
    { s with cursor := c }.isTerminal = true ↔
      s.intro.length + s.itemCount.toNat ≤ c.item.toNat := by
  rw [isTerminal, decide_eq_true_eq, UInt8.le_iff_toNat_le, h.itemCount]

theorem Spans.of_rests (h : s.Spans c) (hr : s.Rests C c d w) : s.Spans d where
  itemCount := by rw [hr.itemCount_eq]; exact h.itemCount
  item_lt := by rw [hr.item_eq, hr.itemCount_eq]; exact h.item_lt

theorem Spans.of_item_le (h : s.Spans c) (hcount : d.itemCount = c.itemCount)
    (hle : d.item.toNat ≤ c.itemCount.toNat) : s.Spans d where
  itemCount := by rw [hcount]; exact h.itemCount
  item_lt := by
    rw [hcount]
    have : 0 < s.terminal.decisions := by cases s.terminal <;> decide
    omega

namespace AtItem

variable {index : UInt8}

theorem introScreen? (h : s.AtItem c index) : { s with cursor := c }.introScreen? = none :=
  List.getElem?_eq_none (by have := h.1; simp only; omega)

theorem not_isTerminal (h : s.AtItem c index) (hc : s.Spans c) :
    ¬ { s with cursor := c }.isTerminal = true := by
  rw [hc.isTerminal_iff]
  have := h.1
  have := h.2
  omega

theorem sub8_leading (h : s.AtItem c index) (hs : s.Fits C) :
    Checked.sub8 c.item { s with cursor := c }.leading = .ok index := by
  rw [Checked.sub8_eq_ok_iff, leading_toNat (by have := hs.room; simp only; omega), h.1,
    Nat.add_comm]

theorem add8_one (h : s.AtItem c index) (hc : s.Spans c) :
    ∃ item, Checked.add8 c.item 1 = .ok item ∧ c.item.toNat + 1 = item.toNat := by
  have hlt := c.itemCount.toNat_lt
  have := hc.itemCount
  have := h.1
  have := h.2
  exact Checked.add8_one (by omega)

end AtItem

end Session

namespace Engine

variable {p : Provider σ}

def showing (e : Engine) (s : Session) (f : Field) : Engine :=
  { e with
    session := some s
    state := if s.terminal = .dedicated ∧ s.isTerminal then .confirm else e.state
    field := f }

theorem loadProviderTitle_ensures (hp : p.Honours C) {t : Sitting Engine σ} {g : Field}
    (hg : C.field g) (ht : t.machine.field = g.clear) :
    (loadProviderTitle p).Ensures t fun r t' => match r with
      | .ok true => ∃ w, C.title (.ok ()) w ∧ C.field w ∧
          t'.machine = { t.machine with field := w }
      | .ok false => ∃ w, C.title (.error .noData) w ∧ C.field w ∧
          t'.machine = { t.machine with field := w.clear }
      | .error _ => C.Spoilt t.machine t'.machine ∧ C.Fails := by
  simp only [loadProviderTitle, Operation.ensures_bind, Operation.ensures_attempt]
  refine (C.asks_title hp t g hg ht).mono ?_
  rintro r t' ⟨w, hw, hfield, ht'⟩
  cases r with
  | ok _ =>
    simp only [Operation.ensures_pure]
    exact ⟨w, hw, hfield, ht'⟩
  | error cause =>
    by_cases hcause : cause = .noData
    · subst hcause
      simp only [Operation.ensures_bind, ensures_modifyField, Operation.ensures_pure, ht']
      exact ⟨w, hw, hfield, rfl⟩
    · simp only [Operation.ensures_throw, ht']
      exact ⟨⟨rfl, rfl, hfield⟩, .title hcause hw⟩

theorem loadIntro_ensures (hp : p.Honours C) {s : Session} {screen : IntroScreen}
    {t : Sitting Engine σ} {g : Field} (hg : C.field g) (ht : t.machine.field = g.clear) :
    (loadIntro p s screen).Ensures t fun r t' => match r with
      | .ok () => ∃ f, s.IntroText C screen f ∧ t'.machine = { t.machine with field := f }
      | .error _ => C.Spoilt t.machine t'.machine ∧ C.Fails := by
  have hwrote (text : String × String) : C.Wrote text ((g.clear.setKey text.1).setValue text.2) :=
    ⟨g, hg, rfl⟩
  unfold loadIntro
  by_cases hscreen : screen = .title
  · subst hscreen
    cases hintent : s.intent.isEmpty with
    | false =>
      simp only [↓reduceIte, Bool.not_false, Operation.ensures_bind, ensures_setText,
        Operation.ensures_pure, ht]
      exact ⟨_, .intent hintent (hwrote _), rfl⟩
    | true =>
      simp only [↓reduceIte, Bool.not_true, Bool.false_eq_true, Bool.or_eq_true, decide_eq_true_eq]
      by_cases hkind : s.kind = .transaction ∨ s.kind = .generic
      · simp only [if_pos hkind, Operation.ensures_bind]
        refine (loadProviderTitle_ensures hp hg ht).mono ?_
        intro r t' hr
        cases r with
        | error cause => exact hr
        | ok given =>
          cases given with
          | true =>
            obtain ⟨w, hw, hfield, ht'⟩ := hr
            simp only [↓reduceIte, Operation.ensures_pure]
            exact ⟨w, .provider hintent hkind hw hfield, ht'⟩
          | false =>
            obtain ⟨w, hw, hfield, ht'⟩ := hr
            simp only [Bool.false_eq_true, ↓reduceIte, ensures_setText, ht']
            exact ⟨_, .plain (fun _ => ⟨hintent, fun _ => ⟨w, hw⟩⟩) ⟨w, hfield, rfl⟩, rfl⟩
      · simp only [if_neg hkind, ensures_setText, ht]
        exact ⟨_, .plain (fun _ => ⟨hintent, fun h => absurd h hkind⟩) (hwrote _), rfl⟩
  · simp only [if_neg hscreen, ensures_setText, ht]
    exact ⟨_, .plain (fun h => absurd h hscreen) (hwrote _), rfl⟩

theorem showing_of_not_isTerminal {e : Engine} {s : Session} {f : Field}
    (h : ¬ s.isTerminal = true) :
    e.showing s f = { e with session := some s, field := f } := by
  simp [showing, h]

theorem showing_of_dedicated {e : Engine} {s : Session} {f : Field} (ht : s.isTerminal = true)
    (hd : s.terminal = .dedicated) :
    e.showing s f = { e with session := some s, state := .confirm, field := f } := by
  rw [showing, if_pos ⟨hd, ht⟩]

variable {s : Session} {c : Cursor} {t : Sitting Engine σ} {dir : Direction}
  {after : Operation Engine σ Bool} {rounds : Nat}

/-- What loading leaves behind once it has come to an end of its way. -/
def Landed (C : Contract config) (s : Session) (dir : Direction) (c : Cursor) (e : Engine) :
    Except Error Bool → Engine → Prop
  | .ok true, e' => ∃ d w, s.Lands C dir c d w ∧ e' = e.showing { s with cursor := d } w
  | .ok false, e' => dir = .backward ∧ s.Misses C c ∧ ∃ d w, C.field w ∧
      e' = { e with session := some { s with cursor := d }, field := w }
  | .error _, e' => C.Spoilt e e' ∧ C.Fails

/-- A way may begin one place earlier, in an engine that differs in session and field only. -/
theorem Landed.of_passed {c₁ : Cursor} {e e₁ e' : Engine} {r : Except Error Bool}
    (h : Landed C s dir c₁ e₁ r e')
    (hc : ∀ d, Cursor.Passes (s.Empty C) dir c₁ d → Cursor.Passes (s.Empty C) dir c d)
    (he : e₁ = { e with session := e₁.session, field := e₁.field }) :
    Landed C s dir c e r e' := by
  rw [he] at h
  match r with
  | .ok true =>
    obtain ⟨d, w, ⟨c', hpass, hrest⟩, he'⟩ := h
    exact ⟨d, w, ⟨c', hc _ hpass, hrest⟩, he'⟩
  | .ok false =>
    obtain ⟨rfl, ⟨c', hpass, hzero⟩, he'⟩ := h
    exact ⟨rfl, ⟨c', hc _ hpass, hzero⟩, he'⟩
  | .error _ => exact ⟨h.1.congr rfl rfl, h.2⟩

theorem loop_topRound_intro (hp : p.Honours C)
    (ht : t.machine.session = some { s with cursor := c }) (hc : s.Spans c)
    (hfield : C.field t.machine.field) {screen : IntroScreen}
    (hscreen : s.intro[c.item.toNat]? = some screen) :
    (Operation.loop (topRound p dir) after (rounds + 1)).Ensures t fun r t' =>
      Landed C s dir c t.machine r t'.machine := by
  have hintro : { s with cursor := c }.introScreen? = some screen := hscreen
  have hterminal : ¬ { s with cursor := (c.clamp 1).1 }.isTerminal = true := by
    have hlt := (List.getElem?_eq_some_iff.1 hscreen).1
    have := hc.itemCount
    simp only [Session.isTerminal, Cursor.clamp_one, decide_eq_true_eq, UInt8.le_iff_toNat_le]
    omega
  rw [Operation.ensures_loop_succ, topRound]
  simp only [Operation.ensures_bind, ensures_getSession ht, ensures_modifyField, hintro]
  refine (loadIntro_ensures hp hfield rfl).mono ?_
  intro r t' hr
  cases r with
  | error cause => exact ⟨hr.1.congr rfl rfl, hr.2⟩
  | ok _ =>
    obtain ⟨f, hf, ht'⟩ := hr
    simp only [ensures_setSession, Operation.ensures_pure, ht']
    refine ⟨_, f, ⟨c, .stay, .intro hscreen (hf.congr s.cursor s.inspection)⟩, ?_⟩
    rw [Cursor.clamp_one] at hterminal ⊢
    rw [showing_of_not_isTerminal hterminal]

theorem loop_topRound_decision (hconfig : t.machine.config = config)
    (ht : t.machine.session = some { s with cursor := c })
    (hc : s.Spans c) (hfield : C.field t.machine.field)
    (hle : s.intro.length + s.itemCount.toNat ≤ c.item.toNat) :
    (Operation.loop (topRound p dir) after (rounds + 1)).Ensures t fun r t' =>
      Landed C s dir c t.machine r t'.machine := by
  have hintro : { s with cursor := c }.introScreen? = none :=
    List.getElem?_eq_none (by simp only; omega)
  have hterminal : { s with cursor := c }.isTerminal = true := hc.isTerminal_iff.2 hle
  have hterminal' : { s with cursor := ⟨c.item, c.itemCount, 0, 1⟩ }.isTerminal = true := hterminal
  rw [Operation.ensures_loop_succ, topRound]
  simp only [Operation.ensures_bind, ensures_getSession ht, ensures_modifyField, hintro,
    if_pos hterminal, Cursor.clamp_one]
  by_cases hded : s.terminal = .dedicated
  · simp only [if_pos hded, Operation.ensures_bind, ensures_setState, Operation.ensures_machine,
      ensures_setText, ensures_setSession, Operation.ensures_pure, hconfig]
    refine ⟨_, _, ⟨c, .stay, .decision hle ⟨t.machine.field, hfield, rfl⟩⟩, ?_⟩
    rw [showing_of_dedicated hterminal' hded, hconfig]
  · simp only [if_neg hded, Operation.ensures_bind, Operation.ensures_machine, ensures_setText,
      ensures_setSession, Operation.ensures_pure, hconfig]
    refine ⟨_, _, ⟨c, .stay, .decision hle ⟨t.machine.field, hfield, rfl⟩⟩, ?_⟩
    simp only [showing, hded, false_and, if_false, hconfig]

theorem loadPage_item_ensures (dir : Direction) (hp : p.Honours C) (hs : s.Fits C) {e : Engine}
    (hconfig : e.config = config) (hc : s.Spans c) {index pages : UInt8} (hat : s.AtItem c index)
    (hpages : pages ≠ 0) {w : Field} (hw : C.item index c.page (.ok pages) w) (hwf : C.field w)
    (ht : t.machine = { e with field := w }) :
    (loadPage c pages (fun cursor => setSession { s with cursor })
      (fun page => askField (p.item index page))).Ensures t fun r t' =>
      Landed C s dir c e (r.map fun _ => true) t'.machine := by
  refine (loadPage_ensures (C.item index) (fun d _ => some { s with cursor := d })
    (fun _ _ _ => rfl) (C.asks_item hp index) hpages (by rw [ht]; exact hw)
    (by rw [ht]; exact hwf)).mono ?_
  intro r t' hr
  cases r with
  | error cause =>
    rw [ht] at hr
    exact ⟨hr.1.congr rfl rfl, .item hs.counted hat.2 hr.2⟩
  | ok _ =>
    obtain ⟨d, w, hturn, hw, ht'⟩ := hr
    have hrest : s.Rests C c d _ := .item hat hturn hw
    have hat' : s.AtItem d index := ⟨by rw [hturn.item]; exact hat.1, hat.2⟩
    simp only [ht', ht, hconfig]
    refine ⟨d, _, ⟨c, .stay, hrest⟩, ?_⟩
    rw [showing_of_not_isTerminal (hat'.not_isTerminal (hc.of_rests hrest)), hconfig]

theorem loop_topRound_ensures (hp : p.Honours C) (hs : s.Fits C)
    (hconfig : t.machine.config = config) (ht : t.machine.session = some { s with cursor := c })
    (hc : s.Spans c)
    (hfield : C.field t.machine.field) (hpos : 0 < rounds)
    (hrounds : match dir with
      | .forward => c.itemCount.toNat < c.item.toNat + rounds
      | .backward => c.item.toNat < rounds) :
    (Operation.loop (topRound p dir) after rounds).Ensures t fun r t' =>
      Landed C s dir c t.machine r t'.machine := by
  -- A round that goes on takes a step, so that more rounds are left than places on the way.
  induction rounds generalizing c t with
  | zero => omega
  | succ rounds ih =>
    rcases s.place_cases c with ⟨screen, hscreen⟩ | ⟨index, hat⟩ | hle
    · exact loop_topRound_intro hp ht hc hfield hscreen
    · rw [Operation.ensures_loop_succ, topRound]
      simp only [Operation.ensures_bind, ensures_getSession ht, ensures_modifyField,
        hat.introScreen?, if_neg (hat.not_isTerminal hc), Operation.ensures_liftM,
        hat.sub8_leading hs, Except.ok.injEq, exists_eq_left']
      refine (C.asks_item hp index c.page _ t.machine.field hfield rfl).mono ?_
      rintro r t' ⟨w, hw, hwf, ht'⟩
      cases r with
      | error cause =>
        rw [ht']
        exact ⟨⟨rfl, rfl, hwf⟩, .item hs.counted hat.2 (Or.inl ⟨_, _, _, hw⟩)⟩
      | ok pages =>
        by_cases hpages : pages = 0
        · subst hpages
          have hempty : s.Empty C c := ⟨index, w, hat, hw⟩
          have hcount := hc.itemCount
          have hindex := hat
          simp only [↓reduceIte, Operation.ensures_bind, Operation.ensures_note]
          cases dir with
          | forward =>
            obtain ⟨item, hadd, hitem⟩ := hat.add8_one hc
            simp only [Operation.ensures_bind, Operation.ensures_liftM, ensures_setSession, hadd,
              Except.ok.injEq, exists_eq_left', Operation.ensures_pure, ht']
            refine Operation.Ensures.mono (ih hconfig rfl (hc.of_item_le rfl ?_) hwf ?_ ?_)
              fun r t'' hr => hr.of_passed (fun d hd => .on hempty hitem hd) rfl
            all_goals
              obtain ⟨hat, hlt⟩ := hat
              simp only at hrounds ⊢
              omega
          | backward =>
            simp only
            split
            · rename_i hone
              have hitem := diff8_one hone
              simp only [Operation.ensures_bind, ensures_setSession, Operation.ensures_pure, ht']
              refine Operation.Ensures.mono (ih hconfig rfl (hc.of_item_le rfl ?_) hwf ?_ ?_)
                fun r t'' hr => hr.of_passed (fun d hd => .back hempty hitem hd) rfl
              all_goals
                obtain ⟨hat, hlt⟩ := hat
                simp only at hrounds ⊢
                omega
            · -- Only backward there may be no place left; forward the decision follows the items.
              rename_i hzero
              have hitem := byte_eq_zero hzero
              simp only [Operation.ensures_pure, ht']
              exact ⟨rfl, ⟨c, .stay, hitem, hempty⟩, c, w, hwf, by rw [ht]⟩
        · simp only [if_neg hpages, Operation.ensures_bind]
          have hpage := loadPage_item_ensures dir hp hs hconfig hc hat hpages hw hwf ht'
          refine hpage.mono ?_
          intro r t'' hr
          cases r with
          | error cause => exact hr
          | ok _ => exact Operation.ensures_pure.2 hr
    · exact loop_topRound_decision hconfig ht hc hfield hle

/-- Loading lands on a screen of the list; only backward it may find none, and a provider that fails
or contradicts itself has the review aborted. -/
theorem load_ensures (hp : p.Honours C) (hs : s.Fits C) (hconfig : t.machine.config = config)
    (ht : t.machine.session = some { s with cursor := c }) (hc : s.Spans c)
    (hfield : C.field t.machine.field) :
    (load p dir).Ensures t fun r t' => match r with
      | .ok true => ∃ d w, s.Lands C dir c d w ∧
          t'.machine = t.machine.showing { s with cursor := d } w.filled
      | .ok false => dir = .backward ∧ s.Misses C c ∧ ∃ d w, C.field w ∧
          t'.machine = { t.machine with session := some { s with cursor := d }, field := w }
      | .error _ => C.Aborted t.machine t'.machine ∧ C.Fails := by
  have hbody : (topLoop p dir (throw .unknown)).Ensures t fun r t' =>
      Landed C s dir c t.machine r t'.machine := by
    simp only [topLoop, Operation.ensures_bind, ensures_getSession ht]
    refine loop_topRound_ensures hp hs hconfig ht hc hfield (by omega) ?_
    have hlt := hc.item_lt
    cases dir with
    | forward => simp only; omega
    | backward =>
      have hle : s.terminal.decisions ≤ s.terminal.trailing.toNat + 1 := by
        cases s.terminal <;> decide
      simp only
      omega
  refine (C.loading_ensures C.Fails
    (fun found e' => Landed C s dir c t.machine (.ok found) e') ?_).mono ?_
  · refine hbody.mono fun r t' hr => ?_
    cases r <;> exact hr
  · intro r t' hr
    cases r with
    | error cause => exact hr
    | ok found =>
      cases found with
      | true =>
        obtain ⟨e, ⟨d, w, hland, rfl⟩, ht'⟩ := hr
        exact ⟨d, w, hland, ht'⟩
      | false =>
        obtain ⟨e, ⟨hdir, hmiss, d, w, hw, rfl⟩, ht'⟩ := hr
        exact ⟨hdir, hmiss, d, w.filled, C.field_filled hw, ht'⟩

/-- Forward there is always a screen to land on: at the latest one of the decision's. -/
theorem load_forward (hp : p.Honours C) (hs : s.Fits C) (hconfig : t.machine.config = config)
    (ht : t.machine.session = some { s with cursor := c }) (hc : s.Spans c)
    (hfield : C.field t.machine.field) :
    (load p .forward).Ensures t fun r t' => match r with
      | .ok found => found = true ∧ ∃ d w, s.Lands C .forward c d w ∧
          t'.machine = t.machine.showing { s with cursor := d } w.filled
      | .error _ => C.Aborted t.machine t'.machine ∧ C.Fails := by
  refine (load_ensures hp hs hconfig ht hc hfield).mono fun r t' hr => ?_
  cases r with
  | error cause => exact hr
  | ok found =>
    cases found with
    | true => exact ⟨rfl, hr⟩
    | false => cases hr.1

end Engine
end WalletReview
