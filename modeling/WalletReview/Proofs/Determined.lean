import WalletReview.Proofs.OnScreen
import WalletReview.Proofs.Return
import WalletReview.Proofs.Writing

/-! Providers whose answers are determined by the questions, errors among them. Loading once more
the screen that is on changes nothing, so that where an engine answers that nothing has changed, all
of it is as it was. -/
namespace WalletReview

open Engine (Direction)

variable {σ : Type} {config : Config} {C : Contract config}

/-- To each question there is one reply, and one field that goes with it. -/
structure Contract.Determined (C : Contract config) : Prop where
  clean : ∀ f, C.field f → f.Clean config
  item : ∀ {index page r r' w w'}, C.item index page r w → C.item index page r' w' → r' = r ∧ w' = w
  title : ∀ {r r' w w'}, C.title r w → C.title r' w' → r' = r ∧ w' = w
  childCount : ∀ {path r r'}, C.childCount path r → C.childCount path r' → r' = r
  child : ∀ {path child page r r' w w'}, C.child path child page r w →
    C.child path child page r' w' → r' = r ∧ w' = w

/-- The contract of a provider that answers as it does on an empty field, in some state. -/
def Contract.answered (p : Provider σ) (config : Config) : Contract config :=
  { Contract.written config with
    itemCount := fun r => ∃ st, r = (p.itemCount st).1
    item := fun index page r w => ∃ st, r = (p.item index page (.blank config) st).1 ∧
      w = (p.item index page (.blank config) st).2.1
    title := fun r w => ∃ st, r = (p.title (.blank config) st).1 ∧
      w = (p.title (.blank config) st).2.1
    childCount := fun path r => ∃ st, r = (p.childCount path st).1
    child := fun path child page r w => ∃ st, r = (p.child path child page (.blank config) st).1 ∧
      w = (p.child path child page (.blank config) st).2.1
    canInspect := fun path child r => ∃ st, r = (p.canInspect path child st).1 }

theorem Provider.Writes.answered {p : Provider σ} (h : p.Writes) :
    p.Honours (Contract.answered p config) where
  itemCount st := ⟨st, rfl⟩
  item index page f st hf := by
    rw [Field.Clean.clear_eq hf]
    exact ⟨⟨st, rfl, rfl⟩, (h.item index page _ st).clean Field.clean_blank⟩
  title f st hf := by
    rw [Field.Clean.clear_eq hf]
    exact ⟨⟨st, rfl, rfl⟩, (h.title _ st).clean Field.clean_blank⟩
  childCount path st := ⟨st, rfl⟩
  child path child page f st hf := by
    rw [Field.Clean.clear_eq hf]
    exact ⟨⟨st, rfl, rfl⟩, (h.child path child page _ st).clean Field.clean_blank⟩
  canInspect path child st := ⟨st, rfl⟩

theorem Provider.Steady.determined {p : Provider σ} (h : p.Steady) :
    (Contract.answered p config).Determined where
  clean _ hf := hf
  item := by
    rintro index page _ _ _ _ ⟨a, rfl, rfl⟩ ⟨b, rfl, rfl⟩
    obtain ⟨hreply, hfield, -⟩ := h.item index page (.blank config) b a trivial
    exact ⟨hreply, hfield⟩
  title := by
    rintro _ _ _ _ ⟨a, rfl, rfl⟩ ⟨b, rfl, rfl⟩
    obtain ⟨hreply, hfield, -⟩ := h.title (.blank config) b a trivial
    exact ⟨hreply, hfield⟩
  childCount := by
    rintro path _ _ ⟨a, rfl⟩ ⟨b, rfl⟩
    exact (h.childCount path b a trivial).1
  child := by
    rintro path child page _ _ _ _ ⟨a, rfl, rfl⟩ ⟨b, rfl, rfl⟩
    obtain ⟨hreply, hfield, -⟩ := h.child path child page (.blank config) b a trivial
    exact ⟨hreply, hfield⟩

theorem Provider.Steady.recorded {p : Provider σ} (h : p.Steady) : p.recorded.Steady where
  itemCount a b _ := ⟨(h.itemCount a.content b.content trivial).1, trivial⟩
  item index page f a b _ := by
    obtain ⟨hreply, hfield, -⟩ := h.item index page f a.content b.content trivial
    exact ⟨hreply, hfield, trivial⟩
  title f a b _ := by
    obtain ⟨hreply, hfield, -⟩ := h.title f a.content b.content trivial
    exact ⟨hreply, hfield, trivial⟩
  childCount path a b _ := ⟨(h.childCount path a.content b.content trivial).1, trivial⟩
  child path child page f a b _ := by
    obtain ⟨hreply, hfield, -⟩ := h.child path child page f a.content b.content trivial
    exact ⟨hreply, hfield, trivial⟩
  canInspect path child a b _ := ⟨(h.canInspect path child a.content b.content trivial).1, trivial⟩
  conclude _ _ _ _ := trivial

theorem Contract.Wrote.unique {text : String × String} {f g : Field} (h : C.Wrote text f)
    (h' : C.Wrote text g) (hC : C.Determined) : g = f := by
  obtain ⟨f₀, hf, rfl⟩ := h
  obtain ⟨g₀, hg, rfl⟩ := h'
  rw [(hC.clean _ hf).clear_eq, (hC.clean _ hg).clear_eq]

namespace Cursor.Turns

variable {answer : (page : UInt8) → Except Error UInt8 → Field → Prop} {c d d' : Cursor}
  {w w' : Field}

theorem again (h : Turns answer c d w) (h' : Turns answer d d' w')
    (hanswer : ∀ {page r r' w w'}, answer page r w → answer page r' w' → r' = r ∧ w' = w) :
    d' = d ∧ w' = w := by
  have hlt := h.page_lt
  cases h' with
  | within hw' _ =>
    obtain ⟨hr, rfl⟩ := hanswer h.answered hw'
    cases hr
    exact ⟨rfl, rfl⟩
  | beyond hw' hle =>
    obtain ⟨hr, -⟩ := hanswer h.answered hw'
    cases hr
    exact absurd hlt (UInt8.not_lt.2 hle)

theorem not_zero (h : Turns answer c d w) (hzero : answer c.page (.ok 0) w')
    (hanswer : ∀ {page r r' w w'}, answer page r w → answer page r' w' → r' = r ∧ w' = w) :
    False := by
  cases h with
  | within hw hlt =>
    obtain ⟨hr, -⟩ := hanswer hzero hw
    cases hr
    exact UInt8.not_lt_zero hlt
  | beyond hw _ hpage =>
    obtain ⟨hr, -⟩ := hanswer hzero hw
    cases hr
    cases hpage

theorem pageCount_ne_zero (h : Turns answer c d w) : d.pageCount ≠ 0 := by
  intro hzero
  have hlt := h.page_lt
  rw [hzero] at hlt
  exact UInt8.not_lt_zero hlt

end Cursor.Turns

theorem Cursor.Passes.eq_of_atEnd {empty : Cursor → Prop} {c d : Cursor}
    (h : Passes empty .forward c d) (hend : c.AtEnd .forward) (hd : d.Within) : d = c := by
  rcases h.page with heq | ⟨hlt, -⟩
  · exact heq
  · rw [Cursor.Within, h.itemCount] at hd
    simp only [Cursor.AtEnd] at hend
    omega

namespace Session

variable {s : Session} {c d d' : Cursor} {f g w w' : Field} {screen : IntroScreen}

theorem IntroText.unique (h : s.IntroText C screen f) (h' : s.IntroText C screen g)
    (hC : C.Determined) : g = f := by
  cases h with
  | intent hintent hw =>
    cases h' with
    | intent _ hw' => exact hw.unique hw' hC
    | provider hempty => cases hintent.symm.trans hempty
    | plain hplain => cases hintent.symm.trans (hplain rfl).1
  | provider hempty hkind hw =>
    cases h' with
    | intent hintent => cases hintent.symm.trans hempty
    | provider _ _ hw' => exact (hC.title hw hw').2
    | plain hplain =>
      obtain ⟨w, hnone⟩ := (hplain rfl).2 hkind
      cases (hC.title hw hnone).1
  | plain hplain hw =>
    cases h' with
    | intent hintent => cases hintent.symm.trans (hplain rfl).1
    | provider _ hkind hw' =>
      obtain ⟨w, hnone⟩ := (hplain rfl).2 hkind
      cases (hC.title hw' hnone).1
    | plain _ hw' => exact hw.unique hw' hC

theorem Rests.again (h : s.Rests C c d w) (h' : s.Rests C d d' w') (hC : C.Determined) :
    d' = d ∧ w' = w := by
  cases h with
  | intro hscreen htext =>
    have hlt := (List.getElem?_eq_some_iff.1 hscreen).1
    cases h' with
    | intro hscreen' htext' =>
      cases hscreen.symm.trans hscreen'
      exact ⟨rfl, htext.unique htext' hC⟩
    | item hat =>
      have := hat.1
      simp only at this
      omega
    | decision hle =>
      simp only at hle
      omega
  | item hat hturn =>
    have hitem := hturn.item
    have := hat.1
    have := hat.2
    cases h' with
    | intro hscreen' =>
      have hlt := (List.getElem?_eq_some_iff.1 hscreen').1
      rw [hitem] at hlt
      omega
    | item hat' hturn' =>
      cases hat.unique ⟨by rw [← hitem]; exact hat'.1, hat'.2⟩
      obtain ⟨rfl, rfl⟩ := hturn.again hturn' hC.item
      exact ⟨rfl, rfl⟩
    | decision hle =>
      rw [hitem] at hle
      omega
  | decision hle hw =>
    cases h' with
    | intro hscreen' =>
      have hlt := (List.getElem?_eq_some_iff.1 hscreen').1
      simp only at hlt
      omega
    | item hat =>
      have hlt := hat.2
      have hitem : c.item.toNat = _ := hat.1
      omega
    | decision _ hw' => exact ⟨rfl, hw.unique hw' hC⟩

theorem Rests.not_empty (h : s.Rests C c d w) (hC : C.Determined) : ¬s.Empty C d := by
  rintro ⟨index, w', hat, hzero⟩
  have h1 := hat.1
  have h2 := hat.2
  cases h with
  | intro hscreen =>
    have hlt := (List.getElem?_eq_some_iff.1 hscreen).1
    simp only at h1
    omega
  | item hat' hturn =>
    rw [hturn.item] at h1
    cases hat'.unique ⟨h1, h2⟩
    obtain ⟨hr, -⟩ := hC.item hturn.answered hzero
    exact hturn.pageCount_ne_zero (Except.ok.inj hr).symm
  | decision hle =>
    simp only at h1
    omega

theorem Lands.again (h : s.Lands C .forward d d' w') (hrest : s.Rests C c d w)
    (hC : C.Determined) : d' = d ∧ w' = w := by
  obtain ⟨c', hpass, hrest'⟩ := h
  cases hpass.eq_of_not_empty (hrest.not_empty hC)
  exact hrest.again hrest' hC

theorem Shows.again (h : s.Shows C f) (hland : s.Lands C .forward s.cursor d w)
    (hC : C.Determined) : d = s.cursor ∧ w.filled = f := by
  obtain ⟨c, w', hrest, rfl⟩ := h
  obtain ⟨rfl, rfl⟩ := hland.again hrest hC
  exact ⟨rfl, rfl⟩

end Session

namespace Inspection

variable {i j : Inspection} {c d d' : Cursor} {f g w w' : Field} {root : UInt8}

theorem Rests.again (h : i.Rests C c d w) (h' : i.Rests C d d' w') (hC : C.Determined) :
    d' = d ∧ w' = w := by
  obtain ⟨hroot, hback, hindex⟩ := markers_eq (i := { i with cursor := c }) h.item_eq h.itemCount_eq
  cases h with
  | marker hmarker hw =>
    cases h' with
    | marker _ hw' =>
      rw [hback] at hw'
      exact ⟨rfl, hw.unique hw' hC⟩
    | vacant hplain =>
      rw [hroot, hback, hmarker] at hplain
      cases hplain
    | child hplain =>
      rw [hroot, hback, hmarker] at hplain
      cases hplain
  | vacant hplain hnone hw =>
    cases h' with
    | marker hmarker =>
      rw [hroot, hback, hplain] at hmarker
      cases hmarker
    | vacant _ _ hw' => exact ⟨rfl, hw.unique hw' hC⟩
    | child _ hchild =>
      rw [hindex, hnone] at hchild
      cases hchild
  | child hplain hchild hturn =>
    cases h' with
    | marker hmarker =>
      rw [hroot, hback, hplain] at hmarker
      cases hmarker
    | vacant _ hnone =>
      rw [hindex, hchild] at hnone
      cases hnone
    | child _ hchild' hturn' =>
      rw [hindex, hchild] at hchild'
      cases hchild'
      obtain ⟨rfl, rfl⟩ := hturn.again hturn' hC.child
      exact ⟨rfl, rfl⟩

theorem Rests.not_blank (h : i.Rests C c d w) (hC : C.Determined) : ¬i.Blank C c w' := by
  rintro ⟨child, hchild, hzero⟩
  cases h with
  | marker hmarker => cases hchild.symm.trans (childIndex_eq_none hmarker)
  | vacant _ hnone => cases hchild.symm.trans hnone
  | child _ hchild' hturn =>
    cases hchild.symm.trans hchild'
    exact hturn.not_zero hzero hC.child

theorem Rests.not_empty (h : i.Rests C c d w) (hC : C.Determined) : ¬i.Empty C d := by
  obtain ⟨-, -, hindex⟩ := markers_eq (i := { i with cursor := c }) h.item_eq h.itemCount_eq
  rintro ⟨child, w', hchild, hzero⟩
  rw [hindex] at hchild
  cases h with
  | marker hmarker => cases hchild.symm.trans (childIndex_eq_none hmarker)
  | vacant _ hnone => cases hchild.symm.trans hnone
  | child _ hchild' hturn =>
    cases hchild.symm.trans hchild'
    obtain ⟨hr, -⟩ := hC.child hturn.answered hzero
    exact hturn.pageCount_ne_zero (Except.ok.inj hr).symm

theorem Blank.unique (h : i.Blank C c w) (h' : i.Blank C c w') (hC : C.Determined) : w' = w := by
  obtain ⟨child, hchild, hw⟩ := h
  obtain ⟨child', hchild', hw'⟩ := h'
  cases hchild.symm.trans hchild'
  exact (hC.child hw hw').2

/-- Loaded once more, what is on screen is the same. -/
theorem Loads.eq_of_stands (h : i.Loads C j g) (hstands : i.Stands C root f) (hC : C.Determined) :
    j = i ∧ g = f := by
  obtain ⟨count, d, hcount, rfl, w, rfl, hway⟩ := h
  obtain ⟨count', hcount', hsame⟩ := hstands.counted
  cases hC.childCount hcount hcount'
  rw [recounted_eq_self hsame hstands.within] at hway
  rcases hstands.shown with ⟨c, w', hrest, rfl⟩ | ⟨hend, w', hblank, rfl⟩
  · have hnot := hrest.not_empty hC
    rcases hway with ⟨c', hpass, hrest', -⟩ | hmiss
    · cases hpass.eq_of_not_empty hnot
      obtain ⟨rfl, rfl⟩ := hrest.again hrest' hC
      exact ⟨rfl, rfl⟩
    · cases hmiss.passes.eq_of_not_empty hnot
      exact absurd hmiss.blank.empty hnot
  · rcases hway with ⟨c', hpass, hrest', hwithin⟩ | hmiss
    · cases hpass.eq_of_atEnd hend hwithin
      exact absurd hblank (hrest'.not_blank hC)
    · cases hmiss.passes.eq_of_atEnd hend hmiss.within
      rw [hblank.unique hmiss.blank hC]
      exact ⟨rfl, rfl⟩

end Inspection

namespace Engine

variable {e e' : Engine} {s : Session} {out : Output} {dir : Direction}

theorem Sound.showing_self (he : Sound C e) (hs : e.session = some s)
    (hstate : e.state = .review ∨ e.state = .confirm) :
    s.Shows C e.field ∧ { e with state := .review }.showing s e.field = e := by
  rcases hstate with hstate | hstate
  · obtain ⟨s', hs', -, hopen, -, hshows⟩ := he.review hstate
    cases hs.symm.trans hs'
    refine ⟨hshows, ?_⟩
    rw [showing, if_neg hopen, ← hs, ← hstate]
  · obtain ⟨s', hs', -, hded, hterminal, -, hshows⟩ := he.confirm hstate
    cases hs.symm.trans hs'
    refine ⟨hshows, ?_⟩
    rw [showing_of_dedicated hterminal hded, ← hs, ← hstate]

/-- Where a step through the list finds no screen, nothing has changed. -/
theorem Stepped.eq_of_none {extra : Nat} (h : Stepped C e s extra dir .none e') (he : Sound C e)
    (hs : e.session = some s) (hinspect : e.state ≠ .inspect)
    (hinterstitial : e.state = .interstitial → dir = .forward) (hC : C.Determined) : e' = e := by
  cases h with
  | stay => rfl
  | miss _ _ hland =>
    have hstate : e.state = .review ∨ e.state = .confirm := by
      cases he.standing with
      | idle _ hnone => cases hs.symm.trans hnone
      | error _ hnone => cases hs.symm.trans hnone
      | review hstate => exact Or.inl hstate
      | confirm hstate => exact Or.inr hstate
      | interstitial hstate => cases hinterstitial hstate
      | inspect hi => exact absurd hi.state hinspect
    obtain ⟨hshows, hself⟩ := he.showing_self hs hstate
    obtain ⟨rfl, hfield⟩ := hshows.again hland hC
    rw [hfield]
    exact hself

theorem Visits.eq_of_none (h : Visits C e .none e') (he : Sound C e) (hC : C.Determined) :
    e' = e := by
  cases h with
  | stay => rfl
  | miss hi _ _ _ hload =>
    obtain ⟨root, -, hstands⟩ := he.of_inspects hi
    obtain ⟨rfl, rfl⟩ := hload.eq_of_stands hstands hC
    exact hi.inspecting_self

theorem Goes.eq_of_none (h : Goes C e dir .none e') (he : Sound C e) (hC : C.Determined) :
    e' = e := by
  cases h with
  | step hs hinspect hinterstitial _ hstep =>
    exact hstep.eq_of_none he hs hinspect hinterstitial hC
  | visit _ h => exact h.eq_of_none he hC

/-- Where nothing is said to have changed, all is as it was, unless a review was given up. -/
theorem Moves.eq_of_none {skips : Bool} (h : Moves C skips e (.ok .none) e') (he : Sound C e)
    (hC : C.Determined) : e' = e ∨ C.Aborted e e' ∧ Hazards C e := by
  cases h with
  | nothing => exact Or.inl rfl
  | lost haborted hwhy => exact Or.inr ⟨haborted, hwhy⟩
  | begins _ h => cases h
  | goes _ h => exact Or.inl (h.eq_of_none he hC)
  | jumps _ h => cases h
  | visits _ h => exact Or.inl (h.eq_of_none he hC)
  | ends h => cases h

end Engine

end WalletReview
