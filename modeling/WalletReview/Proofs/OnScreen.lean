import WalletReview.Proofs.Content
import WalletReview.Proofs.Openings

/-! What is on screen is what the position says. In front of a fixed content every screen of a
review shows the text of its position and nothing else, whatever was written on the field before. -/
namespace WalletReview

variable {σ : Type} {config : Config} {x : Content}

def Position.page : Position → UInt8
  | item _ page => page
  | child _ _ page => page
  | _ => 0

namespace Content

/-- Key and value of an intro screen. An intent replaces the title, which may be the content's own
for transactions and generic operations. -/
def introText (x : Content) (o : Opening) : IntroScreen → String × String
  | .blindSignWarning => ("Warning", "BlindSign")
  | .blindSignDetails => ("Tx details", "not verifiable")
  | .blindSignRisk => ("Could lose", "all assets")
  | .title =>
    if o.subject ≠ "" then
      (if o.kind = .message then "Review message" else "Review transaction", o.subject)
    else
      match o.kind with
      | .transaction | .generic => x.title.getD ("Please", "review")
      | .address => ("Please", "review")
      | .config => ("Review", "configuration")
      | .message => ("Review", "Message")
  | .shortcut => ("Skip", "fields")

def approveText (config : Config) (o : Opening) : String × String :=
  if o.modes.blindSignRequired ∧ (o.kind = .transaction ∨ o.kind = .message) then
    ("ACCEPT RISK", "AND APPROVE")
  else if config.touchLabels then
    match o.kind with
    | .transaction => ("Sign transaction?", "")
    | .generic => ("Accept operation?", "")
    | .config | .address | .message => ("Approve", "")
  else ("", "APPROVE")

/-- Key and value that a position of a review stands for; `path` leads to the children. -/
def textAt (x : Content) (config : Config) (o : Opening) (path : List UInt8) :
    Position → String × String
  | .intro screen => x.introText o screen
  | .item index page =>
    (Field.labelled config.labelStyle page (x.pages index) (x.item index page).1,
      (x.item index page).2)
  | .child _ child page =>
    (Field.labelled config.labelStyle page (x.childPages path child) (x.child path child page).1,
      (x.child path child page).2)
  | .approve => approveText config o
  | .reject => ("", "REJECT")
  | .interstitial _ => ("Press right to read", "Double-press to skip")
  | .goToRoot => ("", "Go to root")
  | .back => ("", "BACK")
  | .idle | .error => ("", "")

def pagesAt (x : Content) (path : List UInt8) : Position → UInt8
  | .item index _ => x.pages index
  | .child _ child _ => x.childPages path child
  | _ => 1

/-- A child at the position is one that there is and has pages. -/
def HasPages (x : Content) (path : List UInt8) : Position → Prop
  | .child _ child _ => child < x.childCount path ∧ x.childPages path child ≠ 0
  | _ => True

end Content

namespace Session

variable {s : Session} {o : Opening} {c d : Cursor} {f w : Field} {path : List UInt8}
  {screen : IntroScreen}

theorem OpenedBy.isEmpty_iff (h : s.OpenedBy o) : s.intent.isEmpty = true ↔ o.subject = "" := by
  rw [h.intent.isEmpty_iff, String.toList_eq_nil_iff]

theorem OpenedBy.introText_eq (h : s.OpenedBy o) (hsubject : screen = .title → o.subject = "")
    (htitle : screen = .title → s.kind = .transaction ∨ s.kind = .generic → x.title = none) :
    x.introText o screen = screen.text s.kind := by
  cases screen with
  | title =>
    have hkind := h.kind
    simp only [Content.introText, hsubject rfl, ne_eq, not_true_eq_false, ↓reduceIte, ← hkind]
    cases hs : s.kind with
    | transaction => rw [htitle rfl (Or.inl hs)]; rfl
    | generic => rw [htitle rfl (Or.inr hs)]; rfl
    | _ => rfl
  | _ => rfl

theorem IntroText.holds (h : s.IntroText (Contract.presented config x) screen f)
    (ho : s.OpenedBy o) : f.Holds (x.introText o screen) := by
  cases h with
  | intent hempty hw =>
    have hsubject : o.subject ≠ "" := by
      intro h
      simp [ho.isEmpty_iff.2 h] at hempty
    have hkey : Text.size (if s.kind = .message then "Review message" else
        "Review transaction").toList ≤ keyCapacity := by
      split <;> decide
    rw [ho.intent.text, String.ofList_toList] at hw
    simp only [Content.introText, hsubject, ne_eq, not_false_eq_true, ↓reduceIte, ← ho.kind]
    exact hw.holds hkey (Nat.le_trans ho.intent.fits (by decide))
  | provider hempty hkind htitle _ =>
    obtain ⟨-, htitle⟩ := htitle
    cases hx : x.title with
    | none => simp [hx] at htitle
    | some text =>
      simp only [hx] at htitle
      have htext : x.introText o .title = text := by
        simp only [Content.introText, ho.isEmpty_iff.1 hempty, ne_eq, not_true_eq_false,
          ↓reduceIte, ← ho.kind]
        rcases hkind with hkind | hkind <;> rw [hkind, hx] <;> rfl
      rw [htext]
      exact htitle.2 trivial
  | plain hplain hw =>
    have hsize : Text.size (screen.text s.kind).1.toList ≤ keyCapacity ∧
        Text.size (screen.text s.kind).2.toList ≤ valueCapacity := by
      cases screen <;> cases s.kind <;> decide
    have htext : x.introText o screen = screen.text s.kind := by
      refine ho.introText_eq (fun h => ho.isEmpty_iff.1 (hplain h).1) fun hscreen hkind => ?_
      obtain ⟨w, -, hnone⟩ := (hplain hscreen).2 hkind
      cases hx : x.title with
      | none => rfl
      | some text => simp [hx] at hnone
    rw [htext]
    exact hw.holds hsize.1 hsize.2

theorem OpenedBy.approveText_eq (h : s.OpenedBy o) (hreject : ¬s.isReject = true) :
    Content.approveText config o = Engine.terminalText s config := by
  rw [Content.approveText, Engine.terminalText, if_neg hreject, h.modes, h.kind]
  cases o.kind <;> cases o.modes.blindSignRequired <;> rfl

theorem terminalText_eq {C : Contract config} (path : List UInt8) (hs : s.Runs C)
    (ho : s.OpenedBy o) (hle : s.intro.length + s.itemCount.toNat ≤ s.cursor.item.toNat) :
    (s.screen = .approve ∨ s.screen = .reject) ∧
      x.textAt config o path s.screen = Engine.terminalText s config := by
  have hmem : s.screen = .approve ∨ s.screen = .reject := by
    have hscreen := List.mem_of_getElem? (screen_decision hs hle)
    cases hmode : s.terminal with
    | items => simpa [hmode, TerminalMode.screens] using hscreen
    | approveOnly => exact Or.inl (by simpa [hmode, TerminalMode.screens] using hscreen)
    | dedicated => exact Or.inl (by simpa [hmode, TerminalMode.screens] using hscreen)
  refine ⟨hmem, ?_⟩
  by_cases hreject : s.isReject = true
  · have hintro : ¬s.cursor.item.toNat < s.intro.length := by omega
    have hparts := hreject
    simp only [isReject, Bool.and_eq_true, beq_iff_eq] at hparts
    have happrove : s.isApprove = false := by simp [isApprove, hparts]
    have hscreen : s.screen = .reject := by
      simp [screen, Engine.topPosition, hparts.1, hintro, happrove, hreject]
    rw [hscreen, Engine.terminalText, if_pos hreject]
    rfl
  · have hscreen : s.screen = .approve := by
      refine hmem.resolve_right fun h => ?_
      unfold screen Engine.topPosition at h
      split at h
      · cases h
      · split at h
        · cases h
        · split at h <;> cases h
    rw [hscreen]
    exact ho.approveText_eq hreject

theorem size_terminalText (s : Session) (config : Config) :
    Text.size (Engine.terminalText s config).1.toList ≤ keyCapacity ∧
      Text.size (Engine.terminalText s config).2.toList ≤ valueCapacity := by
  unfold Engine.terminalText
  repeat' split
  all_goals decide

/-- What a session shows on a screen of its list. -/
theorem Shows.holds (h : s.Shows (Contract.presented config x) f)
    (hs : s.Runs (Contract.presented config x)) (ho : s.OpenedBy o) (path : List UInt8) :
    f.Holds ((x.textAt config o path s.screen).1,
        Field.padded (x.textAt config o path s.screen).2) ∧
      x.pagesAt path s.screen = s.cursor.pageCount ∧ s.screen.page = s.cursor.page := by
  obtain ⟨c, w, hrest, rfl⟩ := h
  have hspans := hs.spans
  generalize hd : s.cursor = d at hrest
  cases hrest with
  | @intro screen w hscreen htext =>
    have hscreen' : s.intro[s.cursor.item.toNat]? = some screen := by rw [hd]; exact hscreen
    rw [screen_intro hspans hscreen']
    exact ⟨(htext.holds ho).filled, rfl, rfl⟩
  | @item index d w hat hturn =>
    have hat' : s.AtItem s.cursor index := ⟨by rw [hd, hturn.item]; exact hat.1, hat.2⟩
    obtain ⟨-, hanswer⟩ := hturn.answered
    obtain ⟨hpages, hw⟩ := hanswer _ rfl
    rw [screen_item hs.fits hspans hat', hd]
    refine ⟨?_, hpages.symm, rfl⟩
    have hlabel := (hw.labelKey d.page d.pageCount config.labelStyle).filled
    rw [hpages] at hlabel ⊢
    exact hlabel
  | @decision w hle hwrote =>
    have hle' : s.intro.length + s.itemCount.toNat ≤ s.cursor.item.toNat := by rw [hd]; exact hle
    obtain ⟨hscreen, htext⟩ := terminalText_eq (x := x) path hs ho hle'
    have hcursor : Engine.terminalText { s with cursor := c } config =
        Engine.terminalText s config := by
      have hitem : c.item = s.cursor.item := by rw [hd]
      have hreject : { s with cursor := c }.isReject = s.isReject := by
        simp only [isReject, approveIndex, leading, hitem]
      rw [Engine.terminalText, Engine.terminalText, hreject]
    obtain ⟨hkey, hvalue⟩ := s.size_terminalText config
    rw [hcursor] at hwrote
    rw [htext]
    refine ⟨(hwrote.holds hkey hvalue).filled, ?_⟩
    rcases hscreen with hscreen | hscreen <;> rw [hscreen] <;> exact ⟨rfl, rfl⟩

end Session

namespace Inspection

variable {i : Inspection} {root child : UInt8} {c : Cursor} {f : Field}

theorem markers_eq (hitem : c.item = i.cursor.item) (hcount : c.itemCount = i.cursor.itemCount) :
    { i with cursor := c }.isGoToRoot = i.isGoToRoot ∧ { i with cursor := c }.isBack = i.isBack ∧
      { i with cursor := c }.childIndex = i.childIndex := by
  obtain ⟨depth, path, ⟨item, itemCount, page, pageCount⟩, layout⟩ := i
  obtain ⟨item', itemCount', page', pageCount'⟩ := c
  simp only at hitem hcount
  subst hitem hcount
  exact ⟨rfl, rfl, rfl⟩

theorem childIndex_eq_none (h : (i.isGoToRoot || i.isBack) = true) : i.childIndex = none := by
  unfold childIndex
  cases hlayout : i.layout with
  | native => simp [isGoToRoot, isBack, hlayout] at h
  | bracketed =>
    by_cases hback : i.isBack = true
    · simp [hback]
    · have hitem : i.cursor.item = 0 := by simpa [isGoToRoot, hlayout, hback] using h
      simp [hback, hitem]

theorem isBack_eq_false (h : i.childIndex = some child) : i.isBack = false := by
  cases hback : i.isBack with
  | false => rfl
  | true => cases h.symm.trans (childIndex_eq_none (by rw [hback, Bool.or_true]))

theorem toNat_childCount (i : Inspection) :
    i.childCount.toNat = i.cursor.itemCount.toNat - i.layout.extra.toNat := by
  have hlt := i.cursor.itemCount.toNat_lt
  rw [childCount, UInt8.toNat_ofNat', Nat.mod_eq_of_lt (by omega)]

theorem childCount_eq_zero (h : i.Stands (Contract.presented config x) root f)
    (hmarker : (i.isGoToRoot || i.isBack) = false) (hchild : i.childIndex = none) :
    x.childCount i.chain = 0 := by
  obtain ⟨count, hcount, hitemCount⟩ := h.counted
  cases hcount count rfl
  have hwithin := h.within
  have hcounted := i.recounted_itemCount (x.childCount i.chain)
  rw [← hitemCount] at hcounted
  unfold childIndex at hchild
  cases hlayout : i.layout with
  | native =>
    simp only [hlayout] at hchild
    split at hchild
    · cases hchild
    · rename_i hle
      rw [UInt8.lt_iff_toNat_lt] at hle
      unfold Cursor.Within at hwithin
      simp only [hlayout, InspectLayout.extra, UInt8.reduceToNat] at hcounted
      rw [← UInt8.toNat_inj]
      simp only [UInt8.reduceToNat]
      omega
  | bracketed =>
    simp only [Bool.or_eq_false_iff] at hmarker
    have hzero : ¬i.cursor.item = 0 := by simpa [isGoToRoot, hlayout] using hmarker.1
    have hone : 1 ≤ i.cursor.item := by
      have hne : i.cursor.item.toNat ≠ 0 := fun h => hzero (UInt8.toNat_inj.1 h)
      rw [UInt8.le_iff_toNat_le]
      exact Nat.one_le_iff_ne_zero.2 hne
    simp [hlayout, hmarker.2, hone] at hchild

theorem not_isBack (h : i.Stands (Contract.presented config x) root f)
    (hroot : i.isGoToRoot = true) : i.isBack = false := by
  obtain ⟨count, -, hitemCount⟩ := h.counted
  have hcounted := i.recounted_itemCount count
  rw [← hitemCount] at hcounted
  simp only [isGoToRoot, Bool.and_eq_true, beq_iff_eq] at hroot
  simp only [hroot.1, InspectLayout.extra, UInt8.reduceToNat] at hcounted
  unfold isBack
  split
  · rename_i hone
    have hne : ¬i.cursor.item = diff8 i.cursor.itemCount 1 hone := by
      intro heq
      have hdiff := diff8_toNat hone
      rw [← heq, hroot.2] at hdiff
      simp only [UInt8.reduceToNat] at hdiff
      omega
    simp [hne]
  · rfl

/-- What an inspection shows. -/
theorem Stands.holds (h : i.Stands (Contract.presented config x) root f) (o : Opening)
    (hpages : x.HasPages i.chain (Engine.inspectPosition i)) :
    f.Holds ((x.textAt config o i.chain (Engine.inspectPosition i)).1,
        Field.padded (x.textAt config o i.chain (Engine.inspectPosition i)).2) ∧
      x.pagesAt i.chain (Engine.inspectPosition i) = i.cursor.pageCount ∧
      (Engine.inspectPosition i).page = i.cursor.page := by
  rcases h.shown with ⟨c, w, hrest, rfl⟩ | ⟨-, w, ⟨child, hchild, hanswer⟩, -⟩
  · have hitem := hrest.item_eq
    have hcount := hrest.itemCount_eq
    obtain ⟨hroot, hback, hchildIndex⟩ := markers_eq (i := i) hitem.symm hcount.symm
    generalize hd : i.cursor = d at hrest
    cases hrest with
    | marker hmarker hw =>
      rw [hroot, hback] at hmarker
      rw [hback] at hw
      have hnone := childIndex_eq_none hmarker
      by_cases hleads : i.isGoToRoot = true
      · have hposition : Engine.inspectPosition i = .goToRoot := by
          simp [Engine.inspectPosition, hnone, hleads]
        rw [not_isBack h hleads] at hw
        rw [hposition]
        exact ⟨(hw.holds (by decide) (by decide)).filled, rfl, rfl⟩
      · have hleads' : i.isBack = true := by simpa [hleads] using hmarker
        have hposition : Engine.inspectPosition i = .back := by
          simp [Engine.inspectPosition, hnone, hleads, hleads']
        rw [hleads'] at hw
        rw [hposition]
        exact ⟨(hw.holds (by decide) (by decide)).filled, rfl, rfl⟩
    | vacant hmarker hnone hw =>
      rw [hroot, hback] at hmarker
      rw [hchildIndex] at hnone
      have hzero := childCount_eq_zero h hmarker hnone
      simp only [Bool.or_eq_false_iff] at hmarker
      simp [Engine.inspectPosition, hnone, hmarker, Content.HasPages, hzero] at hpages
    | child hmarker hchild hturn =>
      rw [hchildIndex] at hchild
      obtain ⟨-, hanswer⟩ := hturn.answered
      obtain ⟨hcount, hw⟩ := hanswer _ rfl
      have hposition : ∀ child, i.childIndex = some child →
          Engine.inspectPosition i = .child i.depth child i.cursor.page := by
        intro child hchild
        simp [Engine.inspectPosition, hchild]
      rw [hposition _ hchild, hd]
      refine ⟨?_, hcount.symm, rfl⟩
      have hlabel := (hw.labelKey d.page d.pageCount config.labelStyle).filled
      rw [hcount] at hlabel ⊢
      exact hlabel
  · obtain ⟨-, hanswer⟩ := hanswer
    obtain ⟨hzero, -⟩ := hanswer 0 rfl
    have hchild' : i.childIndex = some child := hchild
    simp [Engine.inspectPosition, hchild', Content.HasPages, ← hzero] at hpages

end Inspection

def Session.path (s : Session) : List UInt8 :=
  match s.inspection with
  | some i => i.chain
  | none => []

namespace Engine

variable {e : Engine} {s : Session} {o : Opening} {text : String × String} {index count : UInt8}

/-- The screen shows a page of a text, and the field has nothing on it but the text. -/
structure Displays (e : Engine) (text : String × String) (index count : UInt8) : Prop where
  key : e.display.key = text.1
  value : e.display.value = Field.padded text.2
  page : e.display.page = index
  pageCount : e.display.pageCount = count
  page_lt : index < count
  field : e.field.Holds (text.1, Field.padded text.2)

theorem displays_of_holds (hfield : e.field.Holds (text.1, Field.padded text.2))
    (hpage : e.pageOnScreen = (index, count)) (hlt : index < count) :
    e.Displays text index count where
  key := by rw [display, hfield.key.text, String.ofList_toList]
  value := by rw [display, hfield.value.text, String.ofList_toList]
  page := by rw [display, hpage]
  pageCount := by rw [display, hpage]
  page_lt := hlt
  field := hfield

/-- The screen of a review shows what its position stands for. -/
theorem Sound.displays (he : Sound (Contract.presented config x) e) (hs : e.session = some s)
    (ho : s.OpenedBy o) (hpages : x.HasPages s.path e.position) :
    e.Displays (x.textAt config o s.path e.position) e.position.page
      (x.pagesAt s.path e.position) := by
  cases he.standing with
  | idle _ hnone => simp [hnone] at hs
  | error _ hnone => simp [hnone] at hs
  | review hstate hs' _ _ hruns hshows =>
    cases hs.symm.trans hs'
    obtain ⟨htext, hpages, hpage⟩ := hshows.holds hruns ho s.path
    rw [he.position_eq hs (Or.inl hstate)]
    refine displays_of_holds htext ?_ ?_
    · rw [pageOnScreen, hstate, hs, hpages, hpage]
    · rw [hpages, hpage]
      exact hshows.page_lt
  | confirm hstate hs' _ hded ht hruns hshows =>
    cases hs.symm.trans hs'
    obtain ⟨htext, -, -⟩ := hshows.holds hruns ho s.path
    have hposition := he.position_eq hs (Or.inr hstate)
    have happrove : e.position = .approve := by rw [position, hstate, hs]
    rw [← hposition, happrove] at htext
    rw [happrove]
    exact displays_of_holds htext (by rw [pageOnScreen, hstate]; rfl) UInt8.zero_lt_one
  | interstitial hstate hs' _ _ _ _ hw =>
    have hposition : e.position = .interstitial (s.itemIndex?.getD 0) := by
      rw [position, hstate, hs]
    rw [hposition]
    exact displays_of_holds (hw.holds (by decide) (by decide)) (by rw [pageOnScreen, hstate]; rfl)
      UInt8.zero_lt_one
  | @inspect s' i root f hi _ _ _ hstands =>
    cases hs.symm.trans hi.session
    have hposition := hi.position
    have hpath : s.path = i.chain := by simp [Session.path, hi.inspection]
    rw [hposition, hpath] at hpages ⊢
    obtain ⟨htext, hcount, hpage⟩ := hstands.holds o hpages
    refine displays_of_holds htext ?_ ?_
    · simp [pageOnScreen, hi.state, hs, hi.inspection, hcount, hpage]
    · rw [hcount, hpage]
      exact hstands.page_lt

/-- In front of a fixed content, every screen shows what its position says, whatever has been on the
field before. -/
theorem displays_of_run {p : Provider σ} {steps : List Step} {t : Sitting Engine σ}
    (hp : p.Presents config x) (h : Run p config steps t) :
    t.machine.position = .idle ∨ t.machine.position = .error ∨
      ∃ s o, t.machine.session = some s ∧ openingOf steps = some o ∧
        (x.HasPages s.path t.machine.position →
          t.machine.Displays (x.textAt config o s.path t.machine.position) t.machine.position.page
            (x.pagesAt s.path t.machine.position)) := by
  have he := h.sound hp.honours Field.clean_blank
  cases hs : t.machine.session with
  | some s =>
    obtain ⟨o, hopening, ho⟩ := h.openedBy hp.honours Field.clean_blank hs
    exact Or.inr (Or.inr ⟨s, o, rfl, hopening, he.displays hs ho⟩)
  | none =>
    cases hstate : t.machine.state with
    | error => exact Or.inr (Or.inl (by rw [position, hstate]))
    | _ => exact Or.inl (by rw [position, hstate, hs])

/-- A title with the intent of the review, and the second page of an item after it. -/
theorem displays_of_run_ofPages :
    (∃ steps t, Run (Fixture.provider.fixed (.ofPages [2, 0, 1])) .nanoS steps t ∧
      t.machine.position = .intro .title ∧
      t.machine.Displays ("Review transaction", "to pay the rent") 0 1) ∧
    ∃ steps t, Run (Fixture.provider.fixed (.ofPages [2, 0, 1])) .nanoS steps t ∧
      t.machine.position = .item 0 1 ∧ t.machine.Displays ("Item 0 [2/2]", "0.1") 1 2 := by
  let begins : Action := .begin .transaction false (some "pay the rent")
  obtain ⟨first, t₁, hrun₁, hposition₁, hopening⟩ : ∃ steps t,
      Run (Fixture.provider.fixed (.ofPages [2, 0, 1])) .nanoS steps t ∧
        t.machine.position = .intro .title ∧
        openingOf steps = some ⟨.transaction, .none, "to pay the rent"⟩ :=
    ⟨_, _, .act begins (.start ()) rfl, rfl, rfl⟩
  obtain ⟨second, t₂, hrun₂, hposition₂⟩ : ∃ steps t,
      Run (Fixture.provider.fixed (.ofPages [2, 0, 1])) .nanoS steps t ∧
        t.machine.position = .item 0 1 :=
    ⟨_, _, .act .advance (.act .advance (.act begins (.start ()) rfl) rfl) rfl, rfl⟩
  refine ⟨⟨first, t₁, hrun₁, hposition₁, ?_⟩, second, t₂, hrun₂, hposition₂, ?_⟩
  · rcases displays_of_run (Fixture.presents _ _) hrun₁ with hidle | herror | ⟨s, o, -, ho, h⟩
    · cases hposition₁.symm.trans hidle
    · cases hposition₁.symm.trans herror
    · cases hopening.symm.trans ho
      rw [hposition₁] at h
      exact h trivial
  · rcases displays_of_run (Fixture.presents _ _) hrun₂ with hidle | herror | ⟨s, o, -, ho, h⟩
    · cases hposition₂.symm.trans hidle
    · cases hposition₂.symm.trans herror
    · rw [hposition₂] at h
      exact h trivial

end Engine
end WalletReview
