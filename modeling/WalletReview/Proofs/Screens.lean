import WalletReview.Proofs.Ranks
import WalletReview.Proofs.Runs

/-! The list of the screens of a review, for a provider whose items have fixed page counts. Each
place of the cursor is a block of screens: a block of one for an intro or decision screen, and a
block of its pages for an item. The list of a review is its blocks in a row, where the empty ones
leave no trace. -/
namespace WalletReview

variable {σ : Type} {config : Config}

/-- The provider has items of the given page counts, whatever else it answers. -/
structure Provider.Paged (p : Provider σ) (pages : List UInt8) : Prop where
  itemCount : ∀ st, ∃ count, (p.itemCount st).1 = .ok count ∧ count.toNat = pages.length
  item : ∀ index page f st count, pages[index.toNat]? = some count →
    (p.item index page f st).1 = .ok count

/-- The contract of a provider with items of the given page counts; `title` restricts what it
replies to the question for a title. -/
def Contract.paged (config : Config) (pages : List UInt8) (title : Except Error Unit → Prop) :
    Contract config :=
  { Contract.any config with
    itemCount := fun r => ∃ count, r = .ok count ∧ count.toNat = pages.length
    item := fun index _ r _ => ∀ count, pages[index.toNat]? = some count → r = .ok count
    title := fun r _ => title r }

variable {pages : List UInt8} {title : Except Error Unit → Prop} {p : Provider σ}

theorem Provider.Paged.honours (h : p.Paged pages) (htitle : ∀ f st, title (p.title f st).1) :
    p.Honours (Contract.paged config pages title) where
  itemCount st := h.itemCount st
  item index page f st _ := ⟨fun count hcount => h.item index page f.clear st count hcount, trivial⟩
  title f st _ := ⟨htitle f.clear st, trivial⟩
  childCount _ _ := trivial
  child _ _ _ _ _ _ := ⟨trivial, trivial⟩
  canInspect _ _ _ := trivial

def itemScreens (pages : List UInt8) : List Position :=
  (Walk.expectedPages pages).map fun (index, page) => .item index page

def TerminalMode.screens : TerminalMode → List Position
  | items => [.approve, .reject]
  | approveOnly | dedicated => [.approve]

def screens (config : Config) (kind : Kind) (modes : Modes) (pages : List UInt8) : List Position :=
  (introScreens kind modes config.titleScreen).map .intro ++ itemScreens pages ++
    config.terminal.screens

namespace Session

def blocks (s : Session) (pages : List UInt8) : List (List Position) :=
  s.intro.map (fun screen => [.intro screen]) ++
  pages.zipIdx.map (fun (count, index) =>
    (List.range count.toNat).map fun page => .item index.toUInt8 (.ofNat page)) ++
  s.terminal.screens.map fun screen => [screen]

/-- The screen under the cursor of a session, off the offer to skip and off any inspection. -/
def screen (s : Session) : Position :=
  if s.terminal = .dedicated ∧ s.isTerminal = true then .approve else Engine.topPosition s

variable {s : Session} {c d : Cursor} {f w : Field} {i : Nat} {index count : UInt8}
  {dir : Engine.Direction}

theorem blocks_flatten (s : Session) (pages : List UInt8) :
    (s.blocks pages).flatten =
      s.intro.map .intro ++ itemScreens pages ++ s.terminal.screens := by
  have hintro : (s.intro.map fun screen => [Position.intro screen]).flatten = s.intro.map .intro :=
    List.map_eq_flatMap.symm
  have hdecision : (s.terminal.screens.map fun screen => [screen]).flatten = s.terminal.screens :=
    List.flatMap_singleton' _
  have hitems : (Blocks.ofPages Position.item pages).flatten = itemScreens pages :=
    Blocks.flatten_ofPages Position.item pages
  rw [blocks, List.flatten_append, List.flatten_append, hintro, hdecision, ← hitems]
  rfl

theorem blocks_length (s : Session) (pages : List UInt8) :
    (s.blocks pages).length = s.intro.length + pages.length + s.terminal.decisions := by
  have hdecisions : s.terminal.screens.length = s.terminal.decisions := by
    cases s.terminal <;> rfl
  simp [blocks, hdecisions, Nat.add_assoc]

theorem blocks_intro {screen : IntroScreen} (h : s.intro[i]? = some screen) :
    (s.blocks pages)[i]? = some [.intro screen] := by
  have hlt := (List.getElem?_eq_some_iff.1 h).1
  rw [blocks, List.append_assoc, List.getElem?_append_left (by simpa using hlt),
    List.getElem?_map, h]
  rfl

theorem blocks_item (h : pages[i]? = some count) :
    (s.blocks pages)[s.intro.length + i]? =
      some ((List.range count.toNat).map fun page => .item i.toUInt8 (.ofNat page)) := by
  have hlt := (List.getElem?_eq_some_iff.1 h).1
  rw [blocks, List.append_assoc, List.getElem?_append_right (by simp), List.length_map,
    Nat.add_sub_cancel_left, List.getElem?_append_left (by simpa using hlt)]
  simp [List.getElem?_zipIdx, h]

theorem blocks_decision {screen : Position} (h : s.terminal.screens[i]? = some screen) :
    (s.blocks pages)[s.intro.length + pages.length + i]? = some [screen] := by
  rw [blocks, List.getElem?_append_right (by simp)]
  simp [h]

section

variable {C : Contract config}

theorem screen_intro {screen : IntroScreen} (hspans : s.Spans s.cursor)
    (h : s.intro[s.cursor.item.toNat]? = some screen) : s.screen = .intro screen := by
  obtain ⟨hlt, hscreen⟩ := List.getElem?_eq_some_iff.1 h
  have hterminal : ¬s.isTerminal = true := by
    intro ht
    have := hspans.isTerminal_iff.1 ht
    omega
  rw [Session.screen, if_neg (fun h => hterminal h.2), Engine.topPosition, dif_pos hlt, hscreen]

theorem screen_item (hs : s.Fits C) (hspans : s.Spans s.cursor) (h : s.AtItem s.cursor index) :
    s.screen = .item index s.cursor.page := by
  have hleading := hs.leading
  have hitem := h.1
  have hlt := h.2
  have happrove : s.isApprove = false := by
    simp only [isApprove, approveIndex, Bool.and_eq_false_iff, beq_eq_false_iff_ne]
    exact Or.inr (by omega)
  have hreject : s.isReject = false := by
    simp only [isReject, approveIndex, Bool.and_eq_false_iff, beq_eq_false_iff_ne]
    exact Or.inr (by omega)
  rw [Session.screen, if_neg (fun h' => h.not_isTerminal hspans h'.2), Engine.topPosition,
    dif_neg (by omega), happrove, hreject]
  simp only [Bool.false_eq_true, ↓reduceIte, Position.item.injEq, and_true]
  rw [← UInt8.toNat_inj, diff8_toNat]
  omega

theorem screen_decision (hs : s.Runs C)
    (h : s.intro.length + s.itemCount.toNat ≤ s.cursor.item.toNat) :
    s.terminal.screens[s.cursor.item.toNat - (s.intro.length + s.itemCount.toNat)]? =
      some s.screen := by
  have hleading := hs.fits.leading
  have hlt := hs.spans.item_lt
  have hcount := hs.spans.itemCount
  have hterminal : s.isTerminal = true := hs.spans.isTerminal_iff.2 h
  have hintro : ¬s.cursor.item.toNat < s.intro.length := by omega
  generalize hplace : s.cursor.item.toNat - (s.intro.length + s.itemCount.toNat) = place
  have hitem : s.cursor.item.toNat = s.intro.length + s.itemCount.toNat + place := by omega
  unfold Session.screen Engine.topPosition isApprove isReject approveIndex
  rw [dif_neg hintro, hleading, hitem]
  cases hmode : s.terminal with
  | dedicated =>
    rw [hmode] at hlt
    simp only [TerminalMode.decisions] at hlt
    have : place = 0 := by omega
    subst this
    simp [hterminal, TerminalMode.screens]
  | approveOnly =>
    rw [hmode] at hlt
    simp only [TerminalMode.decisions] at hlt
    have : place = 0 := by omega
    subst this
    simp [TerminalMode.screens]
  | items =>
    rw [hmode] at hlt
    simp only [TerminalMode.decisions] at hlt
    have : place = 0 ∨ place = 1 := by omega
    rcases this with rfl | rfl <;> simp [TerminalMode.screens]

end

theorem Fits.itemCount_eq (hs : s.Fits (Contract.paged config pages title)) :
    s.itemCount.toNat = pages.length := by
  obtain ⟨count, hcount, hlength⟩ := hs.counted
  cases hcount
  exact hlength

theorem AtItem.exists_count (h : s.AtItem c index)
    (hs : s.Fits (Contract.paged config pages title)) :
    ∃ count, pages[index.toNat]? = some count := by
  have hlt := h.2
  rw [hs.itemCount_eq] at hlt
  exact ⟨_, List.getElem?_eq_getElem hlt⟩

theorem AtItem.block (h : s.AtItem c index) (hcount : pages[index.toNat]? = some count) :
    (s.blocks pages)[c.item.toNat]? =
      some ((List.range count.toNat).map fun page => .item index (.ofNat page)) := by
  rw [h.1, blocks_item hcount]
  simp [Nat.toUInt8]

theorem Empty.block (h : s.Empty (Contract.paged config pages title) c)
    (hs : s.Fits (Contract.paged config pages title)) :
    (s.blocks pages)[c.item.toNat]? = some [] := by
  obtain ⟨index, w, hat, hanswer⟩ := h
  obtain ⟨count, hcount⟩ := hat.exists_count hs
  cases hanswer count hcount
  exact hat.block hcount

theorem Rests.block (h : s.Rests (Contract.paged config pages title) c s.cursor w)
    (hs : s.Runs (Contract.paged config pages title)) :
    ∃ b, (s.blocks pages)[s.cursor.item.toNat]? = some b ∧
      b.length = s.cursor.pageCount.toNat ∧ b[s.cursor.page.toNat]? = some s.screen := by
  generalize hd : s.cursor = d at h
  cases h with
  | @intro screen f hscreen htext =>
    have hscreen' : s.intro[s.cursor.item.toNat]? = some screen := by rw [hd]; exact hscreen
    refine ⟨[.intro screen], blocks_intro hscreen, rfl, ?_⟩
    rw [screen_intro hs.spans hscreen']
    rfl
  | @item index d w hat hturn =>
    have hat' : s.AtItem d index := ⟨by rw [hturn.item]; exact hat.1, hat.2⟩
    obtain ⟨count, hcount⟩ := hat'.exists_count hs.fits
    have hpage := UInt8.lt_iff_toNat_lt.1 hturn.page_lt
    cases hturn.answered count hcount
    refine ⟨_, hat'.block hcount, by simp, ?_⟩
    rw [← hd] at hpage hat' ⊢
    rw [screen_item hs.fits hs.spans hat', List.getElem?_map, List.getElem?_range hpage]
    simp
  | decision hle =>
    have hle' : s.intro.length + s.itemCount.toNat ≤ s.cursor.item.toNat := by rw [hd]; exact hle
    have hscreen := screen_decision hs hle'
    rw [hd, hs.fits.itemCount_eq] at hscreen
    rw [hs.fits.itemCount_eq] at hle
    refine ⟨[s.screen], ?_, rfl, rfl⟩
    rw [← blocks_decision hscreen]
    congr 1
    simp only
    omega

/-- A cursor rests on its page, or else on the last of its block. -/
theorem Rests.turns_block (h : s.Rests (Contract.paged config pages title) c d w)
    (hs : s.Fits (Contract.paged config pages title)) (hc : s.Spans c) :
    Blocks.Turns (s.blocks pages) c d := by
  cases h with
  | intro hscreen => exact Blocks.turns_single (blocks_intro hscreen)
  | @item index _ _ hat hturn =>
    obtain ⟨count, hcount⟩ := hat.exists_count hs
    have hpages : ∀ page n w, (Contract.paged config pages title).item index page (.ok n) w →
        n = count := by
      intro page n w hanswer
      cases hanswer count hcount
      rfl
    obtain ⟨hlength, hpage⟩ := hturn.page_eq hpages
    refine ⟨hturn.item, hturn.itemCount, _, hat.block hcount, by simp [hlength], ?_⟩
    simpa [UInt8.lt_iff_toNat_lt, UInt8.le_iff_toNat_le] using hpage
  | decision hle =>
    have hlt := hc.item_lt
    have hcount := hc.itemCount
    rw [hs.itemCount_eq] at hle hcount
    have hplace : c.item.toNat - (s.intro.length + pages.length) < s.terminal.screens.length := by
      have : s.terminal.screens.length = s.terminal.decisions := by cases s.terminal <;> rfl
      omega
    have hsplit : c.item.toNat = s.intro.length + pages.length +
        (c.item.toNat - (s.intro.length + pages.length)) := by omega
    obtain ⟨screen, hscreen⟩ : ∃ screen, s.terminal.screens[c.item.toNat -
        (s.intro.length + pages.length)]? = some screen := ⟨_, List.getElem?_eq_getElem hplace⟩
    have hblock : (s.blocks pages)[s.intro.length + pages.length + (c.item.toNat -
        (s.intro.length + pages.length))]? = some [screen] := blocks_decision hscreen
    rw [← hsplit] at hblock
    exact Blocks.turns_single hblock

theorem passes_block {c' : Cursor}
    (h : Cursor.Passes (s.Empty (Contract.paged config pages title)) dir c c')
    (hs : s.Fits (Contract.paged config pages title)) :
    Cursor.Passes (Blocks.Blank (s.blocks pages)) dir c c' :=
  h.imp fun _ _ _ hempty => hempty.block hs

theorem Lands.comes (h : s.Lands (Contract.paged config pages title) dir c d w)
    (hs : s.Fits (Contract.paged config pages title)) (hc : s.Spans c) :
    Blocks.Comes (s.blocks pages) dir c d := by
  obtain ⟨c', hpass, hrest⟩ := h
  exact ⟨c', passes_block hpass hs, hrest.turns_block hs (Passes.spans hpass hc)⟩

def rank (s : Session) (pages : List UInt8) (c : Cursor) : Nat :=
  Blocks.offset (s.blocks pages) c.item.toNat + c.page.toNat

theorem Shows.screen (h : s.Shows (Contract.paged config pages title) f)
    (hs : s.Runs (Contract.paged config pages title)) :
    (s.blocks pages).flatten[s.rank pages s.cursor]? = some s.screen := by
  obtain ⟨c, w, hrest, -⟩ := h
  obtain ⟨b, hb, hlength, hpage⟩ := hrest.block hs
  have hlt := UInt8.lt_iff_toNat_lt.1 hrest.page_lt
  rw [rank, Blocks.getElem?_flatten hb (by omega), hpage]

/-- A session that shows a screen is on a block with as many screens as its item has pages. -/
theorem Shows.on (h : s.Shows (Contract.paged config pages title) f)
    (hs : s.Runs (Contract.paged config pages title)) : Blocks.On (s.blocks pages) s.cursor := by
  obtain ⟨c, w, hrest, -⟩ := h
  obtain ⟨b, hb, hlength, -⟩ := hrest.block hs
  refine ⟨b, hb, hlength, ?_⟩
  rw [hlength]
  exact UInt8.lt_iff_toNat_lt.1 hrest.page_lt

theorem Lands.rank_of_lt (h : s.Lands (Contract.paged config pages title) dir c d w)
    (hs : s.Runs (Contract.paged config pages title))
    (hshows : s.Shows (Contract.paged config pages title) f) (hc : c.item = s.cursor.item)
    (hcount : c.itemCount = s.cursor.itemCount) (hpage : c.page < s.cursor.pageCount) :
    s.rank pages d = s.rank pages c := by
  obtain ⟨b, hb, hlength, -⟩ := hshows.on hs
  have hspans : s.Spans c :=
    ⟨by rw [hcount]; exact hs.spans.itemCount, by rw [hc, hcount]; exact hs.spans.item_lt⟩
  rw [← hc] at hb
  refine (h.comes hs.fits hspans).rank_of_lt hb ?_
  rw [hlength]
  exact UInt8.lt_iff_toNat_lt.1 hpage

/-- Going forward from the near end of a place, a session comes to the first screen from there. -/
theorem Lands.rank_near (h : s.Lands (Contract.paged config pages title) .forward c d w)
    (hs : s.Fits (Contract.paged config pages title)) (hc : s.Spans c) (hpage : c.page = 0) :
    s.rank pages d = s.rank pages c :=
  (h.comes hs hc).rank_near hpage

end Session

namespace Engine

variable {C : Contract config} {e : Engine} {s : Session}

theorem position_showing (e : Engine) (s : Session) (f : Field) :
    ({ e with state := .review }.showing s f).position = s.screen := by
  by_cases h : s.terminal = .dedicated ∧ s.isTerminal = true
  · rw [showing_of_dedicated h.2 h.1, Session.screen, if_pos h]
    rfl
  · rw [showing, if_neg h, Session.screen, if_neg h]
    rfl

theorem Sound.position_eq (he : Sound C e) (hs : e.session = some s)
    (hstate : e.state = .review ∨ e.state = .confirm) : e.position = s.screen := by
  rcases hstate with hstate | hstate
  · obtain ⟨s', hs', -, hopen, -⟩ := he.review hstate
    cases hs.symm.trans hs'
    rw [position, hstate, hs, Session.screen, if_neg hopen]
  · obtain ⟨s', hs', -, hded, ht, -⟩ := he.confirm hstate
    cases hs.symm.trans hs'
    rw [position, hstate, hs, Session.screen, if_pos ⟨hded, ht⟩]

end Engine
end WalletReview
