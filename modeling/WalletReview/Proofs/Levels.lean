import WalletReview.Proofs.OnScreen
import WalletReview.Proofs.Paths

/-! The list of the screens of a level of an inspection, for children with fixed page counts. As in
the list of a review, each place of the cursor is a block: one of a single screen for each of the
two that lead away, and one of its pages for each child. -/
namespace WalletReview

open Engine (Direction)

variable {σ : Type} {config : Config} {C : Contract config} {x : Content}

namespace Content

variable {path : List UInt8} {layout : InspectLayout} {child : UInt8}

def childLayout (x : Content) (path : List UInt8) : List UInt8 :=
  (List.range (x.childCount path).toNat).map fun child => x.childPages path child.toUInt8

def childScreens (x : Content) (path : List UInt8) : List Position :=
  (Walk.expectedPages (x.childLayout path)).map fun (child, page) =>
    .child (path.length - 1).toUInt8 child page

def level (x : Content) (path : List UInt8) : InspectLayout → List Position
  | .native => x.childScreens path
  | .bracketed => [.goToRoot] ++ x.childScreens path ++ [.back]

/-- The level at the end of a path has a screen, and no more places than can be numbered. -/
def Listed (x : Content) (path : List UInt8) : InspectLayout → Prop
  | .native => ∃ child, child < x.childCount path ∧ x.childPages path child ≠ 0
  | .bracketed => (x.childCount path).toNat ≤ 253

def childBlock (x : Content) (path : List UInt8) (child : UInt8) : List Position :=
  (List.range (x.childPages path child).toNat).map fun page =>
    .child (path.length - 1).toUInt8 child (.ofNat page)

def childBlocks (x : Content) (path : List UInt8) : List (List Position) :=
  Blocks.ofPages (Position.child (path.length - 1).toUInt8) (x.childLayout path)

def blocks (x : Content) (path : List UInt8) : InspectLayout → List (List Position)
  | .native => x.childBlocks path
  | .bracketed => [.goToRoot] :: (x.childBlocks path ++ [[.back]])

theorem flatten_blocks (x : Content) (path : List UInt8) (layout : InspectLayout) :
    (x.blocks path layout).flatten = x.level path layout := by
  have hchildren : (x.childBlocks path).flatten = x.childScreens path := Blocks.flatten_ofPages _ _
  cases layout with
  | native => exact hchildren
  | bracketed => simp [blocks, level, hchildren]

theorem nodup_level (x : Content) (path : List UInt8) (layout : InspectLayout) :
    (x.level path layout).Nodup := by
  have hlength : (x.childLayout path).length ≤ 256 := by
    rw [childLayout, List.length_map, List.length_range]
    exact Nat.le_of_lt (x.childCount path).toNat_lt
  have hchildren : (x.childScreens path).Nodup := by
    rw [childScreens, ← Blocks.flatten_ofPages]
    refine Blocks.nodup_flatten_ofPages hlength fun i p j q h => ?_
    cases h
    exact ⟨rfl, rfl⟩
  cases layout with
  | native => exact hchildren
  | bracketed =>
    have hroot : .goToRoot ∉ x.childScreens path := by simp [childScreens]
    have hback : .back ∉ x.childScreens path := by simp [childScreens]
    have hlast : ∀ screen ∈ [.goToRoot] ++ x.childScreens path, ∀ last ∈ [Position.back],
        screen ≠ last := by
      rintro screen hscreen last hlast rfl
      rw [List.mem_singleton.1 hlast, List.singleton_append, List.mem_cons] at hscreen
      rcases hscreen with h | h
      · cases h
      · exact hback h
    exact List.nodup_append.2
      ⟨List.nodup_cons.2 ⟨hroot, hchildren⟩, by simp, hlast⟩

theorem length_childBlocks (x : Content) (path : List UInt8) :
    (x.childBlocks path).length = (x.childCount path).toNat := by
  rw [childBlocks, Blocks.length_ofPages, childLayout, List.length_map, List.length_range]

theorem length_blocks (x : Content) (path : List UInt8) (layout : InspectLayout) :
    (x.blocks path layout).length = (x.childCount path).toNat + layout.extra.toNat := by
  cases layout with
  | native => exact x.length_childBlocks path
  | bracketed => simp [blocks, length_childBlocks, InspectLayout.extra]

theorem getElem?_childBlocks (h : child < x.childCount path) :
    (x.childBlocks path)[child.toNat]? = some (x.childBlock path child) := by
  have hlt := UInt8.lt_iff_toNat_lt.1 h
  have hcount : (x.childLayout path)[child.toNat]? = some (x.childPages path child) := by
    simp [childLayout, hlt, Nat.toUInt8]
  rw [childBlocks, Blocks.getElem?_ofPages _ hcount]
  simp [childBlock, Nat.toUInt8]

theorem getElem?_blocks_child (layout : InspectLayout) (h : child < x.childCount path) :
    (x.blocks path layout)[child.toNat + layout.extra.toNat / 2]? =
      some (x.childBlock path child) := by
  have hblock := getElem?_childBlocks h
  have hlt := (List.getElem?_eq_some_iff.1 hblock).1
  cases layout with
  | native => exact hblock
  | bracketed =>
    change ([Position.goToRoot] :: (x.childBlocks path ++ [[.back]]))[child.toNat + 1]? = _
    rw [List.getElem?_cons_succ, List.getElem?_append_left hlt, hblock]

theorem childBlock_eq_nil_iff : x.childBlock path child = [] ↔ x.childPages path child = 0 := by
  rw [childBlock, List.map_eq_nil_iff, List.range_eq_nil, ← UInt8.toNat_inj]
  rfl

theorem Listed.exists_block (h : x.Listed path layout) :
    ∃ (k : Nat) (b : List Position), (x.blocks path layout)[k]? = some b ∧ b ≠ [] := by
  cases layout with
  | bracketed => exact ⟨0, [.goToRoot], rfl, List.cons_ne_nil _ _⟩
  | native =>
    obtain ⟨child, hlt, hpages⟩ := h
    exact ⟨_, _, getElem?_blocks_child .native hlt,
      fun hnil => hpages (childBlock_eq_nil_iff.1 hnil)⟩

theorem Listed.count_le (h : x.Listed path layout) :
    (x.childCount path).toNat + layout.extra.toNat ≤ 255 ∧
      0 < (x.childCount path).toNat + layout.extra.toNat := by
  cases layout with
  | bracketed => exact ⟨Nat.add_le_add_right h 2, Nat.succ_pos _⟩
  | native =>
    obtain ⟨child, hlt, -⟩ := h
    have hcount := (x.childCount path).toNat_lt
    rw [UInt8.lt_iff_toNat_lt] at hlt
    exact ⟨Nat.le_of_lt_succ hcount, Nat.zero_lt_of_lt hlt⟩

end Content

/-- The contract allows no other counts of children and of their pages than the content has. -/
structure Contract.Counts (C : Contract config) (x : Content) : Prop where
  childCount : ∀ path count, C.childCount path (.ok count) → count = x.childCount path
  child : ∀ path child page pages w, C.child path child page (.ok pages) w →
    pages = x.childPages path child

namespace Inspection

variable {i j : Inspection} {root child : UInt8} {c d : Cursor} {f w : Field} {dir : Direction}
  {b : List Position}

def blocks (i : Inspection) (x : Content) : List (List Position) := x.blocks i.chain i.layout

structure Spans (x : Content) (i : Inspection) (c : Cursor) : Prop where
  itemCount : c.itemCount.toNat = (x.childCount i.chain).toNat + i.layout.extra.toNat
  item_lt : c.item.toNat < c.itemCount.toNat

inductive Place (x : Content) (i : Inspection) : List Position → Prop
  | goToRoot : i.isGoToRoot = true → i.isBack = false → i.childIndex = none →
    Place x i [.goToRoot]
  | back : i.isGoToRoot = false → i.isBack = true → i.childIndex = none → Place x i [.back]
  | child {child : UInt8} : (i.isGoToRoot || i.isBack) = false → i.childIndex = some child →
    child < x.childCount i.chain → Place x i (x.childBlock i.chain child)

theorem isBack_eq (hlayout : i.layout = .bracketed) (hpos : 0 < i.cursor.itemCount.toNat) :
    i.isBack = decide (i.cursor.item.toNat + 1 = i.cursor.itemCount.toNat) := by
  have hone := one_le_byte.2 hpos
  have hdiff := diff8_one hone
  simp only [isBack, hone, ↓reduceDIte, hlayout, BEq.rfl, Bool.true_and]
  rw [Bool.beq_eq_decide_eq]
  refine decide_eq_decide.2 ?_
  rw [← UInt8.toNat_inj]
  omega

theorem Spans.place_native (h : i.Spans x i.cursor) (hlayout : i.layout = .native) :
    ∃ b, (i.blocks x)[i.cursor.item.toNat]? = some b ∧ i.Place x b := by
  have hlt := h.item_lt
  have hchild : i.cursor.item < x.childCount i.chain := by
    have hcount := h.itemCount
    rw [hlayout] at hcount
    rw [UInt8.lt_iff_toNat_lt]
    exact Nat.lt_of_lt_of_eq hlt hcount
  refine ⟨x.childBlock i.chain i.cursor.item, ?_, .child ?_ ?_ hchild⟩
  · rw [Inspection.blocks, hlayout]
    exact Content.getElem?_blocks_child .native hchild
  · simp [isGoToRoot, isBack, hlayout]
  · simp [childIndex, hlayout, UInt8.lt_iff_toNat_lt.2 hlt]

theorem Spans.place_bracketed (h : i.Spans x i.cursor) (hlayout : i.layout = .bracketed) :
    ∃ b, (i.blocks x)[i.cursor.item.toNat]? = some b ∧ i.Place x b := by
  have hlt := h.item_lt
  have hcount := h.itemCount
  have hback := isBack_eq hlayout (Nat.zero_lt_of_lt hlt)
  simp only [hlayout, InspectLayout.extra, UInt8.reduceToNat] at hcount
  rw [Inspection.blocks, hlayout]
  by_cases hzero : i.cursor.item = 0
  · have hfirst : i.cursor.item.toNat = 0 := by rw [hzero]; rfl
    have hnot : i.isBack = false := by
      rw [hback, decide_eq_false_iff_not]
      omega
    refine ⟨[.goToRoot], by rw [hfirst]; rfl, .goToRoot ?_ hnot ?_⟩
    · simp [isGoToRoot, hlayout, hzero]
    · simp [childIndex, hlayout, hnot, hzero]
  · have hpos : 1 ≤ i.cursor.item :=
      Decidable.byContradiction fun hnone => hzero (byte_eq_zero hnone)
    have hpred := diff8_one hpos
    have hroot : i.isGoToRoot = false := by simp [isGoToRoot, hlayout, hzero]
    by_cases hlast : i.cursor.item.toNat + 1 = i.cursor.itemCount.toNat
    · have hisBack : i.isBack = true := by rw [hback, decide_eq_true hlast]
      refine ⟨[.back], ?_, .back hroot hisBack ?_⟩
      · have hend : (diff8 i.cursor.item 1 hpos).toNat = (x.childBlocks i.chain).length := by
          rw [x.length_childBlocks]
          omega
        rw [Content.blocks, ← hpred, List.getElem?_cons_succ, hend, List.getElem?_concat_length]
      · simp [childIndex, hlayout, hisBack]
    · have hnot : i.isBack = false := by rw [hback, decide_eq_false hlast]
      have hchild : diff8 i.cursor.item 1 hpos < x.childCount i.chain :=
        UInt8.lt_iff_toNat_lt.2 (by omega)
      refine ⟨_, ?_, .child (by rw [hroot, hnot]; rfl) ?_ hchild⟩
      · rw [← hpred]
        exact Content.getElem?_blocks_child .bracketed hchild
      · simp [childIndex, hlayout, hnot, hpos]

theorem Spans.place (h : i.Spans x i.cursor) :
    ∃ b, (i.blocks x)[i.cursor.item.toNat]? = some b ∧ i.Place x b := by
  cases hlayout : i.layout with
  | native => exact h.place_native hlayout
  | bracketed => exact h.place_bracketed hlayout

theorem Spans.withCursor (h : i.Spans x d) (c : Cursor) : Spans x { i with cursor := c } d :=
  ⟨h.itemCount, h.item_lt⟩

theorem Empty.blank (h : i.Empty C c) (hC : C.Counts x) (hc : i.Spans x c) :
    Blocks.Blank (i.blocks x) c := by
  obtain ⟨child, w, hchild, hanswer⟩ := h
  obtain ⟨b, hb, hplace⟩ := (hc.withCursor c).place
  cases hplace with
  | goToRoot _ _ hnone => cases hchild.symm.trans hnone
  | back _ _ hnone => cases hchild.symm.trans hnone
  | child _ hchild' _ =>
    cases hchild.symm.trans hchild'
    have hzero := (hC.child _ _ _ _ _ hanswer).symm
    exact hb.trans (congrArg some (Content.childBlock_eq_nil_iff.2 hzero))

theorem Rests.turns_block (h : i.Rests C c d w) (hC : C.Counts x) (hc : i.Spans x c) :
    Blocks.Turns (i.blocks x) c d := by
  obtain ⟨b, hb, hplace⟩ := (hc.withCursor c).place
  cases h with
  | marker hmarker =>
    cases hplace with
    | goToRoot => exact Blocks.turns_single hb
    | back => exact Blocks.turns_single hb
    | child hnot => cases hmarker.symm.trans hnot
  | vacant hmarker hnone =>
    cases hplace with
    | goToRoot hroot hback => simp [hroot] at hmarker
    | back hroot hback => simp [hback] at hmarker
    | child _ hchild => cases hchild.symm.trans hnone
  | child hmarker hchild hturn =>
    cases hplace with
    | goToRoot hroot hback => simp [hroot] at hmarker
    | back hroot hback => simp [hback] at hmarker
    | child _ hchild' _ =>
      cases hchild.symm.trans hchild'
      obtain ⟨hlength, hpage⟩ := hturn.page_eq fun page n w => hC.child _ _ page n w
      have hb : (i.blocks x)[c.item.toNat]? = some (x.childBlock i.chain _) := hb
      refine ⟨hturn.item, hturn.itemCount, _, hb, by simp [Content.childBlock, hlength], ?_⟩
      simpa [Content.childBlock, UInt8.lt_iff_toNat_lt, UInt8.le_iff_toNat_le] using hpage

theorem Spans.of_within (h : i.Spans x c) (hcount : d.itemCount = c.itemCount) (hd : d.Within) :
    i.Spans x d := by
  have hlt := h.item_lt
  rw [Cursor.Within, hcount] at hd
  refine ⟨by rw [hcount]; exact h.itemCount, ?_⟩
  rw [hcount]
  omega

theorem Spans.of_steps (h : i.Spans x c) (hstep : c.Steps 0 dir d) : i.Spans x d := by
  have hlt := h.item_lt
  refine ⟨by rw [hstep.itemCount]; exact h.itemCount, ?_⟩
  rw [hstep.itemCount]
  cases hstep with
  | page => exact hlt
  | item _ _ hnext => exact hnext
  | pageBack => exact hlt
  | itemBack _ hnext => exact Nat.lt_trans (by simp only; omega) hlt

theorem Spans.passes (hc : i.Spans x c) (hd : i.Spans x d) (hC : C.Counts x)
    (h : Cursor.Passes (i.Empty C) dir c d) :
    Cursor.Passes (Blocks.Blank (i.blocks x)) dir c d := by
  refine h.imp fun e hcount hbetween hempty => hempty.blank hC ?_
  have hlt := hc.item_lt
  have hlt' := hd.item_lt
  rw [h.itemCount] at hlt'
  exact ⟨by rw [hcount]; exact hc.itemCount, by rw [hcount]; omega⟩

theorem Lands.comes (h : i.Lands C dir c d w) (hC : C.Counts x) (hc : i.Spans x c) :
    Blocks.Comes (i.blocks x) dir c d := by
  obtain ⟨c', hpass, hrest, hwithin⟩ := h
  have hc' : i.Spans x c' := hc.of_within hpass.itemCount hwithin
  exact ⟨c', hc.passes hc' hC hpass, hrest.turns_block hC hc'⟩

theorem Misses.spans (h : i.Misses C dir c d w) (hc : i.Spans x c) : i.Spans x d :=
  hc.of_within h.passes.itemCount h.within

/-- Where no child is found on the way forward, there is none from there on. -/
theorem Misses.blank_of_le (h : i.Misses C .forward c d w) (hC : C.Counts x) (hc : i.Spans x c)
    {k : Nat} (hk : c.item.toNat ≤ k) (hb : (i.blocks x)[k]? = some b) : b = [] := by
  have hd := h.spans hc
  have hlast := h.atEnd
  have hlt := (List.getElem?_eq_some_iff.1 hb).1
  have hcount := hd.itemCount
  rw [Inspection.blocks, Content.length_blocks, ← hcount] at hlt
  simp only [Cursor.AtEnd] at hlast
  rcases Nat.lt_or_ge k d.item.toNat with hbefore | hafter
  · obtain ⟨e, he, hblank⟩ := (hc.passes hd hC h.passes).empty_of_between hk hbefore
    rw [Blocks.Blank, he, hb] at hblank
    exact Option.some.inj hblank
  · have hitem : d.item.toNat = k := by
      have := hd.item_lt
      omega
    have hblank := h.blank.empty.blank hC hd
    rw [Blocks.Blank, hitem, hb] at hblank
    exact Option.some.inj hblank

theorem spans_recounted (i : Inspection) (h : x.Listed i.chain i.layout) :
    i.Spans x (i.recounted (x.childCount i.chain)) := by
  obtain ⟨hroom, hpos⟩ := h.count_le
  have hcount := i.recounted_itemCount (x.childCount i.chain)
  have hwithin := i.recounted_within (x.childCount i.chain)
  rw [Cursor.Within] at hwithin
  constructor <;> omega

/-- A cursor in the list stays where it is when the children are counted again. -/
theorem Spans.recounted_eq (h : i.Spans x c) :
    { i with cursor := c }.recounted (x.childCount i.chain) = c := by
  have hcount := h.itemCount
  have hlt := h.item_lt
  have hbyte := c.itemCount.toNat_lt
  have hcounted := { i with cursor := c }.recounted_itemCount (x.childCount i.chain)
  refine recounted_eq_self (UInt8.toNat_inj.1 ?_) ?_
  · simp only at hcounted ⊢
    omega
  · simp only [Cursor.Within]
    omega

theorem recounted_item_le (i : Inspection) (count : UInt8) :
    (i.recounted count).item.toNat ≤ i.cursor.item.toNat := by
  simp only [recounted, Engine.clampItem]
  split
  · split
    · rename_i hone hle
      rw [UInt8.le_iff_toNat_le] at hle
      have := diff8_one hone
      simp only [setChildCount] at *
      omega
    · exact Nat.le_refl _
  · exact Nat.zero_le _

theorem Stands.spans (h : i.Stands C root f) (hC : C.Counts x)
    (hlisted : x.Listed i.chain i.layout) : i.Spans x i.cursor := by
  obtain ⟨count, hcount, hitemCount⟩ := h.counted
  cases hC.childCount _ _ hcount
  exact (i.spans_recounted hlisted).of_within hitemCount h.within

/-- There is a screen of the level under the cursor or after it. -/
def Ahead (x : Content) (i : Inspection) : Prop :=
  ∃ (k : Nat) (b : List Position), i.cursor.item.toNat ≤ k ∧ (i.blocks x)[k]? = some b ∧ b ≠ []

theorem ahead_of_listed (h : x.Listed i.chain i.layout) (hitem : i.cursor.item = 0) :
    i.Ahead x := by
  obtain ⟨k, b, hb, hne⟩ := h.exists_block
  exact ⟨k, b, by rw [hitem]; exact Nat.zero_le _, hb, hne⟩

theorem ahead_of_on (h : Blocks.On (i.blocks x) i.cursor) : i.Ahead x := by
  obtain ⟨b, hb, -, hlt⟩ := h
  exact ⟨_, b, Nat.le_refl _, hb, List.ne_nil_of_length_pos (Nat.zero_lt_of_lt hlt)⟩

theorem ahead_of_ascend (h : i.ascend = .ok (some j)) (hchain : i.chain = j.chain ++ [child])
    (hlt : child < x.childCount j.chain) (hpages : x.childPages j.chain child ≠ 0) :
    j.Ahead x := by
  obtain ⟨child', hchain', -, hlayout, -, hitem⟩ := of_ascend h
  obtain ⟨-, hchild⟩ := List.append_inj' (hchain.symm.trans hchain') rfl
  cases hchild
  refine ⟨_, _, ?_, Content.getElem?_blocks_child _ hlt,
    fun hnil => hpages (Content.childBlock_eq_nil_iff.1 hnil)⟩
  rw [hitem, hlayout]
  cases i.layout <;> exact Nat.le_refl _

/-- Loading forward comes to the next screen, if there is one from the cursor on. -/
theorem Loads.comes (h : i.Loads C j f) (hC : C.Counts x) (hlisted : x.Listed i.chain i.layout)
    (hahead : i.Ahead x) :
    ∃ d, j = { i with cursor := d } ∧
      Blocks.Comes (i.blocks x) .forward (i.recounted (x.childCount i.chain)) d := by
  have hspans := i.spans_recounted hlisted
  obtain ⟨k, b, hk, hb, hne⟩ := hahead
  obtain ⟨count, d, hcount, rfl, w, -, hland | hmiss⟩ := h
  all_goals
    cases hC.childCount _ _ hcount
    refine ⟨d, rfl, ?_⟩
  · exact hland.comes hC hspans
  · have hle := Nat.le_trans (i.recounted_item_le (x.childCount i.chain)) hk
    exact absurd (hmiss.blank_of_le hC hspans hle hb) hne

theorem Loads.eq_of_on (h : i.Loads C j f) (hC : C.Counts x) (hlisted : x.Listed i.chain i.layout)
    (hspans : i.Spans x i.cursor) (hon : Blocks.On (i.blocks x) i.cursor) : j = i := by
  obtain ⟨d, rfl, hcomes⟩ := h.comes hC hlisted (ahead_of_on hon)
  have hsame : i.recounted (x.childCount i.chain) = i.cursor := hspans.recounted_eq
  rw [hsame] at hcomes
  rw [hcomes.eq_of_on hon]

variable {count : UInt8}

/-- A step that lands comes to the screen that follows. -/
theorem Spans.comes_of_step (h : i.Spans x i.cursor) (hC : C.Counts x)
    (hstep : i.cursor.Steps 0 dir c) (hcount : C.childCount i.chain (.ok count))
    (hland : { i with cursor := c }.Lands C dir ({ i with cursor := c }.recounted count) d w) :
    Blocks.Comes (i.blocks x) dir c d := by
  have hc := h.of_steps hstep
  cases hC.childCount _ _ hcount
  rw [hc.recounted_eq] at hland
  exact hland.comes hC (hc.withCursor c)

/-- A step that finds no child starts at the end of the list. -/
theorem Spans.ends_of_misses (h : i.Spans x i.cursor) (hon : Blocks.On (i.blocks x) i.cursor)
    (hC : C.Counts x) (hstep : i.cursor.Steps 0 dir c)
    (hcount : C.childCount i.chain (.ok count))
    (hmiss : { i with cursor := c }.Misses C dir ({ i with cursor := c }.recounted count) d w) :
    Blocks.Ends (x.level i.chain i.layout).length dir (Blocks.rank (i.blocks x) i.cursor) := by
  have hc := h.of_steps hstep
  cases hC.childCount _ _ hcount
  rw [hc.recounted_eq] at hmiss
  have hd : i.Spans x d := hc.of_within hmiss.passes.itemCount hmiss.within
  have hpass := hc.passes hd hC hmiss.passes
  have hblank : Blocks.Blank (i.blocks x) d := hmiss.blank.empty.blank hC (hd.withCursor c)
  have hatEnd := hmiss.atEnd
  rw [← Content.flatten_blocks]
  cases dir with
  | forward =>
    refine hon.rank_last_of_passes hstep hpass hblank ?_
    rw [Inspection.blocks, Content.length_blocks, ← hd.itemCount]
    exact hatEnd
  | backward => exact hon.rank_first_of_passes hstep hpass hblank hatEnd

theorem Spans.ends_of_not_steps (h : i.Spans x i.cursor) (hon : Blocks.On (i.blocks x) i.cursor)
    (hno : ∀ c, ¬i.cursor.Steps 0 dir c) :
    Blocks.Ends (x.level i.chain i.layout).length dir (Blocks.rank (i.blocks x) i.cursor) := by
  have hcount := i.cursor.itemCount.toNat_lt
  have hlength : (i.blocks x).length = i.cursor.itemCount.toNat := by
    rw [Inspection.blocks, Content.length_blocks, h.itemCount]
  rw [← Content.flatten_blocks]
  cases dir with
  | forward => exact hon.rank_last hno (Nat.le_of_eq hlength) (by omega)
  | backward => exact Blocks.rank_first hno

theorem Spans.position (h : i.Spans x i.cursor) (hon : Blocks.On (i.blocks x) i.cursor)
    (hdepth : i.depth.toNat ≤ maxDepth) :
    (x.level i.chain i.layout)[Blocks.rank (i.blocks x) i.cursor]? =
      some (Engine.inspectPosition i) := by
  obtain ⟨b, hb, -, hpage⟩ := hon
  obtain ⟨b', hb', hplace⟩ := h.place
  cases hb.symm.trans hb'
  rw [← Content.flatten_blocks, Blocks.rank]
  refine (Blocks.getElem?_flatten hb hpage).trans ?_
  cases hplace with
  | goToRoot hroot hback hnone =>
    have hzero : i.cursor.page.toNat = 0 := by simpa using hpage
    rw [hzero, Engine.inspectPosition, hnone]
    simp [hroot]
  | back hroot hback hnone =>
    have hzero : i.cursor.page.toNat = 0 := by simpa using hpage
    rw [hzero, Engine.inspectPosition, hnone]
    simp [hroot, hback]
  | @child child hmarker hchild hlt =>
    have hdepth' : (i.chain.length - 1).toUInt8 = i.depth := by
      rw [length_chain hdepth]
      simp [Nat.toUInt8]
    have hpages : i.cursor.page.toNat < (x.childPages i.chain child).toNat := by
      simpa [Content.childBlock] using hpage
    rw [Engine.inspectPosition, hchild]
    simp [Content.childBlock, hpages, hdepth']

structure At (x : Content) (i : Inspection) (k : Nat) : Prop where
  spans : i.Spans x i.cursor
  on : Blocks.On (i.blocks x) i.cursor
  rank : Blocks.rank (i.blocks x) i.cursor = k

theorem At.position {k : Nat} (h : i.At x k) (hdepth : i.depth.toNat ≤ maxDepth) :
    (x.level i.chain i.layout)[k]? = some (Engine.inspectPosition i) := by
  rw [← h.rank]
  exact h.spans.position h.on hdepth

theorem Loads.first (h : i.Loads C j f) (hC : C.Counts x) (hi : i.Fits config root)
    (hlisted : x.Listed i.chain i.layout) (hcursor : i.cursor = .start 0) :
    ∃ d, j = { i with cursor := d } ∧ { i with cursor := d }.At x 0 := by
  have hitem : i.cursor.item = 0 := by rw [hcursor]; rfl
  have hpage : i.cursor.page = 0 := by rw [hcursor]; rfl
  have hstands := h.stands hi (by rw [hcursor]; exact UInt8.zero_lt_one)
  obtain ⟨d, rfl, hcomes⟩ := h.comes hC hlisted (ahead_of_listed hlisted hitem)
  have hle := i.recounted_item_le (x.childCount i.chain)
  rw [hitem] at hle
  refine ⟨d, rfl, hstands.spans hC hlisted, hcomes.on, ?_⟩
  refine (hcomes.rank_near hpage).trans ?_
  rw [Blocks.rank, Nat.le_zero.1 hle, recounted_page, hpage]
  rfl

theorem Loads.position_first (h : i.Loads C j f) (hC : C.Counts x) (hi : i.Fits config root)
    (hlisted : x.Listed i.chain i.layout) (hcursor : i.cursor = .start 0) :
    j.chain = i.chain ∧ (x.level i.chain i.layout)[0]? = some (Engine.inspectPosition j) := by
  obtain ⟨d, rfl, hat⟩ := h.first hC hi hlisted hcursor
  exact ⟨rfl, hat.position hi.depth⟩

theorem Spans.childPages_ne_zero (h : i.Spans x i.cursor)
    (hon : Blocks.On (i.blocks x) i.cursor) (hchild : i.childIndex = some child) :
    child < x.childCount i.chain ∧ x.childPages i.chain child ≠ 0 := by
  obtain ⟨b, hb, hplace⟩ := h.place
  cases hplace with
  | goToRoot _ _ hnone => cases hchild.symm.trans hnone
  | back _ _ hnone => cases hchild.symm.trans hnone
  | child _ hchild' hlt =>
    cases hchild.symm.trans hchild'
    refine ⟨hlt, fun hzero => hon.not_blank ?_⟩
    rw [Blocks.Blank, hb, Content.childBlock_eq_nil_iff.2 hzero]

theorem Spans.childIndex_eq (h : i.Spans x i.cursor) {depth page : UInt8}
    (hposition : Engine.inspectPosition i = .child depth child page) :
    i.childIndex = some child := by
  obtain ⟨b, -, hplace⟩ := h.place
  cases hplace with
  | goToRoot hroot _ hnone => simp [Engine.inspectPosition, hnone, hroot] at hposition
  | back hroot hback hnone => simp [Engine.inspectPosition, hnone, hroot, hback] at hposition
  | child _ hchild _ =>
    rw [Engine.inspectPosition, hchild] at hposition
    cases hposition
    exact hchild

theorem Spans.hasPages (h : i.Spans x i.cursor) (hon : Blocks.On (i.blocks x) i.cursor) :
    x.HasPages i.chain (Engine.inspectPosition i) := by
  obtain ⟨b, -, hplace⟩ := h.place
  rw [Engine.inspectPosition]
  cases hplace with
  | goToRoot hroot _ hnone => simp [hnone, hroot, Content.HasPages]
  | back hroot hback hnone => simp [hnone, hroot, hback, Content.HasPages]
  | child _ hchild _ =>
    rw [hchild]
    exact h.childPages_ne_zero hon hchild

end Inspection
end WalletReview
