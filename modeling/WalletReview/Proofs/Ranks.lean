import WalletReview.Proofs.Passing
import WalletReview.Walk

/-! Blocks of screens in a row, and a cursor on one of the screens. Its rank is the number of
screens before it, so that empty blocks do not count. A step from one screen leads to the one of the
next rank, and there is no screen that it could lead to only at the ends of the row. -/
namespace WalletReview

open Engine (Direction)

theorem Cursor.Passes.imp {empty empty' : Cursor → Prop} {dir : Direction} {c d : Cursor}
    (h : Passes empty dir c d)
    (hempty : ∀ e, e.itemCount = c.itemCount → e.item.toNat ≤ max c.item.toNat d.item.toNat →
      empty e → empty' e) : Passes empty' dir c d := by
  induction h with
  | stay => exact .stay
  | on h hitem hpass ih =>
    have hle := hpass.le_item
    simp only at hle ih
    exact .on (hempty _ rfl (by omega) h) hitem
      (ih fun e hcount hbetween => hempty e hcount (by omega))
  | back h hitem hpass ih =>
    simp only at ih
    exact .back (hempty _ rfl (by omega) h) hitem
      (ih fun e hcount hbetween => hempty e hcount (by omega))

namespace Blocks

variable {α : Type} {blocks : List (List α)} {b : List α} {i j page extra : Nat} {c c' d : Cursor}
  {dir : Direction}

/-- The number of elements before block `j`. -/
def offset (blocks : List (List α)) (j : Nat) : Nat := (blocks.take j).flatten.length

theorem offset_zero : offset blocks 0 = 0 := rfl

theorem offset_succ (h : blocks[j]? = some b) :
    offset blocks (j + 1) = offset blocks j + b.length := by
  rw [offset, List.take_add_one, h]
  simp [offset]

theorem offset_length : offset blocks blocks.length = blocks.flatten.length := by
  rw [offset, List.take_length]

theorem offset_cons (b : List α) (blocks : List (List α)) (j : Nat) :
    offset (b :: blocks) (j + 1) = b.length + offset blocks j := by
  simp [offset]

theorem offset_le (h : i ≤ j) : offset blocks i ≤ offset blocks j := by
  induction j with
  | zero => exact Nat.le_of_eq (by rw [Nat.le_zero.1 h])
  | succ j ih =>
    rcases Nat.lt_or_ge j i with hlt | hge
    · exact Nat.le_of_eq (by rw [Nat.le_antisymm h hlt])
    · refine Nat.le_trans (ih hge) ?_
      cases hb : blocks[j]? with
      | none => simp [offset, List.take_add_one, hb]
      | some b =>
        rw [offset_succ hb]
        exact Nat.le_add_right _ _

theorem offset_eq (hij : i ≤ j) (h : ∀ k, i ≤ k → k < j → blocks[k]? = some []) :
    offset blocks i = offset blocks j := by
  induction j with
  | zero => rw [Nat.le_zero.1 hij]
  | succ j ih =>
    rcases Nat.lt_or_ge j i with hlt | hge
    · rw [Nat.le_antisymm hij hlt]
    · rw [offset_succ (h j hge (Nat.lt_succ_self j)), ih hge fun k hik hkj => h k hik (by omega)]
      rfl

/-- An element of a block, found in the whole list. -/
theorem getElem?_flatten (h : blocks[j]? = some b) (hpage : page < b.length) :
    blocks.flatten[offset blocks j + page]? = b[page]? := by
  induction blocks generalizing j with
  | nil => simp at h
  | cons b' blocks ih =>
    cases j with
    | zero =>
      simp only [List.getElem?_cons_zero, Option.some.injEq] at h
      rw [h, offset_zero, Nat.zero_add, List.flatten_cons, List.getElem?_append_left hpage]
    | succ j =>
      rw [List.getElem?_cons_succ] at h
      rw [offset_cons, List.flatten_cons, Nat.add_assoc, List.getElem?_append_right (by omega),
        Nat.add_sub_cancel_left, ih h]

def ofPages (screen : (index page : UInt8) → α) (pages : List UInt8) : List (List α) :=
  pages.zipIdx.map fun (count, index) =>
    (List.range count.toNat).map fun page => screen index.toUInt8 (.ofNat page)

theorem length_ofPages (screen : (index page : UInt8) → α) (pages : List UInt8) :
    (ofPages screen pages).length = pages.length := by
  simp [ofPages]

theorem flatten_ofPages (screen : (index page : UInt8) → α) (pages : List UInt8) :
    (ofPages screen pages).flatten =
      (Walk.expectedPages pages).map fun (index, page) => screen index page := by
  rw [ofPages, Walk.expectedPages, List.map_flatMap]
  simp only [List.map_map]
  rfl

theorem getElem?_ofPages (screen : (index page : UInt8) → α) {pages : List UInt8} {count : UInt8}
    (h : pages[i]? = some count) : (ofPages screen pages)[i]? =
      some ((List.range count.toNat).map fun page => screen i.toUInt8 (.ofNat page)) := by
  simp [ofPages, List.getElem?_zipIdx, h]

/-- In a row of pages, each has a screen of its own. -/
theorem nodup_flatten_ofPages {screen : (index page : UInt8) → α} {pages : List UInt8}
    (hlength : pages.length ≤ 256)
    (hscreen : ∀ i p j q, screen i p = screen j q → i = j ∧ p = q) :
    (ofPages screen pages).flatten.Nodup := by
  have hne {i j : Nat} (hi : i < 256) (hj : j < 256) (hij : i ≠ j) :
      UInt8.ofNat i ≠ UInt8.ofNat j := by
    intro h
    rw [← UInt8.toNat_inj, UInt8.toNat_ofNat', UInt8.toNat_ofNat', Nat.mod_eq_of_lt hi,
      Nat.mod_eq_of_lt hj] at h
    exact hij h
  rw [List.Nodup, List.pairwise_flatten]
  constructor
  · intro b hb
    simp only [ofPages, List.mem_map, Prod.exists] at hb
    obtain ⟨count, index, -, rfl⟩ := hb
    have hcount := count.toNat_lt
    rw [List.pairwise_map]
    refine List.Pairwise.imp_of_mem (fun {i j} hi hj hij h => ?_) List.nodup_range
    rw [List.mem_range] at hi hj
    exact hne (by omega) (by omega) hij (hscreen _ _ _ _ h).2
  · rw [ofPages, List.pairwise_map, List.pairwise_iff_getElem]
    intro i j hi hj hlt a ha b hb h
    rw [List.length_zipIdx] at hi hj
    simp only [List.getElem_zipIdx, List.mem_map] at ha hb
    obtain ⟨p, -, rfl⟩ := ha
    obtain ⟨q, -, rfl⟩ := hb
    refine hne ?_ ?_ ?_ (hscreen _ _ _ _ h).1 <;> omega

/-- The number of elements before the one under a cursor. -/
def rank (blocks : List (List α)) (c : Cursor) : Nat := offset blocks c.item.toNat + c.page.toNat

def Blank (blocks : List (List α)) (c : Cursor) : Prop := blocks[c.item.toNat]? = some []

/-- The cursor is on an element of a block, with the length of the block for its page count. -/
def On (blocks : List (List α)) (c : Cursor) : Prop :=
  ∃ b, blocks[c.item.toNat]? = some b ∧ b.length = c.pageCount.toNat ∧ c.page.toNat < b.length

/-- A cursor that comes to a block is put on its page, or else on the last of the block. -/
structure Turns (blocks : List (List α)) (c d : Cursor) : Prop where
  item : d.item = c.item
  itemCount : d.itemCount = c.itemCount
  page : ∃ b, blocks[c.item.toNat]? = some b ∧ b.length = d.pageCount.toNat ∧
    (c.page.toNat < b.length ∧ d.page = c.page ∨
      b.length ≤ c.page.toNat ∧ d.page.toNat + 1 = b.length)

theorem turns_single {a : α} (hb : blocks[c.item.toNat]? = some [a]) :
    Turns blocks c ⟨c.item, c.itemCount, 0, 1⟩ := by
  refine ⟨rfl, rfl, [a], hb, rfl, ?_⟩
  rcases Nat.eq_zero_or_pos c.page.toNat with hzero | hpos
  · refine Or.inl ⟨by rw [hzero]; exact Nat.zero_lt_one, ?_⟩
    rw [← UInt8.toNat_inj, hzero]
    rfl
  · exact Or.inr ⟨hpos, rfl⟩

/-- Where a cursor comes to rest in a direction of travel. -/
def Comes (blocks : List (List α)) (dir : Direction) (c d : Cursor) : Prop :=
  ∃ c', Cursor.Passes (Blank blocks) dir c c' ∧ Turns blocks c' d

theorem On.not_blank (h : On blocks c) : ¬Blank blocks c := by
  obtain ⟨b, hb, -, hlt⟩ := h
  intro hblank
  cases hb.symm.trans hblank
  exact Nat.not_lt_zero _ hlt

theorem Turns.on (h : Turns blocks c d) : On blocks d := by
  obtain ⟨b, hb, hlength, hpage⟩ := h.page
  refine ⟨b, by rw [h.item]; exact hb, hlength, ?_⟩
  rcases hpage with ⟨hlt, hpage⟩ | ⟨-, hpage⟩
  · rw [hpage]
    exact hlt
  · omega

theorem Comes.on (h : Comes blocks dir c d) : On blocks d := by
  obtain ⟨c', -, hturn⟩ := h
  exact hturn.on

/-- Going forward, the blocks that are passed do not count. -/
theorem offset_of_passes (h : Cursor.Passes (Blank blocks) .forward c d) :
    offset blocks c.item.toNat = offset blocks d.item.toNat := by
  refine offset_eq h.le_item fun k hk hlt => ?_
  obtain ⟨e, rfl, hblank⟩ := h.empty_of_between hk hlt
  exact hblank

theorem offset_of_passes_back (h : Cursor.Passes (Blank blocks) .backward c d) :
    offset blocks (d.item.toNat + 1) = offset blocks (c.item.toNat + 1) := by
  refine offset_eq (Nat.succ_le_succ h.item_le) fun k hk hlt => ?_
  obtain ⟨e, rfl, hblank⟩ := h.empty_of_between_back (Nat.lt_succ_iff.1 hlt) hk
  exact hblank

namespace Comes

theorem rank_of_lt (h : Comes blocks dir c d) (hb : blocks[c.item.toNat]? = some b)
    (hpage : c.page.toNat < b.length) : rank blocks d = rank blocks c := by
  obtain ⟨c', hpass, hturn⟩ := h
  have hnot : ¬Blank blocks c := by
    intro hblank
    cases hb.symm.trans hblank
    exact Nat.not_lt_zero _ hpage
  cases hpass.eq_of_not_empty hnot
  obtain ⟨b', hb', -, hpage'⟩ := hturn.page
  cases hb.symm.trans hb'
  rcases hpage' with ⟨-, heq⟩ | ⟨hle, -⟩
  · rw [rank, rank, hturn.item, heq]
  · omega

theorem eq_of_on (h : Comes blocks dir c d) (hon : On blocks c) : d = c := by
  obtain ⟨c', hpass, hturn⟩ := h
  cases hpass.eq_of_not_empty hon.not_blank
  obtain ⟨b, hb, hlength, hlt⟩ := hon
  obtain ⟨b', hb', hlength', hpage⟩ := hturn.page
  cases hb.symm.trans hb'
  have hpage' : d.page = c.page := (hpage.resolve_right fun h => by omega).2
  have hpageCount : d.pageCount = c.pageCount := by
    rw [← UInt8.toNat_inj]
    omega
  obtain ⟨item, itemCount, page, pageCount⟩ := d
  cases hturn.item
  cases hturn.itemCount
  cases hpage'
  cases hpageCount
  rfl

/-- From the near end of a place, going forward leads to the first element from there. -/
theorem rank_near (h : Comes blocks .forward c d) (hpage : c.page = 0) :
    rank blocks d = rank blocks c := by
  obtain ⟨c', hpass, hturn⟩ := h
  have hpage' : c'.page = 0 := by
    rcases hpass.page with rfl | ⟨-, hzero⟩
    · exact hpage
    · exact hzero
  obtain ⟨b, hb, -, hrank⟩ := hturn.page
  rw [rank, rank, hturn.item, offset_of_passes hpass, hpage]
  rw [hpage'] at hrank
  rcases hrank with ⟨-, heq⟩ | ⟨hle, hlast⟩
  · rw [heq]
  · simp only [UInt8.reduceToNat] at hle
    omega

theorem rank_far (h : Comes blocks .backward c d) (hpage : c.page = Cursor.lastPage) :
    rank blocks d + 1 = offset blocks (c.item.toNat + 1) := by
  obtain ⟨c', hpass, hturn⟩ := h
  have hpage' : c'.page = Cursor.lastPage := by
    rcases hpass.lastPage with rfl | ⟨-, hlast⟩
    · exact hpage
    · exact hlast
  obtain ⟨b, hb, hlength, hrank⟩ := hturn.page
  have hcount := d.pageCount.toNat_lt
  rw [rank, hturn.item, ← offset_of_passes_back hpass, offset_succ hb]
  rw [hpage', show Cursor.lastPage.toNat = 255 from rfl] at hrank
  omega

/-- A step on leads to the next element. -/
theorem rank_next (h : Comes blocks .forward c' d) (hon : On blocks c)
    (hstep : c.Steps extra .forward c') : rank blocks d = rank blocks c + 1 := by
  obtain ⟨b, hb, hlength, hpage⟩ := hon
  cases hstep with
  | page hnext hlt =>
    rw [UInt8.lt_iff_toNat_lt] at hlt
    rw [h.rank_of_lt hb (by simp only; omega), rank, rank]
    simp only
    omega
  | item hlast hnext _ =>
    rw [h.rank_near rfl, rank, rank]
    simp only [← hnext, offset_succ hb, UInt8.reduceToNat]
    omega

theorem rank_previous (h : Comes blocks .backward c' d) (hon : On blocks c)
    (hstep : c.Steps extra .backward c') : rank blocks d + 1 = rank blocks c := by
  obtain ⟨b, hb, -, hpage⟩ := hon
  cases hstep with
  | pageBack hnext =>
    rw [h.rank_of_lt hb (by simp only; omega), rank, rank]
    simp only
    omega
  | itemBack hzero hnext =>
    rw [h.rank_far rfl, rank, hzero]
    simp only [hnext, UInt8.reduceToNat, Nat.add_zero]

end Comes

theorem On.rank_succ (h : On blocks c) (hlast : c.pageCount.toNat ≤ c.page.toNat + 1) :
    rank blocks c + 1 = offset blocks (c.item.toNat + 1) := by
  obtain ⟨b, hb, hlength, hpage⟩ := h
  rw [rank, offset_succ hb]
  omega

/-- Where no step on can be taken, the row ends. -/
theorem On.rank_last (h : On blocks c) (hno : ∀ d, ¬c.Steps extra .forward d)
    (hlength : blocks.length ≤ c.itemCount.toNat + extra) (hroom : blocks.length ≤ 256) :
    blocks.flatten.length = rank blocks c + 1 := by
  have hlast : c.pageCount.toNat ≤ c.page.toNat + 1 := by
    refine Nat.not_lt.1 fun hlt => ?_
    have hpages := c.pageCount.toNat_lt
    obtain ⟨page, -, hnext⟩ := Checked.add8_one (a := c.page) (by omega)
    exact hno _ (.page hnext (UInt8.lt_iff_toNat_lt.2 (by omega)))
  have hitem : c.item.toNat < blocks.length := by
    obtain ⟨b, hb, -⟩ := h
    exact (List.getElem?_eq_some_iff.1 hb).1
  have hend : c.item.toNat + 1 = blocks.length := by
    refine Decidable.byContradiction fun hne => ?_
    obtain ⟨item, -, hnext⟩ := Checked.add8_one (a := c.item) (by omega)
    exact hno _ (.item hlast hnext (by omega))
  rw [h.rank_succ hlast, hend, offset_length]

theorem rank_first (hno : ∀ d, ¬c.Steps extra .backward d) : rank blocks c = 0 := by
  have hpage : c.page.toNat = 0 := by
    refine Decidable.byContradiction fun hne => ?_
    have hlt := c.page.toNat_lt
    have hnext : (UInt8.ofNat (c.page.toNat - 1)).toNat + 1 = c.page.toNat := by
      rw [UInt8.toNat_ofNat', Nat.mod_eq_of_lt (by omega)]
      omega
    exact hno _ (.pageBack hnext)
  have hitem : c.item.toNat = 0 := by
    refine Decidable.byContradiction fun hne => ?_
    have hlt := c.item.toNat_lt
    have hnext : (UInt8.ofNat (c.item.toNat - 1)).toNat + 1 = c.item.toNat := by
      rw [UInt8.toNat_ofNat', Nat.mod_eq_of_lt (by omega)]
      omega
    exact hno _ (.itemBack (UInt8.toNat_inj.1 hpage) hnext)
  rw [rank, hpage, hitem, offset_zero]

/-- A step on that leads past empty blocks to the end of the row starts on its last element. -/
theorem On.rank_last_of_passes (h : On blocks c) (hstep : c.Steps extra .forward c')
    (hpass : Cursor.Passes (Blank blocks) .forward c' d) (hblank : Blank blocks d)
    (hend : blocks.length ≤ d.item.toNat + 1) : blocks.flatten.length = rank blocks c + 1 := by
  have hlast : d.item.toNat + 1 = blocks.length :=
    Nat.le_antisymm (List.getElem?_eq_some_iff.1 hblank).1 hend
  have hoffset : offset blocks c'.item.toNat = blocks.flatten.length := by
    rw [offset_of_passes hpass, ← offset_length, ← hlast, offset_succ hblank]
    rfl
  cases hstep with
  | page hnext hlt =>
    have hon : ¬Blank blocks c := h.not_blank
    cases hpass.eq_of_not_empty hon
    exact absurd hblank hon
  | item hpages hnext _ =>
    rw [h.rank_succ hpages, hnext]
    exact hoffset.symm

theorem On.rank_first_of_passes (h : On blocks c) (hstep : c.Steps extra .backward c')
    (hpass : Cursor.Passes (Blank blocks) .backward c' d) (hblank : Blank blocks d)
    (hbegin : d.item = 0) : rank blocks c = 0 := by
  have hoffset : offset blocks (c'.item.toNat + 1) = 0 := by
    rw [← offset_of_passes_back hpass, offset_succ hblank, hbegin]
    rfl
  cases hstep with
  | pageBack hnext =>
    have hon : ¬Blank blocks c := h.not_blank
    cases hpass.eq_of_not_empty hon
    exact absurd hblank hon
  | itemBack hzero hnext =>
    simp only [hnext] at hoffset
    rw [rank, hoffset, hzero]
    rfl

/-- The rank that follows in a direction of travel. -/
def Follows : Direction → Nat → Nat → Prop
  | .forward, k, k' => k' = k + 1
  | .backward, k, k' => k' + 1 = k

/-- No rank below `length` follows in a direction of travel. -/
def Ends (length : Nat) : Direction → Nat → Prop
  | .forward, k => length = k + 1
  | .backward, k => k = 0

theorem Comes.follows (h : Comes blocks dir c' d) (hon : On blocks c)
    (hstep : c.Steps extra dir c') : Follows dir (rank blocks c) (rank blocks d) := by
  cases dir with
  | forward => exact h.rank_next hon hstep
  | backward => exact h.rank_previous hon hstep

end Blocks
end WalletReview
