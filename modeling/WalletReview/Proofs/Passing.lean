import WalletReview.Proofs.Contract
import WalletReview.Engine.Inspect

/-! What happens to a cursor, for items and for children alike. It takes a step; while a screen is
loaded it passes over places without pages in its direction of travel, and on the place where it
ends it turns to a page that there is. -/
namespace WalletReview

open Engine (Direction)

theorem Checked.ok_bind {α β : Type} (a : α) (f : α → Checked β) : Except.ok a >>= f = f a := rfl

theorem Checked.add8_one {a : UInt8} (h : a.toNat < 255) :
    ∃ b, add8 a 1 = .ok b ∧ a.toNat + 1 = b.toNat := by
  have hb : a.toNat + 1 = (UInt8.ofNat (a.toNat + 1)).toNat := by
    rw [UInt8.toNat_ofNat', Nat.mod_eq_of_lt (by omega)]
  exact ⟨_, add8_eq_ok_iff.2 hb, hb⟩

theorem one_le_byte {a : UInt8} : 1 ≤ a ↔ 0 < a.toNat := by
  rw [UInt8.le_iff_toNat_le]
  exact Iff.rfl

theorem diff8_one {a : UInt8} (h : 1 ≤ a) : (diff8 a 1 h).toNat + 1 = a.toNat := by
  have hpos := one_le_byte.1 h
  simp only [diff8_toNat, UInt8.reduceToNat]
  omega

theorem byte_eq_zero {a : UInt8} (h : ¬1 ≤ a) : a = 0 := by
  rw [one_le_byte] at h
  rw [← UInt8.toNat_inj]
  simpa using h

namespace Cursor

inductive Passes (empty : Cursor → Prop) : Direction → Cursor → Cursor → Prop
  | stay {dir : Direction} {c : Cursor} : Passes empty dir c c
  | on {c d : Cursor} {item : UInt8} : empty c → c.item.toNat + 1 = item.toNat →
    Passes empty .forward { c with item, page := 0 } d → Passes empty .forward c d
  | back {c d : Cursor} {item : UInt8} : empty c → item.toNat + 1 = c.item.toNat →
    Passes empty .backward { c with item, page := lastPage } d → Passes empty .backward c d

variable {empty : Cursor → Prop} {dir : Direction} {c d : Cursor}

namespace Passes

theorem itemCount (h : Passes empty dir c d) : d.itemCount = c.itemCount := by
  induction h with
  | stay => rfl
  | on _ _ _ ih => exact ih
  | back _ _ _ ih => exact ih

theorem eq_of_not_empty (h : Passes empty dir c d) (hc : ¬empty c) : d = c := by
  cases h with
  | stay => rfl
  | on hempty => exact absurd hempty hc
  | back hempty => exact absurd hempty hc

theorem pageCount (h : Passes empty dir c d) : d.pageCount = c.pageCount := by
  induction h with
  | stay => rfl
  | on _ _ _ ih => exact ih
  | back _ _ _ ih => exact ih

theorem le_item (h : Passes empty .forward c d) : c.item.toNat ≤ d.item.toNat := by
  generalize hdir : Direction.forward = dir at h
  induction h with
  | stay => exact Nat.le_refl _
  | on _ hitem _ ih =>
    have := ih hdir
    simp only at this
    omega
  | back => cases hdir

theorem item_le (h : Passes empty .backward c d) : d.item.toNat ≤ c.item.toNat := by
  generalize hdir : Direction.backward = dir at h
  induction h with
  | stay => exact Nat.le_refl _
  | on => cases hdir
  | back _ hitem _ ih =>
    have := ih hdir
    simp only at this
    omega

theorem page (h : Passes empty .forward c d) :
    d = c ∨ c.item.toNat < d.item.toNat ∧ d.page = 0 := by
  generalize hdir : Direction.forward = dir at h
  induction h with
  | stay => exact Or.inl rfl
  | on _ hitem _ ih =>
    right
    rcases ih hdir with rfl | ⟨hlt, hpage⟩
    · exact ⟨by simp only; omega, rfl⟩
    · simp only at hlt
      exact ⟨by omega, hpage⟩
  | back => cases hdir

theorem lastPage (h : Passes empty .backward c d) :
    d = c ∨ d.item.toNat < c.item.toNat ∧ d.page = Cursor.lastPage := by
  generalize hdir : Direction.backward = dir at h
  induction h with
  | stay => exact Or.inl rfl
  | on => cases hdir
  | back _ hitem _ ih =>
    right
    rcases ih hdir with rfl | ⟨hlt, hpage⟩
    · exact ⟨by simp only; omega, rfl⟩
    · simp only at hlt
      exact ⟨by omega, hpage⟩

theorem empty_of_between (h : Passes empty .forward c d) {place : Nat}
    (hc : c.item.toNat ≤ place) (hd : place < d.item.toNat) :
    ∃ e, e.item.toNat = place ∧ empty e := by
  generalize hdir : Direction.forward = dir at h
  induction h with
  | stay => omega
  | @on c d item hempty hitem _ ih =>
    rcases Nat.eq_or_lt_of_le hc with heq | hlt
    · exact ⟨c, heq, hempty⟩
    · exact ih (by simp only; omega) hd hdir
  | back => cases hdir

theorem empty_of_between_back (h : Passes empty .backward c d) {place : Nat}
    (hc : place ≤ c.item.toNat) (hd : d.item.toNat < place) :
    ∃ e, e.item.toNat = place ∧ empty e := by
  generalize hdir : Direction.backward = dir at h
  induction h with
  | stay => omega
  | on => cases hdir
  | @back c d item hempty hitem _ ih =>
    rcases Nat.eq_or_lt_of_le hc with heq | hlt
    · exact ⟨c, heq.symm, hempty⟩
    · exact ih (by simp only; omega) hd hdir

end Passes

/-- From a cursor to one on a page that there is. The first answer tells how many pages there are; a
cursor beyond them is put on the last, which is then asked for and has to be there still. -/
inductive Turns (answer : (page : UInt8) → Except Error UInt8 → Field → Prop) (c : Cursor) :
    Cursor → Field → Prop
  | within {pages : UInt8} {w : Field} : answer c.page (.ok pages) w → c.page < pages →
    Turns answer c { c with pageCount := pages } w
  | beyond {pages page last : UInt8} {w w' : Field} : answer c.page (.ok pages) w' →
    pages ≤ c.page → page.toNat + 1 = pages.toNat → answer page (.ok last) w → page < last →
    Turns answer c { c with page, pageCount := last } w

namespace Turns

variable {answer : (page : UInt8) → Except Error UInt8 → Field → Prop} {w : Field}

theorem item (h : Turns answer c d w) : d.item = c.item := by
  cases h <;> rfl

theorem itemCount (h : Turns answer c d w) : d.itemCount = c.itemCount := by
  cases h <;> rfl

theorem page_lt (h : Turns answer c d w) : d.page < d.pageCount := by
  cases h with
  | within _ hlt => exact hlt
  | beyond _ _ _ _ hlt => exact hlt

theorem page_le (h : Turns answer c d w) : d.page.toNat ≤ c.page.toNat := by
  cases h with
  | within _ hlt => exact Nat.le_refl _
  | beyond _ hle hpage _ _ =>
    have := UInt8.le_iff_toNat_le.1 hle
    simp only
    omega

theorem answered (h : Turns answer c d w) : answer d.page (.ok d.pageCount) w := by
  cases h with
  | within hw _ => exact hw
  | beyond _ _ _ hw _ => exact hw

/-- If the place has one page count, the cursor keeps its page, or comes to the last one. -/
theorem page_eq (h : Turns answer c d w) {pages : UInt8}
    (hpages : ∀ page n w, answer page (.ok n) w → n = pages) :
    d.pageCount = pages ∧ (c.page < pages ∧ d.page = c.page ∨
      pages ≤ c.page ∧ d.page.toNat + 1 = pages.toNat) := by
  cases h with
  | within hw hlt =>
    obtain rfl := hpages _ _ _ hw
    exact ⟨rfl, Or.inl ⟨hlt, rfl⟩⟩
  | beyond hw hle hpage hw' _ =>
    obtain rfl := hpages _ _ _ hw
    exact ⟨hpages _ _ _ hw', Or.inr ⟨hle, hpage⟩⟩

end Turns

/-- One step from a cursor, where `extra` places follow the last item. -/
inductive Steps (extra : Nat) (c : Cursor) : Direction → Cursor → Prop
  | page {page : UInt8} : c.page.toNat + 1 = page.toNat → page < c.pageCount →
    Steps extra c .forward { c with page }
  | item {item : UInt8} : c.pageCount.toNat ≤ c.page.toNat + 1 → c.item.toNat + 1 = item.toNat →
    item.toNat < c.itemCount.toNat + extra → Steps extra c .forward { c with item, page := 0 }
  | pageBack {page : UInt8} : page.toNat + 1 = c.page.toNat →
      Steps extra c .backward { c with page }
  | itemBack {item : UInt8} : c.page = 0 → item.toNat + 1 = c.item.toNat →
    Steps extra c .backward { c with item, page := lastPage }

variable {extra : UInt8}

theorem Steps.mono {extra extra' : Nat} (h : c.Steps extra dir d) (hle : extra ≤ extra') :
    c.Steps extra' dir d := by
  cases h with
  | page hnext hlt => exact .page hnext hlt
  | item hlast hnext hlt => exact .item hlast hnext (by omega)
  | pageBack hnext => exact .pageBack hnext
  | itemBack hzero hnext => exact .itemBack hzero hnext

theorem Steps.itemCount {extra : Nat} (h : c.Steps extra dir d) : d.itemCount = c.itemCount := by
  cases h <;> rfl

theorem stepped_of_advance (hcan : c.canAdvance extra = true) (hadvance : c.advance extra = .ok d) :
    Engine.stepped c extra .forward = .ok (some d) := by
  rw [Engine.stepped, if_pos hcan, hadvance]
  rfl

theorem stepped_forward (h : c.itemCount.toNat + extra.toNat ≤ 255) :
    Engine.stepped c extra .forward = .ok none ∧ (∀ d, ¬c.Steps extra.toNat .forward d) ∨
      ∃ d, Engine.stepped c extra .forward = .ok (some d) ∧ c.Steps extra.toNat .forward d := by
  have hcount := c.pageCount.toNat_lt
  by_cases hpage : c.page.toNat + 1 < c.pageCount.toNat
  · obtain ⟨page, hadd, hnext⟩ := Checked.add8_one (a := c.page) (by omega)
    have hcan : c.canAdvance extra = true := by simp [canAdvance, hasNextPage, hpage]
    have hadvance : c.advance extra = .ok { c with page } := by
      rw [advance, if_pos (by simpa [hasNextPage] using hpage), hadd]
      rfl
    refine Or.inr ⟨_, stepped_of_advance hcan hadvance, .page hnext ?_⟩
    rw [UInt8.lt_iff_toNat_lt]
    omega
  · have hnot : ¬c.hasNextPage = true := by simpa [hasNextPage] using hpage
    by_cases hitem : c.item.toNat + 1 < c.itemCount.toNat + extra.toNat
    · obtain ⟨item, hadd, hnext⟩ := Checked.add8_one (a := c.item) (by omega)
      have hcan : c.canAdvance extra = true := by simp [canAdvance, hasNextItem, hitem]
      have hadvance : c.advance extra = .ok { c with item, page := 0 } := by
        rw [advance, if_neg hnot, if_pos (by simpa [hasNextItem] using hitem), hadd]
        rfl
      exact Or.inr ⟨_, stepped_of_advance hcan hadvance,
        .item (Nat.not_lt.1 hpage) hnext (by omega)⟩
    · have hcan : ¬c.canAdvance extra = true := by
        simp [canAdvance, hasNextPage, hasNextItem, hpage, hitem]
      refine Or.inl ⟨?_, ?_⟩
      · rw [Engine.stepped, if_neg hcan]
        rfl
      · rintro d (⟨hnext, hlt⟩ | ⟨-, hnext, hlt⟩)
        · rw [UInt8.lt_iff_toNat_lt] at hlt
          omega
        · omega

theorem stepped_backward :
    Engine.stepped c extra .backward = .ok none ∧ (∀ d, ¬c.Steps extra.toNat .backward d) ∨
      ∃ d, Engine.stepped c extra .backward = .ok (some d) ∧
        c.Steps extra.toNat .backward d := by
  by_cases hpage : 1 ≤ c.page
  · have hne : c.page ≠ 0 := fun h => by simp [h] at hpage
    have hcan : c.canRetreat = true := by simp [canRetreat, hne]
    have hretreat : c.retreat = { c with page := diff8 c.page 1 hpage } := by
      rw [retreat, dif_pos hpage]
    refine Or.inr ⟨_, ?_, .pageBack (diff8_one hpage)⟩
    rw [Engine.stepped, if_pos hcan, hretreat]
    rfl
  · have hzero := byte_eq_zero hpage
    by_cases hitem : 1 ≤ c.item
    · have hlt : 0 < c.item := UInt8.lt_iff_toNat_lt.2 (one_le_byte.1 hitem)
      have hcan : c.canRetreat = true := by simp [canRetreat, hlt]
      have hretreat : c.retreat =
          { c with item := diff8 c.item 1 hitem, page := Cursor.lastPage } := by
        rw [retreat, dif_neg hpage, dif_pos hitem]
      refine Or.inr ⟨_, ?_, .itemBack hzero (diff8_one hitem)⟩
      rw [Engine.stepped, if_pos hcan, hretreat]
      rfl
    · have hnot : ¬0 < c.item := fun h => hitem (one_le_byte.2 (UInt8.lt_iff_toNat_lt.1 h))
      have hcan : ¬c.canRetreat = true := by simp [canRetreat, hzero, hnot]
      refine Or.inl ⟨?_, ?_⟩
      · rw [Engine.stepped, if_neg hcan]
        rfl
      · rw [one_le_byte] at hitem
        rintro d (_ | _ | hnext | ⟨-, hnext⟩)
        · rw [hzero] at hnext
          simp at hnext
        · omega

theorem steps_of_canAdvance (h : c.canAdvance extra = true)
    (hroom : c.itemCount.toNat + extra.toNat ≤ 255) : ∃ d, c.Steps extra.toNat .forward d := by
  have hcount := c.pageCount.toNat_lt
  simp only [canAdvance, hasNextPage, hasNextItem, Bool.or_eq_true, decide_eq_true_eq] at h
  by_cases hpage : c.page.toNat + 1 < c.pageCount.toNat
  · obtain ⟨page, -, hnext⟩ := Checked.add8_one (a := c.page) (by omega)
    exact ⟨_, .page hnext (UInt8.lt_iff_toNat_lt.2 (by omega))⟩
  · have hitem := h.resolve_left hpage
    obtain ⟨item, -, hnext⟩ := Checked.add8_one (a := c.item) (by omega)
    exact ⟨_, .item (Nat.not_lt.1 hpage) hnext (by omega)⟩

theorem Steps.backward {extra extra' : Nat} (h : c.Steps extra .backward d) :
    c.Steps extra' .backward d := by
  cases h with
  | pageBack hnext => exact .pageBack hnext
  | itemBack hzero hnext => exact .itemBack hzero hnext

/-- Either there is no step and none is taken, or the step that there is. -/
theorem stepped_cases (h : c.itemCount.toNat + extra.toNat ≤ 255) (dir : Direction) :
    Engine.stepped c extra dir = .ok none ∧ (∀ d, ¬c.Steps extra.toNat dir d) ∨
      ∃ d, Engine.stepped c extra dir = .ok (some d) ∧ c.Steps extra.toNat dir d := by
  cases dir with
  | forward => exact stepped_forward h
  | backward => exact stepped_backward

theorem isLastPage_eq (h : c.page < c.pageCount) :
    c.isLastPage = .ok (decide (c.pageCount.toNat ≤ c.page.toNat + 1)) := by
  rw [UInt8.lt_iff_toNat_lt] at h
  have hcount := c.pageCount.toNat_lt
  have hne : c.pageCount ≠ 0 := by
    rintro h0
    rw [h0] at h
    simp at h
  obtain ⟨next, hadd, hnext⟩ := Checked.add8_one (a := c.page) (by omega)
  simp only [isLastPage, if_neg hne, hadd, Checked.ok_bind, hnext, UInt8.le_iff_toNat_le]
  rfl

end Cursor

namespace Engine

variable {σ : Type} {config : Config} {C : Contract config}

/-- `loadPage` turns the cursor to a page that there is and labels the key. `set` is how the cursor
is put back into the session. -/
theorem loadPage_ensures (answer : (page : UInt8) → Except Error UInt8 → Field → Prop)
    (set : Cursor → Option Session → Option Session)
    (hset : ∀ c c' session, set c (set c' session) = set c session)
    {query : UInt8 → Operation Engine σ UInt8} (hquery : ∀ page, C.Asks (query page) (answer page))
    {c : Cursor} {pages : UInt8} (hpos : pages ≠ 0) {s : Sitting Engine σ}
    (hanswer : answer c.page (.ok pages) s.machine.field) (hfield : C.field s.machine.field) :
    (loadPage c pages
      (fun c => Operation.modifyMachine fun e => { e with session := set c e.session })
      query).Ensures s fun r s' => match r with
      | .ok () => ∃ d w, Cursor.Turns answer c d w ∧ C.field w ∧ s'.machine = { s.machine with
          session := set d s.machine.session
          field := w.labelKey d.page d.pageCount s.machine.config.labelStyle }
      | .error _ => C.Spoilt s.machine s'.machine ∧ Contract.Unsteady answer := by
  have hone : 1 ≤ pages := by
    rw [UInt8.le_iff_toNat_le]
    have : pages.toNat ≠ 0 := fun h => hpos (UInt8.toNat_inj.1 h)
    change 1 ≤ pages.toNat
    omega
  simp only [loadPage, Cursor.clamp, dif_pos hone]
  by_cases hle : pages ≤ c.page
  · simp only [if_pos hle, Operation.ensures_bind, Operation.ensures_modifyMachine,
      Operation.ensures_machine, ↓reduceIte, ensures_modifyField]
    refine (hquery _ _ s.machine.field hfield rfl).mono ?_
    rintro r s' ⟨w, hw, hwf, hs'⟩
    cases r with
    | error cause =>
      rw [hs']
      exact ⟨⟨rfl, rfl, hwf⟩, Or.inl ⟨_, cause, w, hw⟩⟩
    | ok last =>
      have hpage := diff8_one hone
      by_cases hlast : last ≤ diff8 pages 1 hone
      · have hne : last ≠ pages := by
          rintro rfl
          rw [UInt8.le_iff_toNat_le] at hlast
          omega
        simp only [if_pos hlast, Operation.ensures_bind, Operation.ensures_throw, hs']
        exact ⟨⟨rfl, rfl, hwf⟩, Or.inr ⟨_, _, _, _, _, _, hanswer, hw, hne⟩⟩
      · simp only [if_neg hlast, Operation.ensures_bind, Operation.ensures_modifyMachine,
          ensures_modifyField, hs', hset]
        exact ⟨_, w, .beyond hanswer hle hpage hw (UInt8.not_le.1 hlast), hwf, rfl⟩
  · simp only [if_neg hle, Operation.ensures_bind, Operation.ensures_modifyMachine,
      Operation.ensures_machine, ensures_modifyField, Bool.false_eq_true, ↓reduceIte]
    exact ⟨_, s.machine.field, .within hanswer (UInt8.not_le.1 hle), hfield, rfl⟩

end Engine
end WalletReview
