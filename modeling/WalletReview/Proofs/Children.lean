import WalletReview.Proofs.Landing

/-! Where loading a screen of an inspection ends. The children are counted anew, the cursor is put
on a place that there is, and from there passes over children that were found empty. It rests on a
screen whose text is on the field, or at the end of its way finds that no child is left. -/
namespace WalletReview

open Engine (Direction)

variable {σ : Type} {config : Config} {C : Contract config}

def Cursor.AtEnd (c : Cursor) : Direction → Prop
  | .forward => c.itemCount.toNat ≤ c.item.toNat + 1
  | .backward => c.item = 0

/-- The cursor is on a place that there is, or on the first where there is none. -/
def Cursor.Within (c : Cursor) : Prop := c.item.toNat ≤ c.itemCount.toNat - 1

namespace Inspection

/-- The path down to the current parent, from the inspected item. -/
def chain (i : Inspection) : List UInt8 := i.path.toList.take (i.depth.toNat + 1)

/-- The inspection was begun under `config` on an item, and its path is as long as it is deep. -/
structure Fits (config : Config) (root : UInt8) (i : Inspection) : Prop where
  depth : i.depth.toNat ≤ maxDepth
  root : i.root = root
  unused : ∀ k (h : k < maxDepth + 1), i.depth.toNat < k → i.path[k] = 0
  layout : i.layout = config.inspectLayout
  numbered : i.layout = .bracketed → ∀ k (h : k < maxDepth + 1), 0 < k → i.path[k].toNat < 255

theorem Fits.trace {root : UInt8} {i : Inspection} (h : i.Fits config root) :
    i.trace = .ok i.chain := by
  rw [Inspection.trace, if_pos h.depth]
  rfl

theorem Fits.withCursor {root : UInt8} {i : Inspection} (h : i.Fits config root) (c : Cursor) :
    { i with cursor := c }.Fits config root :=
  ⟨h.depth, h.root, h.unused, h.layout, h.numbered⟩

/-- The child under the cursor was found to have no pages. -/
def Empty (C : Contract config) (i : Inspection) (c : Cursor) : Prop :=
  ∃ child w, { i with cursor := c }.childIndex = some child ∧ C.child i.chain child c.page (.ok 0) w

/-- The field is as the provider left it when it found that the child under the cursor has no pages.
-/
def Blank (C : Contract config) (i : Inspection) (c : Cursor) (w : Field) : Prop :=
  ∃ child, { i with cursor := c }.childIndex = some child ∧ C.child i.chain child c.page (.ok 0) w

theorem Blank.empty {i : Inspection} {c : Cursor} {w : Field} (h : i.Blank C c w) :
    i.Empty C c := by
  obtain ⟨child, hchild, hw⟩ := h
  exact ⟨child, w, hchild, hw⟩

/-- A cursor that comes to a place rests there on the second cursor, with the text on the field. -/
inductive Rests (C : Contract config) (i : Inspection) (c : Cursor) : Cursor → Field → Prop
  | marker {f : Field} :
    ({ i with cursor := c }.isGoToRoot || { i with cursor := c }.isBack) = true →
    C.Wrote ("", if { i with cursor := c }.isBack then "BACK" else "Go to root") f →
    Rests C i c ⟨c.item, c.itemCount, 0, 1⟩ f
  | vacant {f : Field} :
    ({ i with cursor := c }.isGoToRoot || { i with cursor := c }.isBack) = false →
    { i with cursor := c }.childIndex = none → C.Wrote ("", "") f →
    Rests C i c ⟨c.item, c.itemCount, 0, 1⟩ f
  | child {child : UInt8} {d : Cursor} {w : Field} :
    ({ i with cursor := c }.isGoToRoot || { i with cursor := c }.isBack) = false →
    { i with cursor := c }.childIndex = some child → Cursor.Turns (C.child i.chain child) c d w →
    C.field w → Rests C i c d (w.labelKey d.page d.pageCount config.labelStyle)

namespace Rests

variable {i : Inspection} {c d : Cursor} {w : Field}

theorem field (h : i.Rests C c d w) : C.field w := by
  cases h with
  | marker _ h => exact h.field
  | vacant _ _ h => exact h.field
  | child _ _ _ h => exact C.field_labelKey _ _ _ _ h

theorem item_eq (h : i.Rests C c d w) : d.item = c.item := by
  cases h with
  | marker => rfl
  | vacant => rfl
  | child _ _ h => exact h.item

theorem itemCount_eq (h : i.Rests C c d w) : d.itemCount = c.itemCount := by
  cases h with
  | marker => rfl
  | vacant => rfl
  | child _ _ h => exact h.itemCount

theorem page_lt (h : i.Rests C c d w) : d.page < d.pageCount := by
  cases h with
  | marker => exact UInt8.zero_lt_one
  | vacant => exact UInt8.zero_lt_one
  | child _ _ h => exact h.page_lt

theorem withCursor (h : i.Rests C c d w) (c' : Cursor) : { i with cursor := c' }.Rests C c d w := by
  cases h with
  | marker hmarker hw => exact .marker hmarker hw
  | vacant hmarker hchild hw => exact .vacant hmarker hchild hw
  | child hmarker hchild hturn hw => exact .child hmarker hchild hturn hw

end Rests

/-- Where a cursor that is to show a child comes to rest, in a direction of travel. -/
def Lands (C : Contract config) (i : Inspection) (dir : Direction) (c d : Cursor) (w : Field) :
    Prop :=
  ∃ c', Cursor.Passes (i.Empty C) dir c c' ∧ i.Rests C c' d w ∧ c'.Within

/-- No child is left on the way, which ends on an empty one. -/
structure Misses (C : Contract config) (i : Inspection) (dir : Direction) (c d : Cursor)
    (w : Field) : Prop where
  passes : Cursor.Passes (i.Empty C) dir c d
  blank : i.Blank C d w
  atEnd : d.AtEnd dir
  within : d.Within

/-- The cursor with `count` children to move over, on one of the places there are. -/
def recounted (i : Inspection) (count : UInt8) : Cursor :=
  (Engine.clampItem (i.setChildCount count)).cursor

theorem recounted_itemCount (i : Inspection) (count : UInt8) :
    (i.recounted count).itemCount.toNat =
      min count.toNat (255 - i.layout.extra.toNat) + i.layout.extra.toNat := by
  have hextra : i.layout.extra.toNat ≤ 2 := by cases i.layout <;> decide
  simp only [recounted, Engine.clampItem, setChildCount, UInt8.toNat_ofNat']
  omega

theorem recounted_within (i : Inspection) (count : UInt8) : (i.recounted count).Within := by
  simp only [Cursor.Within, recounted, Engine.clampItem]
  split
  · rename_i hone
    rw [UInt8.le_iff_toNat_le] at hone
    split
    · simp [diff8_toNat]
    · rename_i hlt
      rw [UInt8.le_iff_toNat_le] at hlt
      simp only [setChildCount] at hlt ⊢
      omega
  · exact Nat.zero_le _

theorem recounted_page (i : Inspection) (count : UInt8) :
    (i.recounted count).page = i.cursor.page := rfl

theorem recounted_eq_self {i : Inspection} {count : UInt8}
    (hcount : i.cursor.itemCount = (i.recounted count).itemCount) (hwithin : i.cursor.Within) :
    i.recounted count = i.cursor := by
  have hsame : (i.setChildCount count).cursor = i.cursor := by
    have hset : (i.setChildCount count).cursor.itemCount = i.cursor.itemCount := hcount.symm
    simp only [setChildCount] at hset ⊢
    rw [hset]
  simp only [Cursor.Within] at hwithin
  simp only [recounted, Engine.clampItem, hsame]
  split
  · rename_i hone
    rw [one_le_byte] at hone
    rw [if_neg]
    rw [UInt8.le_iff_toNat_le]
    omega
  · rename_i hzero
    have hitem : i.cursor.item = 0 := by
      rw [byte_eq_zero hzero] at hwithin
      exact UInt8.toNat_inj.1 (Nat.le_zero.1 hwithin)
    rw [← hitem]

/-- The cursor is on one of `count` children, or on a screen around them. -/
structure Numbers (i : Inspection) (count : UInt8) : Prop where
  within : i.cursor.Within
  itemCount : i.cursor.itemCount.toNat ≤ count.toNat + i.layout.extra.toNat

namespace Numbers

variable {i : Inspection} {count child : UInt8}

theorem recounted (i : Inspection) (count : UInt8) :
    (Engine.clampItem (i.setChildCount count)).Numbers count := by
  refine ⟨i.recounted_within count, ?_⟩
  have := i.recounted_itemCount count
  simp only [Inspection.recounted] at this
  have hlayout : (Engine.clampItem (i.setChildCount count)).layout = i.layout := rfl
  rw [hlayout, this]
  omega

theorem withCursor (h : i.Numbers count) {c : Cursor}
    (hitem : c.item.toNat ≤ i.cursor.itemCount.toNat - 1)
    (hcount : c.itemCount = i.cursor.itemCount) : { i with cursor := c }.Numbers count :=
  ⟨by rw [Cursor.Within, hcount]; exact hitem, by rw [hcount]; exact h.itemCount⟩

theorem childIndex_lt (h : i.Numbers count) (hback : i.isBack = false)
    (hchild : i.childIndex = some child) : child < count := by
  have hwithin := h.within
  have hcount := h.itemCount
  rw [UInt8.lt_iff_toNat_lt]
  cases hlayout : i.layout with
  | native =>
    simp only [childIndex, hlayout] at hchild
    simp only [hlayout] at hcount
    split at hchild
    · rename_i hlt
      cases hchild
      rw [UInt8.lt_iff_toNat_lt] at hlt
      exact Nat.lt_of_lt_of_le hlt hcount
    · cases hchild
  | bracketed =>
    simp only [childIndex, hlayout, hback, Bool.false_eq_true, ↓reduceIte] at hchild
    simp only [hlayout] at hcount
    have hextra : InspectLayout.bracketed.extra.toNat = 2 := rfl
    split at hchild
    · rename_i hone
      cases hchild
      have hpred := diff8_one hone
      have hpos := one_le_byte.1 hone
      have hlast : i.cursor.item.toNat ≠ i.cursor.itemCount.toNat - 1 := by
        intro hitem
        simp only [isBack] at hback
        split at hback
        · rename_i hsome
          simp only [hlayout, BEq.rfl, Bool.true_and, beq_eq_false_iff_ne, ne_eq] at hback
          exact hback (UInt8.toNat_inj.1 (by rw [hitem, diff8_toNat]; rfl))
        · rename_i hnone
          have hzero : i.cursor.itemCount.toNat = 0 := by rw [byte_eq_zero hnone]; rfl
          omega
      simp only [Cursor.Within] at hwithin
      omega
    · cases hchild

end Numbers

end Inspection

theorem BoundedText.clear_set_empty {n : Nat} (t : BoundedText n) :
    (t.clear.set "").1 = t.clear := by
  simp [BoundedText.set, BoundedText.append, BoundedText.appendChars, BoundedText.clear,
    BoundedText.overwrite, BoundedText.encode, Text.floorBoundary]

theorem Field.clear_setKey_empty (f : Field) : f.clear.setKey "" = f.clear := by
  simp only [Field.setKey, Field.clear, BoundedText.clear_set_empty]

theorem Field.clear_setValue_empty (f : Field) : f.clear.setValue "" = f.clear := by
  simp only [Field.setValue, Field.clear, BoundedText.clear_set_empty]

namespace Engine

variable {p : Provider σ} {s : Session} {i : Inspection} {root count : UInt8} {c : Cursor}
  {t : Sitting Engine σ} {dir : Direction} {why : Prop} {after : Operation Engine σ Bool}
  {rounds : Nat}

def inspecting (e : Engine) (s : Session) (i : Inspection) (f : Field) : Engine :=
  { e with session := some { s with inspection := some i }, field := f }

/-- What loading leaves behind once it has come to an end of its way; `why` follows if it failed. -/
def LandedChild (C : Contract config) (why : Prop) (s : Session) (i : Inspection) (dir : Direction)
    (c : Cursor) (e : Engine) : Except Error Bool → Engine → Prop
  | .ok true, e' => ∃ d w, i.Lands C dir c d w ∧ e' = e.inspecting s { i with cursor := d } w
  | .ok false, e' => ∃ d w, i.Misses C dir c d w ∧ C.field w ∧
      e' = e.inspecting s { i with cursor := d } w
  | .error _, e' => C.Spoilt e e' ∧ why

theorem LandedChild.of_passed {c₁ : Cursor} {e e₁ e' : Engine} {r : Except Error Bool}
    (h : LandedChild C why s i dir c₁ e₁ r e')
    (hc : ∀ d, Cursor.Passes (i.Empty C) dir c₁ d → Cursor.Passes (i.Empty C) dir c d)
    (he : e₁ = { e with session := e₁.session, field := e₁.field }) :
    LandedChild C why s i dir c e r e' := by
  rw [he] at h
  match r with
  | .ok true =>
    obtain ⟨d, w, ⟨c', hpass, hrest⟩, he'⟩ := h
    exact ⟨d, w, ⟨c', hc _ hpass, hrest⟩, he'⟩
  | .ok false =>
    obtain ⟨d, w, hmiss, he'⟩ := h
    exact ⟨d, w, { hmiss with passes := hc _ hmiss.passes }, he'⟩
  | .error _ => exact ⟨h.1.congr rfl rfl, h.2⟩

theorem loop_childRound_marker
    (ht : t.machine.session = some { s with inspection := some { i with cursor := c } })
    (hfield : C.field t.machine.field) (hc : c.Within)
    (hmarker : ({ i with cursor := c }.isGoToRoot || { i with cursor := c }.isBack) = true) :
    (Operation.loop (childRound p dir) after (rounds + 1)).Ensures t fun r t' =>
      LandedChild C why s i dir c t.machine r t'.machine := by
  rw [Operation.ensures_loop_succ, childRound]
  simp only [Operation.ensures_bind, ensures_getInspection ht rfl, ensures_modifyField, hmarker,
    ↓reduceIte, ensures_setInspection, Operation.ensures_pure, Cursor.clamp_one, ht,
    Option.map_some]
  refine ⟨_, _, ⟨c, .stay, .marker hmarker ⟨t.machine.field, hfield, rfl⟩, hc⟩, ?_⟩
  rw [Field.clear_setKey_empty]
  rfl

theorem loop_childRound_vacant
    (ht : t.machine.session = some { s with inspection := some { i with cursor := c } })
    (hfield : C.field t.machine.field) (hc : c.Within)
    (hmarker : ({ i with cursor := c }.isGoToRoot || { i with cursor := c }.isBack) = false)
    (hchild : { i with cursor := c }.childIndex = none) :
    (Operation.loop (childRound p dir) after (rounds + 1)).Ensures t fun r t' =>
      LandedChild C why s i dir c t.machine r t'.machine := by
  rw [Operation.ensures_loop_succ, childRound]
  simp only [Operation.ensures_bind, ensures_getInspection ht rfl, ensures_modifyField, hmarker,
    hchild, Bool.false_eq_true, ↓reduceIte, ensures_setInspection, Operation.ensures_pure,
    Cursor.clamp_one, ht, Option.map_some]
  refine ⟨_, _, ⟨c, .stay, .vacant hmarker hchild ⟨t.machine.field, hfield, rfl⟩, hc⟩, ?_⟩
  rw [Field.clear_setKey_empty, Field.clear_setValue_empty]
  rfl

theorem loadPage_child_ensures (dir : Direction) (hp : p.Honours C) {child pages : UInt8}
    {t₀ : Engine} (hconfig : t₀.config = config)
    (ht₀ : t₀.session = some { s with inspection := some { i with cursor := c } })
    (hc : c.Within)
    (hmarker : ({ i with cursor := c }.isGoToRoot || { i with cursor := c }.isBack) = false)
    (hchild : { i with cursor := c }.childIndex = some child) (hpages : pages ≠ 0) {w : Field}
    (hw : C.child i.chain child c.page (.ok pages) w) (hwf : C.field w)
    (ht : t.machine = { t₀ with field := w })
    (hwhy : Contract.Unsteady (C.child i.chain child) → why) :
    (loadPage c pages (fun cursor => setInspection { i with cursor })
      (fun page => askField (p.child i.chain child page))).Ensures t fun r t' =>
      LandedChild C why s i dir c t₀ (r.map fun _ => true) t'.machine := by
  have hload := loadPage_ensures (C.child i.chain child)
    (fun d session => session.map fun s => { s with inspection := some { i with cursor := d } })
    (fun _ _ session => by cases session <;> rfl) (C.asks_child hp i.chain child) hpages
    (c := c) (s := t) (by rw [ht]; exact hw) (by rw [ht]; exact hwf)
  refine hload.mono fun r t' hr => ?_
  cases r with
  | error cause =>
    rw [ht] at hr
    exact ⟨hr.1.congr rfl rfl, hwhy hr.2⟩
  | ok _ =>
    obtain ⟨d, w, hturn, hw, ht'⟩ := hr
    simp only [ht', ht, ht₀, hconfig, Option.map_some]
    exact ⟨d, _, ⟨c, .stay, .child hmarker hchild hturn hw, hc⟩, by rw [inspecting, hconfig]⟩

/-- Loading fails only if the provider does, at a question about one of its children. -/
theorem loop_childRound_ensures (hp : p.Honours C) (hi : i.Fits config root)
    (hconfig : t.machine.config = config)
    (ht : t.machine.session = some { s with inspection := some { i with cursor := c } })
    (hfield : C.field t.machine.field) (hc : { i with cursor := c }.Numbers count)
    (hpos : 0 < rounds)
    (hrounds : match dir with
      | .forward => c.itemCount.toNat < c.item.toNat + rounds
      | .backward => c.item.toNat < rounds)
    (hwhy : ∀ child, child < count → Contract.Unsteady (C.child i.chain child) → why) :
    (Operation.loop (childRound p dir) after rounds).Ensures t fun r t' =>
      LandedChild C why s i dir c t.machine r t'.machine := by
  -- A round that goes on takes a step, so that more rounds are left than places on the way.
  induction rounds generalizing c t with
  | zero => omega
  | succ rounds ih =>
    cases hmarker : ({ i with cursor := c }.isGoToRoot || { i with cursor := c }.isBack) with
    | true => exact loop_childRound_marker ht hfield hc.within hmarker
    | false =>
      cases hchild : { i with cursor := c }.childIndex with
      | none => exact loop_childRound_vacant ht hfield hc.within hmarker hchild
      | some child =>
        have hlt : child < count := hc.childIndex_lt (Bool.or_eq_false_iff.1 hmarker).2 hchild
        rw [Operation.ensures_loop_succ, childRound]
        simp only [Operation.ensures_bind, ensures_getInspection ht rfl, ensures_modifyField,
          hmarker, hchild, Bool.false_eq_true, ↓reduceIte, Operation.ensures_liftM,
          (hi.withCursor c).trace, Except.ok.injEq, exists_eq_left']
        refine (C.asks_child hp i.chain child c.page _ t.machine.field hfield rfl).mono ?_
        rintro r t' ⟨w, hw, hwf, ht'⟩
        cases r with
        | error cause =>
          rw [ht']
          exact ⟨⟨rfl, rfl, hwf⟩, hwhy child hlt (Or.inl ⟨_, _, _, hw⟩)⟩
        | ok pages =>
          by_cases hpages : pages = 0
          · subst hpages
            -- A child without pages is passed over, unless no place follows it.
            have hblank : i.Blank C c w := ⟨child, hchild, hw⟩
            simp only [↓reduceIte]
            cases dir with
            | forward =>
              simp only at hrounds ⊢
              split
              · rename_i hnext
                have hcount := c.itemCount.toNat_lt
                obtain ⟨item, hadd, hitem⟩ := Checked.add8_one (a := c.item) (by omega)
                simp only [Operation.ensures_bind, Operation.ensures_liftM, ensures_setInspection,
                  hadd, Except.ok.injEq, exists_eq_left', Operation.ensures_pure, ht', ht,
                  Option.map_some]
                refine Operation.Ensures.mono (ih hconfig rfl hwf ?_ (by omega) ?_)
                  fun r t'' hr => hr.of_passed (fun d hd => .on hblank.empty hitem hd) rfl
                · exact hc.withCursor (by simp only; omega) rfl
                · simp only
                  omega
              · rename_i hlast
                simp only [Operation.ensures_pure, ht']
                refine ⟨c, w, ⟨.stay, hblank, Nat.not_lt.1 hlast, hc.within⟩, hwf, ?_⟩
                rw [inspecting, ← ht]
            | backward =>
              simp only at hrounds ⊢
              split
              · rename_i hone
                have hitem := diff8_one hone
                have hwithin := hc.within
                simp only [Operation.ensures_bind, ensures_setInspection, Operation.ensures_pure,
                  ht', ht, Option.map_some]
                refine Operation.Ensures.mono (ih hconfig rfl hwf ?_ (by omega) ?_)
                  fun r t'' hr => hr.of_passed (fun d hd => .back hblank.empty hitem hd) rfl
                · simp only [Cursor.Within] at hwithin
                  exact hc.withCursor (by simp only; omega) rfl
                · simp only
                  omega
              · rename_i hzero
                have hitem := byte_eq_zero hzero
                simp only [Operation.ensures_pure, ht']
                refine ⟨c, w, ⟨.stay, hblank, hitem, hc.within⟩, hwf, ?_⟩
                rw [inspecting, ← ht]
          · simp only [if_neg hpages, Operation.ensures_bind]
            have hpage := loadPage_child_ensures dir hp hconfig ht hc.within hmarker hchild
              hpages hw hwf ht' (hwhy child hlt)
            refine hpage.mono ?_
            intro r t'' hr
            cases r with
            | error cause => exact hr
            | ok _ => exact Operation.ensures_pure.2 hr

/-- The provider may fail, or contradict itself, at a question about what is below a path. -/
inductive FailsBelow (C : Contract config) (path : List UInt8) : Prop
  | childCount {cause : Error} : C.childCount path (.error cause) → FailsBelow C path
  | child {count child : UInt8} : C.childCount path (.ok count) → child < count →
    Contract.Unsteady (C.child path child) → FailsBelow C path

/-- Loading lands on a screen of the inspection, or finds every child on its way empty; a provider
that fails or contradicts itself has the review aborted. -/
theorem loadChild_ensures (hp : p.Honours C) (hi : i.Fits config root)
    (hconfig : t.machine.config = config)
    (ht : t.machine.session = some { s with inspection := some i })
    (hfield : C.field t.machine.field) :
    (loadChild p dir).Ensures t fun r t' => match r with
      | .ok true => ∃ count d w, C.childCount i.chain (.ok count) ∧
          i.Lands C dir (i.recounted count) d w ∧
          t'.machine = t.machine.inspecting s { i with cursor := d } w.filled
      | .ok false => ∃ count d w, C.childCount i.chain (.ok count) ∧
          i.Misses C dir (i.recounted count) d w ∧ C.field w ∧
          t'.machine = t.machine.inspecting s { i with cursor := d } w.filled
      | .error _ => C.Aborted t.machine t'.machine ∧ FailsBelow C i.chain := by
  have hcount := hp.childCount i.chain t.content
  refine (C.loading_ensures (FailsBelow C i.chain) (fun found e' => ∃ count,
    C.childCount i.chain (.ok count) ∧
      LandedChild C (FailsBelow C i.chain) s i dir (i.recounted count) t.machine (.ok found) e')
    ?_).mono ?_
  · simp only [childLoop, Operation.ensures_bind, ensures_getInspection ht rfl,
      Operation.ensures_liftM, hi.trace, Except.ok.injEq, exists_eq_left', Operation.ensures_ask,
      Operation.ensures_settle]
    cases hreply : (p.childCount i.chain t.content).1 with
    | error cause =>
      rw [hreply] at hcount
      exact ⟨⟨rfl, rfl, hfield⟩, .childCount hcount⟩
    | ok count =>
      rw [hreply] at hcount
      have hwithin := i.recounted_within count
      simp only [ensures_setInspection, ht, Option.map_some]
      refine Operation.Ensures.mono (loop_childRound_ensures (c := i.recounted count) hp hi hconfig
        rfl hfield (.recounted i count) (Nat.succ_pos _) ?_
          fun _ hlt h => FailsBelow.child hcount hlt h)
        fun r t' hr => ?_
      · cases dir with
        | forward =>
          simp only [Inspection.recounted]
          omega
        | backward =>
          simp only [Cursor.Within, Inspection.recounted] at hwithin ⊢
          omega
      · cases r with
        | error cause => exact ⟨hr.1.congr rfl rfl, hr.2⟩
        | ok found => exact ⟨count, hcount, hr.of_passed (fun d hd => hd) rfl⟩
  · intro r t' hr
    cases r with
    | error cause => exact hr
    | ok found =>
      cases found with
      | true =>
        obtain ⟨e, ⟨count, hcount, d, w, hland, rfl⟩, ht'⟩ := hr
        exact ⟨count, d, w, hcount, hland, ht'⟩
      | false =>
        obtain ⟨e, ⟨count, hcount, d, w, hmiss, hw, rfl⟩, ht'⟩ := hr
        exact ⟨count, d, w, hcount, hmiss, hw, ht'⟩

end Engine
end WalletReview
