import WalletReview.Proofs.Standing

/-! What the operations of an inspection do. Going in, down, up and on, they end on a screen of the
level they come to; only the way out changes the list of the review. -/
namespace WalletReview

open Engine (Direction)

variable {σ : Type} {config : Config} {C : Contract config}

theorem Session.Runs.itemIndex?_eq_some_iff {s : Session} {index : UInt8} (hs : s.Runs C) :
    s.itemIndex? = some index ↔ s.AtItem s.cursor index := by
  have hleading := hs.fits.leading
  have hcount := hs.spans.itemCount
  unfold itemIndex?
  constructor
  · intro h
    split at h
    · rename_i hge
      split at h
      · rename_i hlt
        cases h
        rw [UInt8.lt_iff_toNat_lt] at hlt
        have hindex := diff8_toNat hge
        rw [UInt8.le_iff_toNat_le] at hge
        constructor <;> omega
      · cases h
    · cases h
  · rintro ⟨hitem, hindex⟩
    have hge : s.leading ≤ s.cursor.item := UInt8.le_iff_toNat_le.2 (by omega)
    have hlt : s.cursor.item < s.cursor.itemCount := UInt8.lt_iff_toNat_lt.2 (by omega)
    rw [dif_pos hge, if_pos hlt, Option.some.injEq, ← UInt8.toNat_inj, diff8_toNat]
    omega

namespace Inspection

variable {i j : Inspection} {root child : UInt8} {f : Field}

theorem fits_start (index : UInt8) :
    (start index config.inspectLayout).Fits config index where
  depth := Nat.zero_le _
  root := by simp [root, start]
  unused k h hk := by
    have hne : 0 ≠ k := Nat.ne_of_lt hk
    simp [start, hne]
  layout := rfl
  numbered _ k h hk := by
    have hne : 0 ≠ k := Nat.ne_of_lt hk
    simp [start, hne]

theorem childIndex_lt (i : Inspection) (hlayout : i.layout = .bracketed)
    (hchild : i.childIndex = some child) : child.toNat < 255 := by
  have hitem := i.cursor.item.toNat_lt
  simp only [childIndex, hlayout] at hchild
  split at hchild
  · cases hchild
  · split at hchild
    · rename_i hone
      cases hchild
      have hpred := diff8_one hone
      omega
    · cases hchild

theorem Fits.enter (h : i.Fits config root) (hchild : i.childIndex = some child)
    (hdepth : i.depth.toNat < maxDepth) :
    ∃ i', i.enter child = .ok i' ∧ i'.Fits config root ∧ i'.cursor = .start 0 ∧
      i'.depth.toNat = i.depth.toNat + 1 := by
  have hmax : maxDepth = 10 := rfl
  obtain ⟨depth, hadd, hsum⟩ := Checked.add8_one (a := i.depth) (by omega)
  have hlt : depth.toNat < maxDepth + 1 := by omega
  refine ⟨{ i with depth, path := i.path.set depth.toNat child, cursor := .start 0 }, ?_, ?_, rfl,
    hsum.symm⟩
  · rw [Inspection.enter, hadd, Checked.ok_bind, dif_pos hlt]
    rfl
  · refine ⟨by simp only; omega, ?_, ?_, h.layout, ?_⟩
    · rw [← h.root]
      simp only [Inspection.root, Vector.getElem_set]
      rw [if_neg (by omega)]
    · intro k hk hlow
      simp only at hlow
      rw [Vector.getElem_set, if_neg (by omega)]
      exact h.unused k hk (by omega)
    · intro hlayout k hk hpos
      rw [Vector.getElem_set]
      split
      · exact i.childIndex_lt hlayout hchild
      · exact h.numbered hlayout k hk hpos

theorem Fits.ascend (h : i.Fits config root) :
    i.ascend = .ok none ∧ i.depth.toNat ≤ 1 ∨
      ∃ i', i.ascend = .ok (some i') ∧ i'.Fits config root ∧ i'.depth.toNat + 1 = i.depth.toNat ∧
        i'.cursor.page < i'.cursor.pageCount := by
  have hmax : maxDepth = 10 := rfl
  have hdepth := h.depth
  have hone : i.depth ≤ 1 ↔ i.depth.toNat ≤ 1 := UInt8.le_iff_toNat_le
  by_cases hle : i.depth.toNat ≤ 1
  · left
    rw [Inspection.ascend, if_pos (hone.2 hle)]
    exact ⟨rfl, hle⟩
  · right
    have hpred : (UInt8.ofNat (i.depth.toNat - 1)).toNat = i.depth.toNat - 1 := by
      rw [UInt8.toNat_ofNat', Nat.mod_eq_of_lt (by omega)]
    have hsub : Checked.sub8 i.depth 1 = .ok (.ofNat (i.depth.toNat - 1)) :=
      Checked.sub8_eq_ok_iff.2 (by simp only [hpred, UInt8.reduceToNat]; omega)
    have hlt : i.depth.toNat < maxDepth + 1 := by omega
    -- One level up, the path has lost its last step, wherever the cursor is put.
    have hfits (c : Cursor) : Fits config root { i with
        depth := .ofNat (i.depth.toNat - 1), path := i.path.set i.depth.toNat 0, cursor := c } := by
      refine ⟨by simp only; omega, ?_, ?_, h.layout, ?_⟩
      · rw [← h.root]
        simp only [Inspection.root, Vector.getElem_set]
        rw [if_neg (by omega)]
      · intro k hk hlow
        simp only at hlow
        rw [Vector.getElem_set]
        split
        · rfl
        · exact h.unused k hk (by omega)
      · intro hlayout k hk hpos
        rw [Vector.getElem_set]
        split
        · decide
        · exact h.numbered hlayout k hk hpos
    have hresult : ∃ item, i.ascend = .ok (some { i with
        depth := .ofNat (i.depth.toNat - 1)
        path := i.path.set i.depth.toNat 0
        cursor := { Cursor.start 0 with item } }) := by
      rw [Inspection.ascend, if_neg (by rwa [hone]), dif_pos hlt]
      simp only [hsub, Checked.ok_bind]
      cases hlayout : i.layout with
      | native => exact ⟨_, rfl⟩
      | bracketed =>
        -- The child that was gone into was on a screen, so that its place can be numbered again.
        obtain ⟨item, hadd, -⟩ :=
          Checked.add8_one (h.numbered hlayout i.depth.toNat hlt (by omega))
        refine ⟨item, ?_⟩
        rw [hadd, Checked.ok_bind]
        rfl
    obtain ⟨item, hitem⟩ := hresult
    refine ⟨_, hitem, hfits _, ?_, UInt8.zero_lt_one⟩
    simp only
    omega

/-- Loading forward ends on `j`, with `f` on the field. -/
def Loads (C : Contract config) (i j : Inspection) (f : Field) : Prop :=
  ∃ count d, C.childCount i.chain (.ok count) ∧ j = { i with cursor := d } ∧
    ∃ w, f = w.filled ∧
      (i.Lands C .forward (i.recounted count) d w ∨ i.Misses C .forward (i.recounted count) d w)

variable {count : UInt8} {d : Cursor} {w : Field} {dir : Direction}

theorem Lands.stands (h : i.Lands C dir (i.recounted count) d w) (hi : i.Fits config root)
    (hcount : C.childCount i.chain (.ok count)) :
    { i with cursor := d }.Stands C root w.filled := by
  obtain ⟨c, hpass, hrest, hwithin⟩ := h
  have hitemCount : d.itemCount = (i.recounted count).itemCount := by
    rw [hrest.itemCount_eq, hpass.itemCount]
  refine ⟨hi.withCursor d, ⟨count, hcount, hitemCount⟩, ?_, hrest.page_lt,
    Or.inl ⟨c, w, hrest.withCursor d, rfl⟩⟩
  rw [Cursor.Within, hrest.item_eq, hrest.itemCount_eq]
  exact hwithin

theorem Misses.stands (h : i.Misses C .forward (i.recounted count) d w) (hi : i.Fits config root)
    (hcount : C.childCount i.chain (.ok count)) (hpage : i.cursor.page < i.cursor.pageCount) :
    { i with cursor := d }.Stands C root w.filled := by
  have hpageCount : d.pageCount = i.cursor.pageCount := h.passes.pageCount
  refine ⟨hi.withCursor d, ⟨count, hcount, h.passes.itemCount⟩, h.within, ?_,
    Or.inr ⟨h.atEnd, w, h.blank, rfl⟩⟩
  rcases h.passes.page with heq | ⟨-, hzero⟩
  · have : d.page = i.cursor.page := by rw [heq, recounted_page]
    rw [this, hpageCount]
    exact hpage
  · rw [hzero, hpageCount]
    exact UInt8.lt_of_le_of_lt UInt8.zero_le hpage

theorem Loads.stands (h : i.Loads C j f) (hi : i.Fits config root)
    (hpage : i.cursor.page < i.cursor.pageCount) : j.Stands C root f := by
  obtain ⟨count, d, hcount, rfl, w, rfl, hland | hmiss⟩ := h
  · exact hland.stands hi hcount
  · exact hmiss.stands hi hcount hpage

end Inspection

namespace Engine

inductive Visits (C : Contract config) (e : Engine) : Output → Engine → Prop
  | enter {s : Session} {index : UInt8} {j : Inspection} {f : Field} : e.state = .review →
    e.session = some s → s.AtItem s.cursor index → C.canInspect [] index true →
    (Inspection.start index config.inspectLayout).Loads C j f → C.field f →
    Visits C e .redraw ({ e with state := .inspect }.inspecting s j f)
  | descend {s : Session} {i i' j : Inspection} {child : UInt8} {f : Field} : e.Inspects s i →
    i.childIndex = some child → i.depth.toNat < maxDepth → C.canInspect i.chain child true →
    i.enter child = .ok i' → i'.Loads C j f → C.field f →
    Visits C e .redraw (e.inspecting s j f)
  | ascend {s : Session} {i i' j : Inspection} {f : Field} : e.Inspects s i →
    i.ascend = .ok (some i') → i'.Loads C j f → C.field f →
    Visits C e .redraw (e.inspecting s j f)
  | leave {s : Session} {i : Inspection} {d : Cursor} {w : Field} : e.Inspects s i →
    { s with inspection := none }.Lands C .forward { s.cursor with page := 0 } d w →
    Visits C e .redraw
      ({ e with state := .review }.showing { s with inspection := none, cursor := d } w.filled)
  | stay {s : Session} {i : Inspection} {dir : Direction} : e.Inspects s i →
    (∀ c, ¬i.cursor.Steps 0 dir c) → Visits C e .none e
  | move {s : Session} {i : Inspection} {dir : Direction} {c d : Cursor} {count : UInt8}
    {w : Field} : e.Inspects s i → i.cursor.Steps 0 dir c → C.childCount i.chain (.ok count) →
    { i with cursor := c }.Lands C dir ({ i with cursor := c }.recounted count) d w →
    Visits C e .redraw (e.inspecting s { i with cursor := d } w.filled)
  | miss {s : Session} {i j : Inspection} {dir : Direction} {c d : Cursor} {count : UInt8}
    {w f : Field} : e.Inspects s i → i.cursor.Steps 0 dir c → C.childCount i.chain (.ok count) →
    { i with cursor := c }.Misses C dir ({ i with cursor := c }.recounted count) d w →
    i.Loads C j f → C.field f →
    Visits C e .none (e.inspecting s j f)

variable {p : Provider σ} {s : Session} {i : Inspection} {root : UInt8} {f : Field}
  {t : Sitting Engine σ} {e e' : Engine} {out : Output}

theorem loadChild_forward (hp : p.Honours C) (hi : i.Fits config root)
    (hconfig : t.machine.config = config)
    (ht : t.machine.session = some { s with inspection := some i })
    (hfield : C.field t.machine.field) :
    (loadChild p .forward).Ensures t fun r t' => match r with
      | .ok _ => ∃ j f, i.Loads C j f ∧ C.field f ∧ t'.machine = t.machine.inspecting s j f
      | .error _ => C.Aborted t.machine t'.machine ∧ FailsBelow C i.chain := by
  refine (loadChild_ensures hp hi hconfig ht hfield).mono fun r t' hr => ?_
  cases r with
  | error cause => exact hr
  | ok found =>
    cases found with
    | true =>
      obtain ⟨count, d, w, hcount, hland, ht'⟩ := hr
      have hw : C.field w := by
        obtain ⟨c, -, hrest, -⟩ := hland
        exact hrest.field
      exact ⟨_, _, ⟨count, d, hcount, rfl, w, rfl, Or.inl hland⟩, C.field_filled hw, ht'⟩
    | false =>
      obtain ⟨count, d, w, hcount, hmiss, hw, ht'⟩ := hr
      exact ⟨_, _, ⟨count, d, hcount, rfl, w, rfl, Or.inr hmiss⟩, C.field_filled hw, ht'⟩

/-- Going into what the provider may give its leave for, at the end of `path`. Without leave nothing
happens; otherwise it is inspected, unless the provider fails there. -/
def GoesInto (C : Contract config) (e : Engine) (s : Session) (above : List UInt8) (child : UInt8)
    (i : Inspection) : Except Error Output → Engine → Prop
  | .ok out, e' => out = .redraw ∧ C.canInspect above child true ∧ ∃ j f, i.Loads C j f ∧
      C.field f ∧ e' = { e with state := .inspect }.inspecting s j f
  | .error cause, e' => e' = e ∧ C.canInspect above child false ∧ cause = .notInspectable ∨
      C.Aborted e e' ∧ C.canInspect above child true ∧ FailsBelow C i.chain

/-- Why a review that is under way may be aborted: the provider may fail at a question for the list,
or at one about the level that is shown next. -/
inductive Endangered (C : Contract config) (e : Engine) : Prop
  | list {s : Session} : e.session = some s → C.Fails → Endangered C e
  | enter {s : Session} {index : UInt8} : e.state = .review → e.session = some s →
    s.AtItem s.cursor index → C.canInspect [] index true →
    FailsBelow C (Inspection.start index config.inspectLayout).chain → Endangered C e
  | descend {s : Session} {i i' : Inspection} {child : UInt8} : e.Inspects s i →
    C.canInspect i.chain child true → i.enter child = .ok i' → FailsBelow C i'.chain →
    Endangered C e
  | ascend {s : Session} {i i' : Inspection} : e.Inspects s i → i.ascend = .ok (some i') →
    FailsBelow C i'.chain → Endangered C e
  | within {s : Session} {i : Inspection} : e.Inspects s i → FailsBelow C i.chain → Endangered C e

theorem enterInspect_goesInto {index : UInt8} (hp : p.Honours C) (he : Sound C t.machine)
    (hstate : t.machine.state = .review) (ht : t.machine.session = some s)
    (hat : s.AtItem s.cursor index) :
    (enterInspect p).Ensures t fun r t' =>
      t.machine.GoesInto C s [] index (.start index config.inspectLayout) r t'.machine := by
  have hindex := (he.runs ht).1.itemIndex?_eq_some_iff.2 hat
  have hasked := hp.canInspect [] index t.content
  have hlayout : t.machine.config.inspectLayout = config.inspectLayout := by rw [he.config]
  rw [enterInspect, Loader.enterInspect]
  simp only [Operation.ensures_bind, Operation.ensures_machine, hstate, ne_eq, not_true_eq_false,
    ↓reduceIte, ensures_getSession ht, hindex, Operation.ensures_ask]
  cases hcan : (p.canInspect [] index t.content).1 with
  | false =>
    rw [hcan] at hasked
    simp only [Bool.false_eq_true, ↓reduceIte, Operation.ensures_throw]
    exact Or.inl ⟨rfl, hasked, rfl⟩
  | true =>
    rw [hcan] at hasked
    simp only [↓reduceIte, Operation.ensures_bind, Operation.ensures_note, ensures_setInspection,
      ensures_setState, ht, hlayout, Option.map_some]
    refine Operation.Ensures.mono (loadChild_forward (s := s) hp
      (Inspection.fits_start index) he.config rfl he.field) fun r t' hr => ?_
    cases r with
    | error cause => exact Or.inr ⟨hr.1.congr rfl rfl, hasked, hr.2⟩
    | ok found =>
      obtain ⟨j, f, hload, hf, ht'⟩ := hr
      simp only [Operation.ensures_pure, ht']
      exact ⟨rfl, hasked, j, f, hload, hf, rfl⟩

theorem enterInspect_ensures (hp : p.Honours C) (he : Sound C t.machine) :
    (enterInspect p).Ensures t fun r t' =>
      t.machine.Yields C True (t.machine.Endangered C) (t.machine.Visits C) r t'.machine := by
  by_cases hstate : t.machine.state = .review
  · obtain ⟨s, ht, -, -, hs, -⟩ := he.review hstate
    cases hindex : s.itemIndex? with
    | none =>
      rw [enterInspect, Loader.enterInspect]
      simp only [Operation.ensures_bind, Operation.ensures_machine, hstate, ne_eq,
        not_true_eq_false, ↓reduceIte, ensures_getSession ht, hindex, Operation.ensures_throw]
      exact Or.inl ⟨rfl, trivial, by decide⟩
    | some index =>
      have hat := hs.itemIndex?_eq_some_iff.1 hindex
      refine (enterInspect_goesInto hp he hstate ht hat).mono fun r t' hr => ?_
      cases r with
      | error cause =>
        rcases hr with ⟨hsame, -, rfl⟩ | ⟨haborted, hasked, hfails⟩
        · exact Or.inl ⟨hsame, trivial, by decide⟩
        · exact Or.inr ⟨haborted, .enter hstate ht hat hasked hfails⟩
      | ok out =>
        obtain ⟨rfl, hasked, j, f, hload, hf, ht'⟩ := hr
        rw [ht']
        exact .enter hstate ht hat hasked hload hf
  · rw [enterInspect, Loader.enterInspect]
    simp only [Operation.ensures_bind, Operation.ensures_machine, ne_eq, hstate, not_false_eq_true,
      ↓reduceIte, Operation.ensures_throw]
    exact Or.inl ⟨rfl, trivial, by decide⟩

theorem descend_goesInto {i' : Inspection} {child : UInt8} (hp : p.Honours C)
    (he : Sound C t.machine) (hins : t.machine.Inspects s i) (hchild : i.childIndex = some child)
    (hdepth : i.depth.toNat < maxDepth) (henter : i.enter child = .ok i') :
    (descend p).Ensures t fun r t' =>
      t.machine.GoesInto C s i.chain child i' r t'.machine := by
  obtain ⟨root, -, hstands⟩ := he.of_inspects hins
  have hasked := hp.canInspect i.chain child t.content
  obtain ⟨i'', henter', hfits, -⟩ := hstands.fits.enter hchild hdepth
  cases henter.symm.trans henter'
  have hstate : { t.machine with state := .inspect } = t.machine := by rw [← hins.state]
  rw [descend, Loader.descend]
  simp only [Operation.ensures_bind, Operation.ensures_machine, hins.state, ne_eq,
    not_true_eq_false, ↓reduceIte, ensures_getInspection hins.session hins.inspection, hchild,
    Inspection.descend, if_neg (Nat.not_le.2 hdepth), Operation.ensures_liftM, hstands.fits.trace,
    Except.ok.injEq, exists_eq_left', Operation.ensures_ask]
  cases hcan : (p.canInspect i.chain child t.content).1 with
  | false =>
    rw [hcan] at hasked
    simp only [Bool.false_eq_true, ↓reduceIte, Operation.ensures_throw]
    exact Or.inl ⟨rfl, hasked, rfl⟩
  | true =>
    rw [hcan] at hasked
    simp only [↓reduceIte, Operation.ensures_liftM, henter, Except.ok.injEq, exists_eq_left',
      ensures_setInspection, hfits.trace, Operation.ensures_note,
      hins.session, Option.map_some]
    refine Operation.Ensures.mono
      (loadChild_forward (s := s) hp hfits he.config rfl he.field) fun r t' hr => ?_
    cases r with
    | error cause => exact Or.inr ⟨hr.1.congr rfl rfl, hasked, hr.2⟩
    | ok found =>
      obtain ⟨j, f, hload, hf, ht'⟩ := hr
      simp only [Operation.ensures_pure, ht']
      exact ⟨rfl, hasked, j, f, hload, hf, by rw [hstate]; rfl⟩

theorem descend_ensures (hp : p.Honours C) (he : Sound C t.machine) :
    (descend p).Ensures t fun r t' =>
      t.machine.Yields C True (t.machine.Endangered C) (t.machine.Visits C) r t'.machine := by
  by_cases hstate : t.machine.state = .inspect
  · obtain ⟨s, i, root, f, hins, -, -, -, hstands⟩ := he.inspect hstate
    have hrefused (cause : Error) (hcause : cause ∈ refusals) (h : (descend p).Ensures t fun r t' =>
        r = .error cause ∧ t' = t) : (descend p).Ensures t fun r t' =>
        t.machine.Yields C True (t.machine.Endangered C) (t.machine.Visits C) r t'.machine := by
      refine h.mono fun r t' hr => ?_
      obtain ⟨rfl, rfl⟩ := hr
      exact Or.inl ⟨rfl, trivial, hcause⟩
    cases hchild : i.childIndex with
    | none =>
      refine hrefused .invalidState (by decide) ?_
      rw [descend, Loader.descend]
      simp [hstate, ensures_getInspection hins.session hins.inspection, hchild]
    | some child =>
      by_cases hdepth : i.depth.toNat < maxDepth
      · obtain ⟨i', henter, -⟩ := hstands.fits.enter hchild hdepth
        refine (descend_goesInto hp he hins hchild hdepth henter).mono fun r t' hr => ?_
        cases r with
        | error cause =>
          rcases hr with ⟨hsame, -, rfl⟩ | ⟨haborted, hasked, hfails⟩
          · exact Or.inl ⟨hsame, trivial, by decide⟩
          · exact Or.inr ⟨haborted, .descend hins hasked henter hfails⟩
        | ok out =>
          obtain ⟨rfl, hasked, j, f, hload, hf, ht'⟩ := hr
          have hself : { t.machine with state := .inspect } = t.machine := by rw [← hstate]
          rw [ht', hself]
          exact .descend hins hchild hdepth hasked henter hload hf
      · refine hrefused .maxDepth (by decide) ?_
        rw [descend, Loader.descend]
        simp [hstate, ensures_getInspection hins.session hins.inspection, hchild,
          Inspection.descend, Nat.not_lt.1 hdepth]
  · rw [descend, Loader.descend]
    simp only [Operation.ensures_bind, Operation.ensures_machine, ne_eq, hstate, not_false_eq_true,
      ↓reduceIte, Operation.ensures_throw]
    exact Or.inl ⟨rfl, trivial, by decide⟩

def Leaves (C : Contract config) (e : Engine) (s : Session) : Except Error Output → Engine → Prop
  | .ok out, e' => out = .redraw ∧ ∃ d w,
      { s with inspection := none }.Lands C .forward { s.cursor with page := 0 } d w ∧
      e' = { e with state := .review }.showing { s with inspection := none, cursor := d } w.filled
  | .error _, e' => C.Aborted e e' ∧ C.Fails

theorem exitToRoot_leaves (hp : p.Honours C) (he : Sound C t.machine)
    (hins : t.machine.Inspects s i) :
    (exitToRoot p).Ensures t fun r t' => t.machine.Leaves C s r t'.machine := by
  obtain ⟨root, hat, hstands⟩ := he.of_inspects hins
  obtain ⟨hs, -⟩ := he.runs hins.session
  have hadd : Checked.add8 s.leading i.root = .ok s.cursor.item := by
    rw [Checked.add8_eq_ok_iff, hs.fits.leading, hstands.fits.root, hat.1]
  have hspans : { s with inspection := none }.Spans { s.cursor with page := 0 } :=
    ⟨hs.spans.itemCount, hs.spans.item_lt⟩
  rw [exitToRoot, Loader.exitToRoot]
  simp only [Operation.ensures_bind, Operation.ensures_machine, hins.state, ne_eq,
    not_true_eq_false, ↓reduceIte, ensures_getSession hins.session,
    ensures_getInspection hins.session hins.inspection, Operation.ensures_note,
    Operation.ensures_liftM, hadd, Except.ok.injEq, exists_eq_left', ensures_setSession,
    ensures_setState]
  refine Operation.Ensures.mono (load_forward (s := { s with inspection := none }) hp
    (hs.fits.congr s.cursor none) he.config rfl hspans he.field) fun r t' hr => ?_
  cases r with
  | error cause => exact ⟨hr.1.congr rfl rfl, hr.2⟩
  | ok found =>
    obtain ⟨-, d, w, hland, ht'⟩ := hr
    simp only [Operation.ensures_pure, ht']
    exact ⟨rfl, d, w, hland, rfl⟩

theorem exitToRoot_ensures (hp : p.Honours C) (he : Sound C t.machine) :
    (exitToRoot p).Ensures t fun r t' =>
      t.machine.Yields C (t.machine.state ≠ .inspect) (t.machine.Endangered C)
        (t.machine.Visits C) r t'.machine := by
  by_cases hstate : t.machine.state = .inspect
  · obtain ⟨s, i, root, f, hins, -⟩ := he.inspect hstate
    refine (exitToRoot_leaves hp he hins).mono fun r t' hr => ?_
    cases r with
    | error cause => exact Or.inr ⟨hr.1, .list hins.session hr.2⟩
    | ok out =>
      obtain ⟨rfl, d, w, hland, ht'⟩ := hr
      rw [ht']
      exact .leave hins hland
  · rw [exitToRoot, Loader.exitToRoot]
    simp only [Operation.ensures_bind, Operation.ensures_machine, ne_eq, hstate, not_false_eq_true,
      ↓reduceIte, Operation.ensures_throw]
    exact Or.inl ⟨rfl, trivial, by decide⟩

theorem exitLevel_ascends {i' : Inspection} (hp : p.Honours C) (he : Sound C t.machine)
    (hins : t.machine.Inspects s i) (hascend : i.ascend = .ok (some i')) :
    (exitLevel p).Ensures t fun r t' => match r with
      | .ok out => out = .redraw ∧ ∃ j f, i'.Loads C j f ∧ C.field f ∧
          t'.machine = t.machine.inspecting s j f
      | .error _ => C.Aborted t.machine t'.machine ∧ FailsBelow C i'.chain := by
  obtain ⟨root, -, hstands⟩ := he.of_inspects hins
  rcases hstands.fits.ascend with ⟨hnone, -⟩ | ⟨i'', hascend', hfits, -, -⟩
  · cases hascend.symm.trans hnone
  cases hascend.symm.trans hascend'
  rw [exitLevel, Loader.exitLevel]
  simp only [Operation.ensures_bind, Operation.ensures_machine, hins.state, ne_eq,
    not_true_eq_false, ↓reduceIte, ensures_getInspection hins.session hins.inspection,
    Operation.ensures_liftM]
  simp only [hascend, Except.ok.injEq, exists_eq_left', Operation.ensures_bind,
    ensures_setInspection, Operation.ensures_liftM, hfits.trace, Operation.ensures_note,
    hins.session, Option.map_some]
  refine Operation.Ensures.mono
    (loadChild_forward (s := s) hp hfits he.config rfl he.field) fun r t' hr => ?_
  cases r with
  | error cause => exact ⟨hr.1.congr rfl rfl, hr.2⟩
  | ok found =>
    obtain ⟨j, f, hload, hf, ht'⟩ := hr
    exact Operation.ensures_pure.2 ⟨rfl, j, f, hload, hf, ht'⟩

/-- The way up leads to the level above, or out. Only a level that it comes to can have the review
aborted, or else the list. -/
theorem exitLevel_climbs (hp : p.Honours C) (he : Sound C t.machine)
    (hins : t.machine.Inspects s i) :
    (exitLevel p).Ensures t fun r t' => match r with
      | .ok out => t.machine.Visits C out t'.machine
      | .error _ => C.Aborted t.machine t'.machine ∧
          (C.Fails ∨ ∃ i', i.ascend = .ok (some i') ∧ FailsBelow C i'.chain) := by
  obtain ⟨root, -, hstands⟩ := he.of_inspects hins
  rcases hstands.fits.ascend with ⟨hascend, -⟩ | ⟨i', hascend, -⟩
  · rw [exitLevel, Loader.exitLevel]
    simp only [Operation.ensures_bind, Operation.ensures_machine, hins.state, ne_eq,
      not_true_eq_false, ↓reduceIte, ensures_getInspection hins.session hins.inspection,
      Operation.ensures_liftM, hascend, Except.ok.injEq, exists_eq_left']
    refine (exitToRoot_leaves hp he hins).mono fun r t' hr => ?_
    cases r with
    | error cause => exact ⟨hr.1, Or.inl hr.2⟩
    | ok out =>
      obtain ⟨rfl, d, w, hland, ht'⟩ := hr
      rw [ht']
      exact .leave hins hland
  · refine (exitLevel_ascends hp he hins hascend).mono fun r t' hr => ?_
    cases r with
    | error cause => exact ⟨hr.1, Or.inr ⟨i', hascend, hr.2⟩⟩
    | ok out =>
      obtain ⟨rfl, j, f, hload, hf, ht'⟩ := hr
      rw [ht']
      exact .ascend hins hascend hload hf

theorem exitLevel_ensures (hp : p.Honours C) (he : Sound C t.machine) :
    (exitLevel p).Ensures t fun r t' =>
      t.machine.Yields C (t.machine.state ≠ .inspect) (t.machine.Endangered C)
        (t.machine.Visits C) r t'.machine := by
  by_cases hstate : t.machine.state = .inspect
  · obtain ⟨s, i, root, f, hins, -⟩ := he.inspect hstate
    refine (exitLevel_climbs hp he hins).mono fun r t' hr => ?_
    cases r with
    | ok out => exact hr
    | error cause =>
      obtain ⟨haborted, hfails | ⟨i', hascend, hfails⟩⟩ := hr
      · exact Or.inr ⟨haborted, .list hins.session hfails⟩
      · exact Or.inr ⟨haborted, .ascend hins hascend hfails⟩
  · rw [exitLevel, Loader.exitLevel]
    simp only [Operation.ensures_bind, Operation.ensures_machine, ne_eq, hstate, not_false_eq_true,
      ↓reduceIte, Operation.ensures_throw]
    exact Or.inl ⟨rfl, trivial, by decide⟩

/-- A step in a direction of travel: there is none, or it comes to a screen, or it finds none and
the screen before is loaded again. -/
inductive Treads (C : Contract config) (e : Engine) (s : Session) (i : Inspection)
    (dir : Direction) : Output → Engine → Prop
  | stay : (∀ c, ¬i.cursor.Steps 0 dir c) → Treads C e s i dir .none e
  | move {c d : Cursor} {count : UInt8} {w : Field} : i.cursor.Steps 0 dir c →
    C.childCount i.chain (.ok count) →
    { i with cursor := c }.Lands C dir ({ i with cursor := c }.recounted count) d w →
    Treads C e s i dir .redraw (e.inspecting s { i with cursor := d } w.filled)
  | miss {j : Inspection} {c d : Cursor} {count : UInt8} {w f : Field} : i.cursor.Steps 0 dir c →
    C.childCount i.chain (.ok count) →
    { i with cursor := c }.Misses C dir ({ i with cursor := c }.recounted count) d w →
    i.Loads C j f → C.field f → Treads C e s i dir .none (e.inspecting s j f)

theorem Treads.visits {dir : Direction} (hins : e.Inspects s i) (h : Treads C e s i dir out e') :
    Visits C e out e' := by
  cases h with
  | stay hno => exact .stay hins hno
  | move hstep hcount hland => exact .move hins hstep hcount hland
  | miss hstep hcount hmiss hload hf => exact .miss hins hstep hcount hmiss hload hf

theorem inspectStep_treads {dir : Direction} (hp : p.Honours C) (he : Sound C t.machine)
    (hins : t.machine.Inspects s i) :
    (inspectStep p dir).Ensures t fun r t' => match r with
      | .ok out => Treads C t.machine s i dir out t'.machine
      | .error _ => C.Aborted t.machine t'.machine ∧ FailsBelow C i.chain := by
  obtain ⟨root, -, hstands⟩ := he.of_inspects hins
  have hcount : i.cursor.itemCount.toNat + (0 : UInt8).toNat ≤ 255 :=
    Nat.le_of_lt_succ i.cursor.itemCount.toNat_lt
  rw [inspectStep, Loader.inspectStep]
  simp only [Operation.ensures_bind, ensures_getInspection hins.session hins.inspection,
    Operation.ensures_liftM]
  rcases Cursor.stepped_cases hcount dir with ⟨hnone, hno⟩ | ⟨c, hsome, hstep⟩
  · rw [hnone]
    simp only [Except.ok.injEq, exists_eq_left', Operation.ensures_pure]
    exact .stay hno
  · rw [hsome]
    simp only [Except.ok.injEq, exists_eq_left', Operation.ensures_bind, ensures_setInspection,
      hins.session, Option.map_some]
    refine Operation.Ensures.mono (loadChild_ensures (s := s) (i := { i with cursor := c }) hp
      (hstands.fits.withCursor c) he.config rfl he.field) fun r t' hr => ?_
    cases r with
    | error cause => exact ⟨hr.1.congr rfl rfl, hr.2⟩
    | ok found =>
      cases found with
      | true =>
        obtain ⟨count, d, w, hcount, hland, ht'⟩ := hr
        simp only [↓reduceIte, Operation.ensures_pure, ht']
        exact .move hstep hcount hland
      | false =>
        -- No screen on the way: the cursor is put back, and the children are counted once more.
        obtain ⟨count, d, w, hcount, hmiss, hw, ht'⟩ := hr
        have hses : t'.machine.session =
            some { s with inspection := some { i with cursor := d } } := by rw [ht']; rfl
        simp only [Bool.false_eq_true, ↓reduceIte, Operation.ensures_bind,
          ensures_getInspection hses rfl, ensures_setInspection, hses, Option.map_some]
        refine Operation.Ensures.mono
          (loadChild_forward (s := s) hp hstands.fits ?_ rfl ?_) fun r t'' hr => ?_
        · rw [ht']
          exact he.config
        · rw [ht']
          exact C.field_filled hw
        · cases r with
          | error cause =>
            rw [ht'] at hr
            exact ⟨hr.1.congr rfl rfl, hr.2⟩
          | ok found =>
            obtain ⟨j, f, hload, hf, ht''⟩ := hr
            simp only [Operation.ensures_pure, ht'', ht']
            exact .miss hstep hcount hmiss hload hf

theorem inspectStep_ensures {dir : Direction} (hp : p.Honours C) (he : Sound C t.machine)
    (hstate : t.machine.state = .inspect) :
    (inspectStep p dir).Ensures t fun r t' =>
      t.machine.Yields C False (t.machine.Endangered C) (t.machine.Visits C) r t'.machine := by
  obtain ⟨s, i, root, f, hins, -⟩ := he.inspect hstate
  refine (inspectStep_treads hp he hins).mono fun r t' hr => ?_
  cases r with
  | error cause => exact Or.inr ⟨hr.1, .within hins hr.2⟩
  | ok out => exact hr.visits hins

theorem sound_of_visits (he : Sound C e) (h : Visits C e out e') : Sound C e' := by
  have hinspecting {s : Session} {i j : Inspection} {f : Field} (hi : e.Inspects s i)
      (hj : ∀ root, i.Stands C root e.field → j.Stands C root f) (hf : C.field f) :
      Sound C (e.inspecting s j f) := by
    obtain ⟨root, hat, hstands⟩ := he.of_inspects hi
    obtain ⟨hruns, g, hshows⟩ := he.runs hi.session
    have h1 := sound_inspecting he.config hruns hshows hat (hj root hstands) hf
    rwa [← hi.state] at h1
  cases h with
  | enter hstate hs hat _ hload hf =>
    obtain ⟨hruns, g, hshows⟩ := he.runs hs
    exact sound_inspecting he.config hruns hshows hat
      (hload.stands (Inspection.fits_start _) UInt8.zero_lt_one) hf
  | descend hi hchild hdepth _ henter hload hf =>
    refine hinspecting hi (fun root hstands => ?_) hf
    obtain ⟨i', henter', hfits, hcursor, -⟩ := hstands.fits.enter hchild hdepth
    cases henter.symm.trans henter'
    exact hload.stands hfits (by rw [hcursor]; exact UInt8.zero_lt_one)
  | ascend hi hascend hload hf =>
    refine hinspecting hi (fun root hstands => ?_) hf
    rcases hstands.fits.ascend with ⟨hnone, -⟩ | ⟨i', hascend', hfits, -, hpage⟩
    · cases hascend.symm.trans hnone
    · cases hascend.symm.trans hascend'
      exact hload.stands hfits hpage
  | @leave s _ _ _ hi hland =>
    obtain ⟨hruns, -⟩ := he.runs hi.session
    have hspans : { s with inspection := none }.Spans { s.cursor with page := 0 } :=
      ⟨hruns.spans.itemCount, hruns.spans.item_lt⟩
    exact sound_showing he.config (hruns.fits.congr s.cursor none) hspans rfl hland
  | stay => exact he
  | @move _ _ _ _ _ _ w hi _ hcount hland =>
    have hw : C.field w := by
      obtain ⟨c, -, hrest, -⟩ := hland
      exact hrest.field
    exact hinspecting hi (fun root hstands => hland.stands (hstands.fits.withCursor _) hcount)
      (C.field_filled hw)
  | miss hi _ _ _ hload hf =>
    exact hinspecting hi (fun root hstands => hload.stands hstands.fits hstands.page_lt) hf

end Engine
end WalletReview
