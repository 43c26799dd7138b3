import WalletReview.Proofs.Nesting
import WalletReview.Proofs.Numbered

/-! Children without pages. They are passed over in the direction of travel, so that a child on
screen has the page that is shown, except where there is nothing else to come to: on a level whose
children are all empty, with no screens around them, the cursor is left on the last of them. -/
namespace WalletReview

variable {σ : Type} {config : Config} {C : Contract config} {x : Content} {p : Provider σ}
  {leave : List UInt8 → UInt8 → Bool}

namespace Content

/-- Nothing of the level at the end of a path can be shown. -/
structure Vacant (x : Content) (path : List UInt8) (layout : InspectLayout) : Prop where
  layout : layout = .native
  childPages : ∀ child < x.childCount path, x.childPages path child = 0

/-- Without screens around its children, a level has a screen or is vacant. -/
theorem listed_or_vacant (x : Content) (path : List UInt8) :
    x.Listed path .native ∨ x.Vacant path .native := by
  by_cases h : x.Listed path .native
  · exact Or.inl h
  · refine Or.inr ⟨rfl, fun child hchild => ?_⟩
    by_contra hpages
    exact h ⟨child, hchild, hpages⟩

end Content

/-- One item with children, none of which has pages. -/
def Fixture.hollow : Fixture := { items := [.node 1 [.leaf 0, .leaf 0]] }

namespace Inspection

variable {i : Inspection} {root child : UInt8} {c d : Cursor} {f w : Field}

theorem Stands.childIndex_lt_childCount (h : i.Stands C root f) (hC : C.Counts x)
    (hchild : i.childIndex = some child) : child < x.childCount i.chain := by
  obtain ⟨count, hcount, hitemCount⟩ := h.counted
  have hlt := h.childIndex_add_extra_lt hchild
  rw [hitemCount, recounted_itemCount] at hlt
  rw [← hC.childCount _ _ hcount, UInt8.lt_iff_toNat_lt]
  omega

theorem Rests.page_lt_childPages (h : i.Rests C c d w) (hC : C.Counts x)
    (hchild : { i with cursor := c }.childIndex = some child) :
    d.page < x.childPages i.chain child := by
  cases h with
  | marker hmarker => cases hchild.symm.trans (childIndex_eq_none hmarker)
  | vacant _ hnone => cases hchild.symm.trans hnone
  | child _ hchild' hturn =>
    cases hchild.symm.trans hchild'
    rw [← hC.child _ _ _ _ _ hturn.answered]
    exact hturn.page_lt

/-- On a vacant level no cursor comes to rest on a child. -/
theorem Lands.page_eq_zero_of_vacant {dir : Engine.Direction} {count : UInt8}
    (h : i.Lands C dir (i.recounted count) d w) (hC : C.Counts x) (hi : i.Fits config root)
    (hcount : C.childCount i.chain (.ok count)) (hvacant : x.Vacant i.chain i.layout) :
    d.page = 0 := by
  have hstands := h.stands hi hcount
  obtain ⟨c, -, hrest, -⟩ := h
  cases hindex : { i with cursor := d }.childIndex with
  | none =>
    cases hrest with
    | marker => rfl
    | vacant => rfl
    | child _ hchild hturn =>
      obtain ⟨-, -, hsame⟩ := markers_eq (i := { i with cursor := c }) hturn.item hturn.itemCount
      cases hindex.symm.trans (hsame.trans hchild)
  | some child =>
    obtain ⟨-, -, hsame⟩ :=
      markers_eq (i := { i with cursor := c }) hrest.item_eq hrest.itemCount_eq
    have hlt := hrest.page_lt_childPages hC (hsame.symm.trans hindex)
    rw [hvacant.childPages child (hstands.childIndex_lt_childCount hC hindex)] at hlt
    exact absurd hlt UInt8.not_lt_zero

/-- The page shown of a child is one that the child has, or else the level is vacant and the child
its last. -/
theorem Stands.page_lt_childPages (h : i.Stands C root f) (hC : C.Counts x)
    (hcourse : i.OnCourse x leave) (hchild : i.childIndex = some child) :
    i.cursor.page < x.childPages i.chain child ∨
      x.Vacant i.chain i.layout ∧ child.toNat + 1 = (x.childCount i.chain).toNat := by
  rcases h.shown with ⟨c, w, hrest, -⟩ | ⟨hend, w, ⟨child', hchild', hanswer⟩, -⟩
  · obtain ⟨-, -, hsame⟩ := markers_eq (i := i) hrest.item_eq.symm hrest.itemCount_eq.symm
    exact Or.inl (hrest.page_lt_childPages hC (hsame.trans hchild))
  · right
    cases hchild.symm.trans hchild'
    have hzero := hC.child _ _ _ _ _ hanswer
    have hplace := h.childIndex_add_extra_lt hchild
    have hitem := item_of_childIndex hchild
    have hlt := UInt8.lt_iff_toNat_lt.1 (h.childIndex_lt_childCount hC hchild)
    rw [Cursor.AtEnd] at hend
    cases hlayout : i.layout with
    | bracketed =>
      -- The last place of the list leads back, and no child is on it.
      simp only [hlayout, InspectLayout.extra, UInt8.reduceToNat] at hplace hitem
      omega
    | native =>
      rw [hlayout] at hitem
      obtain ⟨count, hcount, hitemCount⟩ := h.counted
      have hcounted := i.recounted_itemCount count
      rw [← hitemCount, hC.childCount _ _ hcount, hlayout] at hcounted
      have hbyte := (x.childCount i.chain).toNat_lt
      simp only [InspectLayout.extra, UInt8.reduceToNat] at hcounted hitem
      rcases x.listed_or_vacant i.chain with hlisted | hvacant
      · rw [← hlayout] at hlisted
        exact absurd hzero.symm
          ((h.spans hC hlisted).childPages_ne_zero (hcourse.on hlisted) hchild).2
      · exact ⟨hvacant, by omega⟩

end Inspection

namespace Engine

variable {e e' : Engine} {s : Session} {i : Inspection} {root child depth page : UInt8}
  {out : Output} {steps : List Step} {t : Sitting Engine σ}

theorem page_eq_zero_of_visits (hC : C.Counts x) (he : Sound C e)
    (hfirst : e.Inspected fun i => x.Vacant i.chain i.layout → i.cursor.page = 0)
    (h : Visits C e out e') :
    e'.Inspected fun i => x.Vacant i.chain i.layout → i.cursor.page = 0 := by
  cases h with
  | enter _ _ _ _ hload => exact inspected_inspecting fun _ => hload.page_eq_zero rfl
  | @descend s i i' j child f hi hchild hdepth _ henter hload =>
    obtain ⟨root, -, hstands⟩ := he.of_inspects hi
    obtain ⟨i'', henter', -, hcursor, -⟩ := hstands.fits.enter hchild hdepth
    cases henter.symm.trans henter'
    exact inspected_inspecting fun _ => hload.page_eq_zero (by rw [hcursor]; rfl)
  | ascend _ hascend hload =>
    obtain ⟨_, -, -, -, hpage, -⟩ := Inspection.of_ascend hascend
    exact inspected_inspecting fun _ => hload.page_eq_zero hpage
  | leave => exact inspected_of_state (state_showing_ne_inspect _ _ _)
  | stay => exact hfirst
  | @move s i dir c d count w hi _ hcount hland =>
    obtain ⟨root, -, hstands⟩ := he.of_inspects hi
    exact inspected_inspecting fun hvacant =>
      hland.page_eq_zero_of_vacant hC (hstands.fits.withCursor c) hcount hvacant
  | @miss s i j dir c d count w f hi _ _ _ hload =>
    refine inspected_inspecting fun hvacant => hload.page_eq_zero (hfirst s i hi ?_)
    obtain ⟨_, d, -, rfl, -⟩ := hload
    exact hvacant

/-- In every run, a child on screen is one of those of its level, and has the page that is shown, or
else the level is vacant, and its last child is on screen. -/
theorem paged_of_run (hp : p.Nested config x leave) (h : Run p config steps t)
    (hi : t.machine.Inspects s i) (hsome : x.childCount i.chain ≠ 0)
    (hposition : t.machine.position = .child depth child page) :
    child < x.childCount i.chain ∧
      (page < x.childPages i.chain child ∨
        x.Vacant i.chain config.inspectLayout ∧
          child.toNat + 1 = (x.childCount i.chain).toNat ∧ page = 0) := by
  have hC : (Contract.nested config x leave).Counts x := Contract.counts_nested
  obtain ⟨root, -, hstands⟩ := (h.sound hp.honours Field.clean_blank).of_inspects hi
  rw [hi.position, inspectPosition] at hposition
  split at hposition
  · rename_i child' hchild
    cases hposition
    refine ⟨hstands.childIndex_lt_childCount hC hchild, ?_⟩
    refine (hstands.page_lt_childPages hC (h.onCourse hp s i hi) hchild).imp_right fun hlast => ?_
    have hfirst := h.inspected hp.honours Field.clean_blank
      (fun _ _ _ => page_eq_zero_of_visits hC) s i hi hlast.1
    exact ⟨hstands.fits.layout ▸ hlast.1, hlast.2, hfirst⟩
  · rename_i hnone
    split at hposition
    · cases hposition
    split at hposition
    · cases hposition
    · rename_i hroot hback
      obtain ⟨root', -, hstands'⟩ := (h.sound hp.presents.honours Field.clean_blank).of_inspects hi
      exact absurd (Inspection.childCount_eq_zero hstands' (by simp [hroot, hback]) hnone) hsome

theorem paged_of_run_gapped : ∃ steps t s i,
    Run (Fixture.provider.fixed .gapped) .stax steps t ∧ t.machine.Inspects s i ∧
      (Fixture.gapped.content .stax).childCount i.chain = 3 ∧
      t.machine.position = .child 0 1 0 ∧
      0 < (Fixture.gapped.content .stax).childPages i.chain 1 := by
  have hacts : ((Action.begin .transaction false none).perform
      (Fixture.provider.fixed .gapped)).Ensures ⟨.start .stax, (), []⟩ fun _ t =>
      (Action.enterInspect.perform (Fixture.provider.fixed .gapped)).Ensures t fun _ t =>
        t.machine.position = .child 0 1 0 ∧ ∃ s i, t.machine.Inspects s i ∧ i.chain = [0] := by
    decide +kernel
  obtain ⟨_, _, hbegin, _, t, henter, hposition, s, i, hi, hchain⟩ := hacts
  have hcount : (Fixture.gapped.content .stax).childCount i.chain = 3 := by rw [hchain]; rfl
  have hrun := Run.act .enterInspect (.act _ (.start ()) hbegin) henter
  refine ⟨_, t, s, i, hrun, hi, hcount, hposition, ?_⟩
  rcases (paged_of_run (Fixture.nested_fixed _ _) hrun hi (by rw [hcount]; decide) hposition).2 with
    hpage | ⟨-, hlast, -⟩
  · exact hpage
  · rw [hcount] at hlast
    exact absurd hlast (by decide)

/-- Where no child has pages, the last comes to be on screen without any. -/
theorem not_paged_hollow : ¬∀ steps t s i depth child page,
    Run (Fixture.provider.fixed .hollow) .stax steps t → t.machine.Inspects s i →
      (Fixture.hollow.content .stax).childCount i.chain ≠ 0 →
      t.machine.position = .child depth child page →
      page < (Fixture.hollow.content .stax).childPages i.chain child := by
  intro hpaged
  have hacts : ((Action.begin .transaction false none).perform
      (Fixture.provider.fixed .hollow)).Ensures ⟨.start .stax, (), []⟩ fun _ t =>
      (Action.enterInspect.perform (Fixture.provider.fixed .hollow)).Ensures t fun r t =>
        r = .ok (.output .redraw) ∧ t.machine.position = .child 0 1 0 ∧
          ∃ s i, t.machine.Inspects s i ∧ i.chain = [0] := by
    decide +kernel
  obtain ⟨_, _, hbegin, _, t, henter, -, hposition, s, i, hi, hchain⟩ := hacts
  have hpage := hpaged _ t s i 0 1 0 (.act .enterInspect (.act _ (.start ()) hbegin) henter) hi
    (by rw [hchain]; decide) hposition
  rw [hchain] at hpage
  exact absurd hpage (by decide)

end Engine
end WalletReview
