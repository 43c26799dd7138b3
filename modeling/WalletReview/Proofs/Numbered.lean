import WalletReview.Proofs.Browsing

/-! Levels with more children than a cursor can number. An inspection goes through as many of them
as can be numbered beside the screens that lead away, as if there were no others, so that its list
of such a level lacks the last children. -/
namespace WalletReview

open Engine (Direction)

variable {σ : Type} {config : Config} {C : Contract config} {x : Content} {layout : InspectLayout}
  {path : List UInt8} {child count : UInt8}

namespace InspectLayout

/-- As many of `count` children as can be numbered. -/
def numbered (layout : InspectLayout) (count : UInt8) : UInt8 :=
  .ofNat (min count.toNat (255 - layout.extra.toNat))

theorem toNat_numbered (layout : InspectLayout) (count : UInt8) :
    (layout.numbered count).toNat = min count.toNat (255 - layout.extra.toNat) := by
  rw [numbered, UInt8.toNat_ofNat', Nat.mod_eq_of_lt]
  have := count.toNat_lt
  omega

theorem lt_numbered_iff :
    child < layout.numbered count ↔ child < count ∧ (layout = .bracketed → child < 253) := by
  have hcount := count.toNat_lt
  simp only [UInt8.lt_iff_toNat_lt, toNat_numbered, Nat.lt_min]
  cases layout with
  | native =>
    simp [extra]
    omega
  | bracketed => simp [extra]

end InspectLayout

namespace Content

/-- The content as far as the children of each level can be numbered. -/
def numbered (x : Content) (layout : InspectLayout) : Content :=
  { x with childCount := fun path => layout.numbered (x.childCount path) }

theorem listed_numbered (h : child < (x.numbered layout).childCount path)
    (hpages : x.childPages path child ≠ 0) : (x.numbered layout).Listed path layout := by
  cases layout with
  | native => exact ⟨child, h, hpages⟩
  | bracketed =>
    change (InspectLayout.bracketed.numbered _).toNat ≤ 253
    rw [InspectLayout.toNat_numbered]
    exact Nat.min_le_right _ _

theorem exists_level_child (layout : InspectLayout) (hlt : child < x.childCount path)
    (hpages : x.childPages path child ≠ 0) :
    ∃ k : Nat, (x.level path layout)[k]? =
      some (.child (path.length - 1).toUInt8 child 0) := by
  have hpos : 0 < (x.childPages path child).toNat :=
    Nat.pos_of_ne_zero fun h => hpages (UInt8.toNat_inj.1 h)
  have hblock := getElem?_blocks_child layout hlt
  rw [← flatten_blocks]
  refine ⟨_, (Blocks.getElem?_flatten hblock (by simpa [childBlock] using hpos)).trans ?_⟩
  simp [childBlock, hpos]

end Content

namespace Contract

def numbered (C : Contract config) : Contract config :=
  { C with
    childCount := fun path r => ∃ count, C.childCount path (.ok count) ∧
      r = .ok (config.inspectLayout.numbered count) }

theorem Counts.numbered (h : C.Counts x) : C.numbered.Counts (x.numbered config.inspectLayout) where
  childCount path count hcount := by
    obtain ⟨counted, hcounted, hcount⟩ := hcount
    cases hcount
    rw [h.childCount path counted hcounted]
    rfl
  child := h.child

end Contract

namespace Inspection

variable {i j : Inspection} {root : UInt8} {c d : Cursor} {f w : Field} {dir : Direction} {k : Nat}

/-- The children that cannot be numbered do not count. -/
theorem recounted_numbered (i : Inspection) (count : UInt8) :
    i.recounted (i.layout.numbered count) = i.recounted count := by
  simp only [recounted, setChildCount, InspectLayout.toNat_numbered, Nat.min_assoc, Nat.min_self]

theorem Rests.numbered (h : i.Rests C c d w) : i.Rests C.numbered c d w := by
  cases h with
  | marker hmarker hw => exact .marker hmarker hw
  | vacant hmarker hchild hw => exact .vacant hmarker hchild hw
  | child hmarker hchild hturn hw => exact .child hmarker hchild hturn hw

theorem Lands.numbered (h : i.Lands C dir c d w) : i.Lands C.numbered dir c d w := by
  obtain ⟨c', hpass, hrest, hwithin⟩ := h
  exact ⟨c', hpass, hrest.numbered, hwithin⟩

theorem Misses.numbered (h : i.Misses C dir c d w) : i.Misses C.numbered dir c d w :=
  ⟨h.passes, h.blank, h.atEnd, h.within⟩

theorem Loads.numbered (h : i.Loads C j f) (hlayout : i.layout = config.inspectLayout) :
    i.Loads C.numbered j f := by
  obtain ⟨count, d, hcount, rfl, w, rfl, hland⟩ := h
  refine ⟨_, d, ⟨count, hcount, rfl⟩, rfl, w, rfl, ?_⟩
  rw [← hlayout, recounted_numbered]
  exact hland.imp Lands.numbered Misses.numbered

theorem Lands.spans (h : i.Lands C dir c d w) (hc : i.Spans x c) : i.Spans x d := by
  obtain ⟨c', hpass, hrest, hwithin⟩ := h
  refine hc.of_within (by rw [hrest.itemCount_eq, hpass.itemCount]) ?_
  rw [Cursor.Within, hrest.item_eq, hrest.itemCount_eq]
  exact hwithin

theorem Stands.childIndex_add_extra_lt (h : i.Stands C root f)
    (hchild : i.childIndex = some child) :
    child.toNat + i.layout.extra.toNat < i.cursor.itemCount.toNat := by
  obtain ⟨count, -, hitemCount⟩ := h.counted
  have hcounted := i.recounted_itemCount count
  rw [← hitemCount] at hcounted
  have hplaces := i.toNat_childCount
  have hnumbers : i.Numbers i.childCount := ⟨h.within, by omega⟩
  have hlt := UInt8.lt_iff_toNat_lt.1 (hnumbers.childIndex_lt (isBack_eq_false hchild) hchild)
  omega

theorem Stands.childIndex_lt (h : i.Stands C root f) (hlayout : i.layout = .bracketed)
    (hchild : i.childIndex = some child) : child < 253 := by
  have hlt := h.childIndex_add_extra_lt hchild
  have hbyte := i.cursor.itemCount.toNat_lt
  rw [hlayout] at hlt
  simp only [InspectLayout.extra, UInt8.reduceToNat] at hlt
  have hsmall : child.toNat < 253 := by omega
  exact UInt8.lt_iff_toNat_lt.2 hsmall

def PathNumbered (i : Inspection) : Prop :=
  i.layout = .bracketed → ∀ child ∈ i.chain.tail, child < 253

theorem Loads.pathNumbered (h : i.Loads C j f) (hi : i.PathNumbered) : j.PathNumbered := by
  obtain ⟨count, d, -, rfl, -⟩ := h
  exact hi

end Inspection

namespace Engine

variable {e e' : Engine} {s : Session} {i : Inspection} {root : UInt8} {out : Output} {k : Nat}
  {dir : Direction}

theorem Treads.numbered (h : Treads C e s i dir out e')
    (hlayout : i.layout = config.inspectLayout) : Treads C.numbered e s i dir out e' := by
  cases h with
  | stay hno => exact .stay hno
  | move hstep hcount hland =>
    refine .move hstep ⟨_, hcount, rfl⟩ ?_
    rw [← hlayout, Inspection.recounted_numbered]
    exact hland.numbered
  | @miss _ _ d _ w _ hstep hcount hmiss hload hf =>
    refine .miss (d := d) (w := w) hstep ⟨_, hcount, rfl⟩ ?_ (hload.numbered hlayout) hf
    rw [← hlayout, Inspection.recounted_numbered]
    exact hmiss.numbered

/-- A step on leads to the next screen of the level, if there is one. -/
theorem Treads.next (h : Treads C e s i .forward out e') (hC : C.Counts x) (hat : i.At x k)
    (hmore : k + 1 < (x.level i.chain i.layout).length) :
    ∃ d w, e' = e.inspecting s { i with cursor := d } w ∧ { i with cursor := d }.At x (k + 1) := by
  obtain ⟨hspans, hon, rfl⟩ := hat
  cases h with
  | stay hno =>
    have hends : _ = _ := hspans.ends_of_not_steps hon hno
    omega
  | @move c d count w hstep hcount hland =>
    have hcomes := hspans.comes_of_step hC hstep hcount hland
    have hc := hspans.of_steps hstep
    have hd : Inspection.Spans x { i with cursor := c } d := by
      cases hC.childCount _ _ hcount
      rw [hc.recounted_eq] at hland
      exact hland.spans (hc.withCursor c)
    exact ⟨d, _, rfl, hd.withCursor d, hcomes.on, hcomes.rank_next hon hstep⟩
  | miss hstep hcount hmiss =>
    have hends : _ = _ := hspans.ends_of_misses hon hC hstep hcount hmiss
    omega

theorem pathNumbered_of_visits (he : Sound C e) (hnumbered : e.Inspected Inspection.PathNumbered)
    (h : Visits C e out e') : e'.Inspected Inspection.PathNumbered := by
  cases h with
  | enter _ _ _ _ hload =>
    refine inspected_inspecting (hload.pathNumbered fun _ child hchild => ?_)
    cases hchild
  | @descend s i i' j child f hi hchild hdepth _ henter hload =>
    obtain ⟨root, -, hstands⟩ := he.of_inspects hi
    obtain ⟨i'', henter', hfits, -⟩ := hstands.fits.enter hchild hdepth
    cases henter.symm.trans henter'
    refine inspected_inspecting (hload.pathNumbered fun hlayout => ?_)
    have hlayout' : i.layout = .bracketed :=
      hstands.fits.layout.trans (hfits.layout.symm.trans hlayout)
    rw [Inspection.chain_of_enter henter, List.tail_append_of_ne_nil i.chain_ne_nil]
    exact List.forall_mem_append.2 ⟨hnumbered s i hi hlayout',
      List.forall_mem_singleton.2 (hstands.childIndex_lt hlayout' hchild)⟩
  | @ascend s i i' j f hi hascend hload =>
    obtain ⟨child, hchain, -, hlayout, -⟩ := Inspection.of_ascend hascend
    refine inspected_inspecting (hload.pathNumbered fun hbracketed => ?_)
    have hall := hnumbered s i hi (hlayout.symm.trans hbracketed)
    rw [hchain, List.tail_append_of_ne_nil i'.chain_ne_nil] at hall
    exact (List.forall_mem_append.1 hall).1
  | leave => exact inspected_of_state (state_showing_ne_inspect _ _ _)
  | stay => exact hnumbered
  | @move s i _ _ _ _ _ hi =>
    have hpath := hnumbered s i hi
    exact inspected_inspecting hpath
  | miss hi _ _ _ hload => exact inspected_inspecting (hload.pathNumbered (hnumbered _ _ hi))

/-- In every run, the children that are gone into and the one on screen are numbered. -/
theorem Run.numbered {p : Provider σ} {steps : List Step} {t : Sitting Engine σ}
    (h : Run p config steps t) (hi : t.machine.Inspects s i)
    (hlayout : config.inspectLayout = .bracketed) {depth page : UInt8}
    (hposition : t.machine.position = .child depth child page) :
    ∀ c ∈ i.chain.tail ++ [child], c < 253 := by
  have hp := Contract.honours_any p config
  obtain ⟨root, -, hstands⟩ := (h.sound hp trivial).of_inspects hi
  have hbracketed := hstands.fits.layout.trans hlayout
  have hpath := h.inspected hp trivial (fun _ _ _ => pathNumbered_of_visits) s i hi hbracketed
  refine List.forall_mem_append.2 ⟨hpath, List.forall_mem_singleton.2 ?_⟩
  rw [hi.position, inspectPosition] at hposition
  split at hposition
  · rename_i child' hchild
    cases hposition
    exact hstands.childIndex_lt hbracketed hchild
  · -- Where there is no child, the position has the number of the first.
    split at hposition
    · cases hposition
    · split at hposition <;> cases hposition
      decide

end Engine
end WalletReview
