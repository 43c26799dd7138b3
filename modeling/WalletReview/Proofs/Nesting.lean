import Mathlib.Control.Monad.Basic
import WalletReview.Proofs.Determined
import WalletReview.Proofs.Unfailing

/-! The levels of an inspection as a stack. Whatever is done below a child, on the way up its level
has the path that it had before, and the cursor is on the first page of the child. From the first
levels the way up leads out, to the item that is inspected. -/
namespace WalletReview

variable {σ : Type} {config : Config} {C : Contract config} {pages : List UInt8} {x : Content}
  {p : Provider σ} {leave : List UInt8 → UInt8 → Bool} {path : List UInt8}

theorem Contract.counts_whole : (Contract.whole config pages x leave).Counts x :=
  have h : (Contract.nested config x leave).Counts x := Contract.counts_nested
  ⟨h.childCount, h.child⟩

namespace Inspection

variable {i j k : Inspection} {root root' child : UInt8} {c d : Cursor} {f g w : Field}

theorem Fits.path_eq (hi : i.Fits config root) (hj : j.Fits config root')
    (hchain : j.chain = i.chain) : j.depth = i.depth ∧ j.path = i.path := by
  have hdepth : j.depth.toNat = i.depth.toNat := by
    have hlength := length_chain hj.depth
    rw [hchain, length_chain hi.depth] at hlength
    omega
  refine ⟨UInt8.toNat_inj.1 hdepth, Vector.ext fun n hn => ?_⟩
  rcases Nat.lt_or_ge i.depth.toNat n with hlow | hhigh
  · rw [hi.unused n hn hlow, hj.unused n hn (by omega)]
  · have hslot := congrArg (·[n]?) hchain
    simp only [chain, List.getElem?_take, hdepth] at hslot
    rw [if_pos (by omega), if_pos (by omega)] at hslot
    simpa [hn] using hslot

theorem Rests.page_le (h : i.Rests C c d w) : d.page.toNat ≤ c.page.toNat := by
  cases h with
  | marker => exact Nat.zero_le _
  | vacant => exact Nat.zero_le _
  | child _ _ hturn => exact hturn.page_le

theorem Loads.page_eq_zero (h : k.Loads C j g) (hpage : k.cursor.page = 0) : j.cursor.page = 0 := by
  obtain ⟨count, d, -, rfl, w, -, hend⟩ := h
  have hfirst {c : Cursor} (hpass : Cursor.Passes (k.Empty C) .forward (k.recounted count) c) :
      c.page = 0 := by
    rcases hpass.page with rfl | ⟨-, hc⟩
    · exact hpage
    · exact hc
  rcases hend with ⟨c, hpass, hrest, -⟩ | hmiss
  · have hle := hrest.page_le
    rw [hfirst hpass] at hle
    exact UInt8.toNat_inj.1 (Nat.le_zero.1 hle)
  · exact hfirst hmiss.passes

theorem item_of_childIndex (h : i.childIndex = some child) : i.cursor.item.toNat =
    match i.layout with
    | .bracketed => child.toNat + 1
    | .native => child.toNat := by
  cases hlayout : i.layout with
  | native =>
    simp only [childIndex, hlayout] at h
    split at h
    · cases h
      rfl
    · cases h
  | bracketed =>
    simp only [childIndex, hlayout] at h
    split at h
    · cases h
    · split at h
      · rename_i hone
        cases h
        exact (diff8_one hone).symm
      · cases h

theorem Rests.not_empty_of_counts (h : i.Rests C c d w) (hC : C.Counts x)
    (hchain : k.chain = i.chain) {e : Cursor}
    (hindex : { k with cursor := e }.childIndex = { i with cursor := d }.childIndex) :
    ¬k.Empty C e := by
  obtain ⟨-, -, hsame⟩ := markers_eq (i := { i with cursor := c }) h.item_eq h.itemCount_eq
  rintro ⟨child, w', hchild, hzero⟩
  rw [hindex, hsame] at hchild
  cases h with
  | marker hmarker => cases hchild.symm.trans (childIndex_eq_none hmarker)
  | vacant _ hnone => cases hchild.symm.trans hnone
  | child _ hchild' hturn =>
    cases hchild.symm.trans hchild'
    rw [hchain] at hzero
    have hcount := hC.child _ _ _ _ _ hturn.answered
    exact hturn.pageCount_ne_zero (hcount.trans (hC.child _ _ _ _ _ hzero).symm)

/-- From the first page of the child on screen, loading ends there, be it that the child has pages
or that it is the last of children without any. -/
theorem Loads.resumes (h : k.Loads C j g) (hi : i.Stands C root f) (hC : C.Counts x)
    (hchain : k.chain = i.chain) (hlayout : k.layout = i.layout)
    (hitem : k.cursor.item = i.cursor.item) (hpage : k.cursor.page = 0) :
    j.childIndex = i.childIndex ∧ j.cursor.page = 0 := by
  refine ⟨?_, h.page_eq_zero hpage⟩
  obtain ⟨count, d, hcount, rfl, w, rfl, hend⟩ := h
  obtain ⟨count', hcount', hsame⟩ := hi.counted
  rw [hchain] at hcount
  have heq : count = count' := (hC.childCount _ _ hcount).trans (hC.childCount _ _ hcount').symm
  subst heq
  -- Counted again, the children are as many as before, so that the cursor stays where it is put.
  have hstart : k.recounted count = { k.cursor with itemCount := i.cursor.itemCount } := by
    refine recounted_eq_self (i := { k with
      cursor := { k.cursor with itemCount := i.cursor.itemCount } }) ?_ ?_
    · rw [hsame, ← UInt8.toNat_inj, recounted_itemCount, recounted_itemCount, hlayout]
    · have hwithin := hi.within
      rwa [Cursor.Within, ← hitem] at hwithin
  have hindex (e : Cursor) (he : e.item = i.cursor.item)
      (he' : e.itemCount = i.cursor.itemCount) :
      { k with cursor := e }.childIndex = i.childIndex := by
    rw [← (markers_eq he he').2.2]
    simp only [childIndex, isBack, hlayout]
  rw [hstart] at hend
  have hstay {e : Cursor} (hpass : Cursor.Passes (k.Empty C) .forward
      { k.cursor with itemCount := i.cursor.itemCount } e) (he : e.Within) :
      e = { k.cursor with itemCount := i.cursor.itemCount } := by
    rcases hi.shown with ⟨c, w, hrest, -⟩ | ⟨hend, -⟩
    · exact hpass.eq_of_not_empty (hrest.not_empty_of_counts hC hchain (hindex _ hitem rfl))
    · rw [Cursor.AtEnd, ← hitem] at hend
      exact hpass.eq_of_atEnd hend he
  rcases hend with ⟨e, hpass, hrest, he⟩ | hmiss
  · cases hstay hpass he
    exact hindex d (hrest.item_eq.trans hitem) hrest.itemCount_eq
  · cases hstay hmiss.passes hmiss.within
    exact hindex _ hitem rfl

end Inspection

namespace Engine

variable {e e' : Engine} {s : Session} {i j k : Inspection} {child : UInt8} {f : Field}
  {out : Output} {action : Action} {reply : Except Error Reply}

theorem visits_of_acts (h : Acts C e action reply e') (hstate : e'.state = .inspect) :
    (∃ modes, e' = { e with modes }) ∨ ∃ out, Visits C e out e' := by
  cases h with
  | output h => exact (visits_of_moves h hstate).imp_left fun heq => ⟨e.modes, heq⟩
  | press h => exact (visits_of_moves h hstate).imp_left fun heq => ⟨e.modes, heq⟩
  | shows => cases hstate
  | canDescend => exact Or.inl ⟨e.modes, rfl⟩
  | setModes => exact Or.inl ⟨_, rfl⟩

def Below (path : List UInt8) (e : Engine) : Prop := ∃ s k, e.Inspects s k ∧ path <+: k.chain

/-- The engine inspects something that is further down than `depth`. -/
def Deeper (depth : UInt8) (e : Engine) : Prop := ∃ s k, e.Inspects s k ∧ depth < k.depth

/-- What a visit from below the end of a path comes to: it stays there, or goes up from the end of
the path, or leaves. -/
theorem Below.of_visits (h : e.Below path) (hvisits : Visits C e out e')
    (hstate : e'.state = .inspect) : e'.Below path ∨
      ∃ s k k' j f, e.Inspects s k ∧ k.chain = path ∧ k.ascend = .ok (some k') ∧
        k'.Loads C j f ∧ e' = e.inspecting s j f := by
  obtain ⟨s₀, k₀, hk, hbelow⟩ := h
  have hsame {s : Session} {k : Inspection} (hi : e.Inspects s k) : k = k₀ := by
    cases hi.session.symm.trans hk.session
    exact Option.some_inj.1 (hi.inspection.symm.trans hk.inspection)
  cases hvisits with
  | enter hreview => cases hreview.symm.trans hk.state
  | @descend s i i' j child f hi _ _ _ henter hload =>
    obtain rfl := hsame hi
    obtain ⟨_, d, -, rfl, -⟩ := hload
    have hchain := Inspection.chain_of_enter henter
    refine Or.inl ⟨_, { i' with cursor := d }, ⟨hi.state, rfl, rfl⟩, ?_⟩
    exact hbelow.trans (hchain ▸ List.prefix_append _ _)
  | @ascend s i i' j f hi hascend hload =>
    obtain rfl := hsame hi
    obtain ⟨child, hchain, -⟩ := Inspection.of_ascend hascend
    rcases List.prefix_concat_iff.1 (hchain ▸ hbelow) with hend | hstays
    · exact Or.inr ⟨s, i, i', j, f, hi, hchain.trans hend.symm, hascend, hload, rfl⟩
    · obtain ⟨_, d, -, rfl, -⟩ := hload
      exact Or.inl ⟨_, { i' with cursor := d }, ⟨hi.state, rfl, rfl⟩, hstays⟩
  | leave => exact absurd hstate (state_showing_ne_inspect _ _ _)
  | stay => exact Or.inl ⟨s₀, k₀, hk, hbelow⟩
  | @move s i _ _ d _ w hi =>
    obtain rfl := hsame hi
    exact Or.inl ⟨_, { i with cursor := d }, ⟨hi.state, rfl, rfl⟩, hbelow⟩
  | @miss s i j _ _ _ _ _ f hi _ _ _ hload =>
    obtain rfl := hsame hi
    obtain ⟨_, d, -, rfl, -⟩ := hload
    exact Or.inl ⟨_, { i with cursor := d }, ⟨hi.state, rfl, rfl⟩, hbelow⟩

/-- The engine inspects what `i` does, at the same level, and shows the first page of the child. -/
structure Resumes (i : Inspection) (child : UInt8) (e : Engine) : Prop where
  position : e.position = .child i.depth child 0
  inspects : ∃ s j, e.Inspects s j ∧ j.path = i.path ∧ j.depth = i.depth ∧ j.root = i.root ∧
    j.layout = i.layout

theorem resumes_of_ascend {root : UInt8} {k' : Inspection} {g : Field} (he : Sound C e)
    (hC : C.Counts x) (hi : i.Stands C root f) (hchild : i.childIndex = some child)
    (hk : e.Inspects s k) (hchain : k.chain = i.chain ++ [child])
    (hascend : k.ascend = .ok (some k')) (hload : k'.Loads C j g) :
    Resumes i child (e.inspecting s j g) := by
  obtain ⟨root', -, hstands⟩ := he.of_inspects hk
  obtain ⟨child', hchain', -, hlayout, hpage, hitem⟩ := Inspection.of_ascend hascend
  rw [hchain] at hchain'
  obtain ⟨habove, hlast⟩ := List.append_inj' hchain' rfl
  cases hlast
  have hlayout' : k.layout = i.layout := hstands.fits.layout.trans hi.fits.layout.symm
  have hitem' : k'.cursor.item = i.cursor.item := by
    rw [hlayout'] at hitem
    exact UInt8.toNat_inj.1 (hitem.trans (Inspection.item_of_childIndex hchild).symm)
  obtain ⟨hindex, hfirst⟩ :=
    hload.resumes hi hC habove.symm (hlayout.trans hlayout') hitem' hpage
  rcases hstands.fits.ascend with ⟨hnone, -⟩ | ⟨k'', hascend', hfits, -, hwithin⟩
  · cases hascend.symm.trans hnone
  cases hascend.symm.trans hascend'
  have hj := (hload.stands hfits hwithin).fits
  obtain ⟨_, d, -, rfl, -⟩ := hload
  obtain ⟨hdepth, hpath⟩ := hi.fits.path_eq hj habove.symm
  have hinspects : (e.inspecting s { k' with cursor := d } g).Inspects
      { s with inspection := some { k' with cursor := d } } { k' with cursor := d } :=
    ⟨hk.state, rfl, rfl⟩
  refine ⟨?_, _, _, hinspects, hpath, hdepth, ?_, hj.layout.trans hi.fits.layout.symm⟩
  · rw [hinspects.position, inspectPosition, hindex, hchild, hdepth, hfirst]
  · rw [Inspection.root, hpath, Inspection.root]

theorem Below.withModes (h : e.Below path) (modes : Modes) : Below path { e with modes } := by
  obtain ⟨s, k, hk, hbelow⟩ := h
  exact ⟨s, k, ⟨hk.state, hk.session, hk.inspection⟩, hbelow⟩

section

variable {before during : List Step} {t t₁ t₂ t₃ : Sitting Engine σ}

/-- What an action does below a child: it stays there, or comes up to the child. -/
theorem Below.of_acts {root : UInt8} (h : e.Below (i.chain ++ [child])) (he : Sound C e)
    (hC : C.Counts x) (hi : i.Stands C root f) (hchild : i.childIndex = some child)
    (hacts : Acts C e action reply e') (hstate : e'.state = .inspect) :
    e'.Below (i.chain ++ [child]) ∨ Resumes i child e' := by
  rcases visits_of_acts hacts hstate with ⟨modes, rfl⟩ | ⟨out, hvisits⟩
  · exact Or.inl (h.withModes modes)
  · rcases h.of_visits hvisits hstate with
      hbelow | ⟨s, k, k', j, g, hk, hchain, hascend, hload, rfl⟩
    · exact Or.inl hbelow
    · exact Or.inr (resumes_of_ascend he hC hi hchild hk hchain hascend hload)

theorem Resumes.not_deeper (h : Resumes i child e) : ¬e.Deeper i.depth := by
  rintro ⟨s, k, hk, hdepth⟩
  obtain ⟨s', j, hj, -, heq, -⟩ := h.inspects
  cases hk.session.symm.trans hj.session
  cases hk.inspection.symm.trans hj.inspection
  rw [heq] at hdepth
  exact UInt8.lt_irrefl _ hdepth

theorem Below.deeper (h : e.Below (i.chain ++ [child])) (he : Sound C e) {root : UInt8}
    (hi : i.Stands C root f) : e.Deeper i.depth := by
  obtain ⟨s, k, hk, hbelow⟩ := h
  obtain ⟨root', -, hstands⟩ := he.of_inspects hk
  have hle := hbelow.length_le
  rw [List.length_append, Inspection.length_chain hi.fits.depth,
    Inspection.length_chain hstands.fits.depth, List.length_singleton] at hle
  exact ⟨s, k, hk, UInt8.lt_iff_toNat_lt.2 (by omega)⟩

/-- Whatever stays deeper than the level of a child stays below the child. -/
theorem Course.stays_below {root : UInt8} (hp : p.Honours C)
    (hstart : C.field (start config).field) (hC : C.Counts x) (hrun : Run p config before t)
    (h : Course p t during t₁) (hi : i.Stands C root f) (hchild : i.childIndex = some child)
    (hbelow : t.machine.Below (i.chain ++ [child]))
    (hdeeper : ∀ y ∈ during, y.after.Deeper i.depth) :
    t₁.machine.Below (i.chain ++ [child]) := by
  induction h generalizing before with
  | nil => exact hbelow
  | @cons t t' t'' reply steps action hact _ ih =>
    obtain ⟨hdeep, hrest⟩ := List.forall_mem_cons.1 hdeeper
    have hdeep : t'.machine.Deeper i.depth := hdeep
    obtain ⟨s, k, hk, -⟩ := id hdeep
    refine ih (hrun.act action hact) ?_ hrest
    rcases hbelow.of_acts (hrun.sound hp hstart) hC hi hchild (hrun.acts hp hstart hact) hk.state
      with hstays | hback
    · exact hstays
    · exact absurd hdeep hback.not_deeper

theorem exitLevel_root (hp : p.Constant config pages x) (h : Run p config before t)
    (hi : t.machine.Inspects s i) (hdepth : i.depth ≤ 1) :
    (exitLevel p).Ensures t fun r t' => r = .ok .redraw ∧ t'.machine.state = .review ∧
      t'.machine.position = .item i.root 0 ∧
      t'.machine.session = some { s with
        inspection := none, cursor := { s.cursor with page := 0 } } := by
  have he := h.sound hp.presents.honours Field.clean_blank
  obtain ⟨root, hat, hstands⟩ := he.of_inspects hi
  obtain ⟨hruns, g, hshows⟩ := he.runs hi.session
  obtain ⟨r, t', hact, hleaves, hconstant⟩ :=
    (exitLevel_leaves hp.presents.honours he hi hdepth).and
      (exitLevel_leaves hp.honours (h.constant hp) hi hdepth)
  refine ⟨r, t', hact, ?_⟩
  cases r with
  | error cause => exact absurd hconstant.2 Contract.not_fails_constant
  | ok out =>
    obtain ⟨rfl, d, w, hland, ht'⟩ := hleaves
    obtain rfl := hland.first (hshows.withInspection none) hat
    have hspans : { s with inspection := none }.Spans { s.cursor with page := 0 } :=
      ⟨hruns.spans.itemCount, hruns.spans.item_lt⟩
    have hterminal := (show { s with inspection := none }.AtItem { s.cursor with page := 0 } root
      from hat).not_isTerminal hspans
    rw [showing_of_not_isTerminal hterminal] at ht'
    obtain ⟨steps, hrun⟩ := h.exists_act .exitLevel rfl hact
    have he' := hrun.sound hp.presents.honours Field.clean_blank
    have hs' : t'.machine.session = some { s with
        inspection := none, cursor := { s.cursor with page := 0 } } := by rw [ht']
    have hstate : t'.machine.state = .review := by rw [ht']
    refine ⟨rfl, hstate, ?_, hs'⟩
    rw [hstands.fits.root]
    exact he'.position_eq_item_iff.2 ⟨hstate, _, hs',
      ((he'.runs hs').1.itemIndex?_eq_some_iff).2 hat, rfl⟩

theorem descend_enters (hp : p.Honours C) (he : Sound C t.machine) (hi : t.machine.Inspects s i)
    (hchild : i.childIndex = some child) (hact : descend p t = .ok (.ok out, t₁)) :
    t₁.machine.Below (i.chain ++ [child]) := by
  obtain ⟨root, -, hstands⟩ := he.of_inspects hi
  rcases Nat.lt_or_ge i.depth.toNat maxDepth with hdepth | hlast
  · obtain ⟨i', henter, -⟩ := hstands.fits.enter hchild hdepth
    obtain ⟨-, -, j, f, hload, -, ht₁⟩ :=
      (descend_goesInto hp he hi hchild hdepth henter).of_eq hact
    obtain ⟨_, d, -, rfl, -⟩ := hload
    have hchain := Inspection.chain_of_enter henter
    refine ⟨{ s with inspection := some { i' with cursor := d } }, { i' with cursor := d }, ?_, ?_⟩
    · rw [ht₁]
      exact ⟨rfl, rfl, rfl⟩
    · exact hchain ▸ List.prefix_refl _
  · cases ((descend_below hi hchild hlast).of_eq hact).1

/-- The course of actions goes down from `t` into the child under the cursor of `i`, and stays
deeper than the level of the child. -/
structure Excursion (p : Provider σ) (t : Sitting Engine σ) (i : Inspection) (child : UInt8)
    (during : List Step) (t' : Sitting Engine σ) : Prop where
  childIndex : i.childIndex = some child
  course : ∃ out t₁, descend p t = .ok (.ok out, t₁) ∧ Course p t₁ during t'
  deeper : ∀ y ∈ during, y.after.Deeper i.depth

theorem Excursion.below {root : UInt8} (h : Excursion p t i child during t₁) (hp : p.Honours C)
    (hstart : C.field (start config).field) (hC : C.Counts x) (hrun : Run p config before t)
    (hi : t.machine.Inspects s i) (hstands : i.Stands C root f) :
    (∃ steps, Run p config steps t₁) ∧ t₁.machine.Below (i.chain ++ [child]) := by
  obtain ⟨out, t₀, hdescend, hcourse⟩ := h.course
  obtain ⟨steps, hrun₀⟩ := hrun.exists_act .descend rfl hdescend
  have hbelow := descend_enters hp (hrun.sound hp hstart) hi h.childIndex hdescend
  exact ⟨⟨_, hcourse.run hrun₀⟩,
    hcourse.stays_below hp hstart hC hrun₀ hstands h.childIndex hbelow h.deeper⟩

theorem Below.chain_eq {root : UInt8} (h : e.Below (i.chain ++ [child])) (he : Sound C e)
    (hi : i.Stands C root f) (hk : e.Inspects s k) (hdepth : k.depth.toNat = i.depth.toNat + 1) :
    k.chain = i.chain ++ [child] := by
  obtain ⟨s', k', hk', hbelow⟩ := h
  cases hk.session.symm.trans hk'.session
  cases hk.inspection.symm.trans hk'.inspection
  obtain ⟨root', -, hstands⟩ := he.of_inspects hk
  refine (hbelow.eq_of_length ?_).symm
  rw [List.length_append, Inspection.length_chain hi.fits.depth,
    Inspection.length_chain hstands.fits.depth, List.length_singleton, hdepth]

/-- Below a child of a level that is not the first, and one level further down, the way up comes to
the child. -/
theorem Below.ascends {root : UInt8} (hp : p.Constant config pages x)
    (hnested : p.Nested config x leave) (hrun : Run p config before t)
    (hbelow : t.machine.Below (i.chain ++ [child]))
    (hi : i.Stands (Contract.whole config pages x leave) root f)
    (hchild : i.childIndex = some child) (hlow : 1 ≤ i.depth) (hk : t.machine.Inspects s k)
    (hdepth : k.depth.toNat = i.depth.toNat + 1) :
    (exitLevel p).Ensures t fun r t' => r = .ok .redraw ∧ Resumes i child t'.machine := by
  have hhonours := hp.honours_whole hnested
  have he := hrun.sound hhonours Field.clean_blank
  have hchain := hbelow.chain_eq he hi hk hdepth
  have hreached := (hrun.onCourse hnested s k hk).reached
  rw [hchain] at hreached
  obtain ⟨root', -, hstands⟩ := he.of_inspects hk
  rcases hstands.fits.ascend with ⟨-, hfirst⟩ | ⟨k', hascend, -⟩
  · have hone : 1 ≤ i.depth.toNat := UInt8.le_iff_toNat_le.1 hlow
    omega
  obtain ⟨child', hchain', -⟩ := Inspection.of_ascend hascend
  have habove : i.chain = k'.chain := (List.append_inj' (hchain.symm.trans hchain') rfl).1
  refine (exitLevel_ascends hhonours he hk hascend).mono fun r t' hr => ?_
  cases r with
  | error cause =>
    have hpath := (hreached.of_append i.chain_ne_nil).1.validated
    exact absurd hr.2 (Contract.not_failsBelow_whole (habove ▸ hpath))
  | ok out =>
    obtain ⟨rfl, j, g, hload, -, ht'⟩ := hr
    rw [ht']
    exact ⟨rfl, resumes_of_ascend he Contract.counts_whole hi hchild hk hchain hascend hload⟩

/-- The levels of an inspection are a stack: coming back up to the level of a child, whatever has
been done below it, finds the level as it was left, and the child on its first page. -/
structure Unwinds (p : Provider σ) (t : Sitting Engine σ) (i : Inspection) : Prop where
  shows (child : UInt8) : i.childIndex = some child →
    t.machine.position = .child i.depth child i.cursor.page
  /-- Whichever action comes back to the level. -/
  resumes (child : UInt8) (during : List Step) (action : Action) (reply : Except Error Reply)
    (t₁ t₂ : Sitting Engine σ) : Excursion p t i child during t₁ →
    action.perform p t₁ = .ok (reply, t₂) → t₂.machine.state = .inspect →
    ¬t₂.machine.Deeper i.depth → Resumes i child t₂.machine
  /-- From one level further down, the way up does, unless the level is the first. -/
  ascends (child : UInt8) (during : List Step) (t₁ : Sitting Engine σ) (s : Session)
    (k : Inspection) : 1 ≤ i.depth → Excursion p t i child during t₁ →
    t₁.machine.Inspects s k → k.depth.toNat = i.depth.toNat + 1 →
    (exitLevel p).Ensures t₁ fun r t₂ => r = .ok .redraw ∧ Resumes i child t₂.machine
  leaves : i.depth ≤ 1 → (exitLevel p).Ensures t fun r t' => r = .ok .redraw ∧
    t'.machine.state = .review ∧ t'.machine.position = .item i.root 0

theorem unwinds_of_run (hp : p.Constant config pages x) (hnested : p.Nested config x leave)
    (h : Run p config before t) (hi : t.machine.Inspects s i) : Unwinds p t i := by
  have hhonours := hp.honours_whole hnested
  have hC : (Contract.whole config pages x leave).Counts x := Contract.counts_whole
  obtain ⟨root, -, hstands⟩ := (h.sound hhonours Field.clean_blank).of_inspects hi
  refine ⟨fun child hchild => ?_,
    fun child during action reply t₁ t₂ hexcursion hact hstate hnot => ?_,
    fun child during t₁ s' k hlow hexcursion hk hdepth => ?_, fun hdepth => ?_⟩
  · rw [hi.position, inspectPosition, hchild]
  · obtain ⟨⟨steps, hrun⟩, hbelow⟩ :=
      hexcursion.below hhonours Field.clean_blank hC h hi hstands
    have he' := (hrun.act action hact).sound hhonours Field.clean_blank
    rcases hbelow.of_acts (hrun.sound hhonours Field.clean_blank) hC hstands hexcursion.childIndex
      (hrun.acts hhonours Field.clean_blank hact) hstate with hstays | hback
    · exact absurd (hstays.deeper he' hstands) hnot
    · exact hback
  · obtain ⟨⟨steps, hrun⟩, hbelow⟩ :=
      hexcursion.below hhonours Field.clean_blank hC h hi hstands
    exact hbelow.ascends hp hnested hrun hstands hexcursion.childIndex hlow hk hdepth
  · exact (exitLevel_root hp h hi hdepth).mono fun r t' hr => ⟨hr.1, hr.2.1, hr.2.2.1⟩

set_option synthInstance.maxSize 2000 in
theorem unwinds_of_run_chain : ∃ t t₁ t₂ t₃ i,
    t.machine.position = .child 1 0 0 ∧ (∃ s, t.machine.Inspects s i) ∧
      descend (Fixture.provider.fixed { items := [Fixture.chain 3] }) t = .ok (.ok .redraw, t₁) ∧
      Action.advance.perform (Fixture.provider.fixed { items := [Fixture.chain 3] }) t₁ =
        .ok (.ok (.output .redraw), t₂) ∧
      t₂.machine.position = .child 2 1 0 ∧
      exitLevel (Fixture.provider.fixed { items := [Fixture.chain 3] }) t₂ =
        .ok (.ok .redraw, t₃) ∧ Resumes i 0 t₃.machine := by
  have hp := Fixture.constant { items := [Fixture.chain 3] } (by decide) rfl .stax
  have hnested := Fixture.nested_fixed { items := [Fixture.chain 3] } .stax
  generalize hprovider : Fixture.provider.fixed { items := [Fixture.chain 3] } = p at *
  have hacts : ((Action.begin .transaction false none).perform p).Ensures ⟨.start .stax, (), []⟩
      fun _ t => (Action.enterInspect.perform p).Ensures t
      fun _ t => (Action.descend.perform p).Ensures t
      fun _ t => t.machine.position = .child 1 0 0 ∧
        (∃ s i, t.machine.Inspects s i ∧ i.depth = 1 ∧ i.childIndex = some 0) ∧
        (descend p).Ensures t fun r t₁ => r = .ok .redraw ∧
        (Action.advance.perform p).Ensures t₁ fun r t₂ => r = .ok (.output .redraw) ∧
          t₂.machine.position = .child 2 1 0 ∧ ∃ s i, t₂.machine.Inspects s i ∧ i.depth = 2 := by
    rw [← hprovider]
    decide +kernel
  obtain ⟨_, _, hbegin, _, _, henter, _, t, hdown, hposition, ⟨s, i, hi, hone, hchild⟩, _, t₁,
    hdescend, rfl, _, t₂, hadvance, rfl, hposition₂, s₂, i₂, hi₂, htwo⟩ := hacts
  have hexcursion : Excursion p t i 0 _ t₂ :=
    ⟨hchild, ⟨_, t₁, hdescend, .cons .advance hadvance .nil⟩,
      List.forall_mem_singleton.2 ⟨s₂, i₂, hi₂, by rw [hone, htwo]; decide⟩⟩
  have hrun := Run.act .descend (.act .enterInspect (.act _ (.start ()) hbegin) henter) hdown
  obtain ⟨r, t₃, hexit, rfl, hresumes⟩ := (unwinds_of_run hp hnested hrun hi).ascends 0 _ t₂ s₂ i₂
    (by rw [hone]; decide) hexcursion hi₂ (by rw [hone, htwo]; rfl)
  exact ⟨t, t₁, t₂, t₃, i, hposition, ⟨s, hi⟩, hdescend, hadvance, hposition₂, hexit, hresumes⟩

end

end Engine
end WalletReview
