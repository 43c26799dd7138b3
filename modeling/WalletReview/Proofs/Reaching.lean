import WalletReview.Proofs.Numbered
import WalletReview.Proofs.Seen
import WalletReview.Proofs.Unfailing

/-! Ways through a review to what it has to show. Going on leads to each item, and from there a path
is followed down level by level: on each, going on leads to the child that the path goes into. -/
namespace WalletReview

variable {σ : Type} {config : Config} {pages : List UInt8} {x : Content} {p : Provider σ}
  {leave : List UInt8 → UInt8 → Bool} {path : List UInt8} {child index count : UInt8}

/-- A path that can be followed: what it goes into is on screen where it is gone into, and the
provider gives its leave. -/
inductive Open (config : Config) (pages : List UInt8) (x : Content)
    (leave : List UInt8 → UInt8 → Bool) : List UInt8 → Prop
  | item {index count : UInt8} : pages[index.toNat]? = some count → count ≠ 0 →
    leave [] index = true → Open config pages x leave [index]
  | child {path : List UInt8} {child : UInt8} : Open config pages x leave path →
    path.length ≤ maxDepth → child < (x.numbered config.inspectLayout).childCount path →
    x.childPages path child ≠ 0 → leave path child = true →
    Open config pages x leave (path ++ [child])

theorem Open.validated (h : Open config pages x leave path) : Validated leave path := by
  induction h with
  | item _ _ hleave => exact .item hleave
  | child _ _ _ _ hleave ih => exact .child ih hleave

namespace Engine

variable {e e' : Engine} {s : Session} {i : Inspection} {root : UInt8} {out : Output} {k : Nat}
  {steps : List Step} {t t' : Sitting Engine σ}

theorem reachable_of_eq (action : Action) {op : Operation Engine σ Output} {r : Except Error Output}
    (haction : action.perform p = Reply.output <$> op) (hop : op t = .ok (r, t')) :
    Reachable p t t' :=
  ⟨_, .cons action (perform_of_eq haction hop) .nil⟩

/-- Where each screen of a list leads to the next, the first leads to all others. -/
theorem Run.exists_later {length n : Nat} {shows : Nat → Engine → Prop}
    (hnext : ∀ k steps t, Run p config steps t → shows k t.machine → k + 1 < length →
      ∃ t', Reachable p t t' ∧ shows (k + 1) t'.machine)
    (h : Run p config steps t) (hfirst : shows 0 t.machine) (hn : n < length) :
    ∃ t', Reachable p t t' ∧ shows n t'.machine := by
  induction n with
  | zero => exact ⟨t, .refl t, hfirst⟩
  | succ n ih =>
    obtain ⟨t₁, hreach₁, hshows₁⟩ := ih (Nat.lt_of_succ_lt hn)
    obtain ⟨steps₁, hrun₁⟩ := hreach₁.run h
    obtain ⟨t₂, hreach₂, hshows₂⟩ := hnext n steps₁ t₁ hrun₁ hshows₁ hn
    exact ⟨t₂, hreach₁.trans hreach₂, hshows₂⟩

structure OnList (pages : List UInt8) (s : Session) (k : Nat) (e : Engine) : Prop where
  state : e.state = .review ∨ e.state = .confirm
  session : ∃ c, e.session = some { s with cursor := c } ∧ s.rank pages c = k

theorem OnList.position (h : e.OnList pages s k) (he : Sound (Contract.constant config pages x) e) :
    (s.list config pages)[k]? = some e.position := by
  obtain ⟨c, hs, rfl⟩ := h.session
  exact he.position_of_rank hs h.state

theorem Goes.onList {c : Cursor} (h : Goes (Contract.constant config pages x) e .forward out e')
    (he : Sound (Contract.constant config pages x) e)
    (hs : e.session = some { s with cursor := c }) (hinspect : e.state ≠ .inspect)
    (hmore : s.rank pages c + 1 < (s.list config pages).length) :
    e'.OnList pages s (s.rank pages c + 1) ∨
      e.state = .review ∧ e'.state = .interstitial ∧ e'.session = some { s with cursor := c } := by
  cases h with
  | offer hstate hs' => exact Or.inr ⟨hstate, rfl, hs⟩
  | step hs' _ _ _ hstep =>
    cases hs.symm.trans hs'
    obtain ⟨-, hstate, d, hs', hrank⟩ := hstep.next he hs hmore
    exact Or.inl ⟨hstate, d, hs', hrank⟩
  | visit hvisit => exact absurd hvisit hinspect

section

variable (hp : p.Constant config pages x)

include hp

theorem OnList.next (h : t.machine.OnList pages s k) (hrun : Run p config steps t)
    (hmore : k + 1 < (s.list config pages).length) :
    ∃ t', Reachable p t t' ∧ t'.machine.OnList pages s (k + 1) := by
  obtain ⟨c, hs, rfl⟩ := h.session
  have hinspect : t.machine.state ≠ .inspect := by
    rcases h.state with hstate | hstate <;> rw [hstate] <;> decide
  obtain ⟨out, t₁, hadvance, hgoes⟩ := hrun.exists_advance hp hs hinspect
  have hreach : Reachable p t t₁ := reachable_of_eq .advance rfl hadvance
  rcases hgoes.onList (hrun.constant hp) hs hinspect hmore with hnext | ⟨-, hstate₁, hs₁⟩
  · exact ⟨t₁, hreach, hnext⟩
  · -- Declining the offer to skip goes on to the screen before which it was made.
    obtain ⟨steps₁, hrun₁⟩ := hreach.run hrun
    have hinspect₁ : t₁.machine.state ≠ .inspect := by rw [hstate₁]; decide
    obtain ⟨out, t₂, hadvance₂, hgoes₂⟩ := hrun₁.exists_advance hp hs₁ hinspect₁
    rcases hgoes₂.onList (hrun₁.constant hp) hs₁ hinspect₁ hmore with hnext | ⟨hreview, -⟩
    · exact ⟨t₂, hreach.trans (reachable_of_eq .advance rfl hadvance₂), hnext⟩
    · cases hstate₁.symm.trans hreview

/-- From the beginning of a review the first page of every item can be come to. -/
theorem OnList.exists_item (h : t.machine.OnList pages s 0) (hrun : Run p config steps t)
    (hcount : pages[index.toNat]? = some count) (hne : count ≠ 0) :
    ∃ t', Reachable p t t' ∧ t'.machine.position = .item index 0 := by
  obtain ⟨c, hs, -⟩ := h.session
  obtain ⟨hruns, -⟩ := (hrun.constant hp).runs hs
  have hpos : 0 < count := UInt8.lt_iff_toNat_lt.2
    (Nat.pos_of_ne_zero fun hzero => hne (UInt8.toNat_inj.1 hzero))
  have hlist := Session.list_item (hruns.mono Contract.constant_refines).fits hcount hpos
  obtain ⟨t', hreach, hon⟩ := hrun.exists_later
    (fun _ _ _ hrun hon => hon.next hp hrun) h (List.getElem?_eq_some_iff.1 hlist).1
  obtain ⟨steps', hrun'⟩ := hreach.run hrun
  have hposition := hon.position (hrun'.constant hp)
  exact ⟨t', hreach, Option.some.inj (hposition.symm.trans hlist)⟩

end

/-- The engine inspects the end of a path, on screen `k` of the level that is there. -/
def AtLevel (y : Content) (path : List UInt8) (k : Nat) (e : Engine) : Prop :=
  ∃ s i, e.Inspects s i ∧ i.chain = path ∧ i.At y k

theorem GoesInto.atLevel {above : List UInt8} {r : Except Error Output}
    (h : e.GoesInto (Contract.nested config x leave) s above child i r e')
    (hi : i.Fits config root) (hcursor : i.cursor = .start 0) (hpath : Validated leave i.chain)
    (hleave : leave above child = true)
    (hlisted : (x.numbered config.inspectLayout).Listed i.chain config.inspectLayout) :
    e'.AtLevel (x.numbered config.inspectLayout) i.chain 0 := by
  obtain ⟨-, j, f, hload, rfl⟩ := h.loads hpath hleave
  obtain ⟨d, rfl, hat⟩ := (hload.numbered hi.layout).first Contract.counts_nested.numbered hi
    (by rwa [hi.layout]) hcursor
  exact ⟨_, _, ⟨rfl, rfl, rfl⟩, rfl, hat⟩

section

variable (hp : p.Nested config x leave)

include hp

theorem AtLevel.next (h : t.machine.AtLevel (x.numbered config.inspectLayout) path k)
    (hrun : Run p config steps t) (hpath : Validated leave path)
    (hmore : k + 1 <
      ((x.numbered config.inspectLayout).level path config.inspectLayout).length) :
    ∃ t', Reachable p t t' ∧ t'.machine.AtLevel (x.numbered config.inspectLayout) path (k + 1) := by
  obtain ⟨s, i, hi, rfl, hat⟩ := h
  have he := hrun.sound hp.honours Field.clean_blank
  obtain ⟨root, -, hstands⟩ := he.of_inspects hi
  have hlayout := hstands.fits.layout
  obtain ⟨r, t', hadvance, htreads⟩ :=
    (ensures_advance hi.state).2 (inspectStep_treads hp.honours he hi)
  cases r with
  | error cause => exact absurd htreads.2 (Contract.not_failsBelow_nested hpath)
  | ok out =>
    obtain ⟨d, w, ht', hat'⟩ := (htreads.numbered hlayout).next Contract.counts_nested.numbered hat
      (by rwa [hlayout])
    have hi' : t'.machine.Inspects { s with inspection := some { i with cursor := d } }
        { i with cursor := d } := by
      rw [ht']
      exact ⟨hi.state, rfl, rfl⟩
    exact ⟨t', reachable_of_eq .advance rfl hadvance, _, _, hi', rfl, hat'⟩

/-- From the first screen of a level, every child with pages can be come to that is numbered. -/
theorem AtLevel.exists_child (h : t.machine.AtLevel (x.numbered config.inspectLayout) path 0)
    (hrun : Run p config steps t) (hpath : Validated leave path)
    (hlt : child < (x.numbered config.inspectLayout).childCount path)
    (hpages : x.childPages path child ≠ 0) :
    ∃ t' s i, Reachable p t t' ∧ t'.machine.Inspects s i ∧ i.chain = path ∧
      i.childIndex = some child ∧
      t'.machine.position = .child (path.length - 1).toUInt8 child 0 := by
  obtain ⟨k, hk⟩ := Content.exists_level_child config.inspectLayout hlt hpages
  obtain ⟨t', hreach, s, i, hi, rfl, hat⟩ := hrun.exists_later
    (fun _ _ _ hrun hat => hat.next hp hrun hpath) h (List.getElem?_eq_some_iff.1 hk).1
  obtain ⟨steps', hrun'⟩ := hreach.run hrun
  obtain ⟨root, -, hstands⟩ := (hrun'.sound hp.honours Field.clean_blank).of_inspects hi
  have hposition := hat.position hstands.fits.depth
  rw [hstands.fits.layout] at hposition
  have hposition := Option.some.inj (hposition.symm.trans hk)
  refine ⟨t', s, i, hreach, hi, rfl, hat.spans.childIndex_eq hposition, ?_⟩
  rw [hi.position, hposition]

end

section

variable (hp : p.Constant config pages x) (hnested : p.Nested config x leave)

include hp hnested

/-- From the beginning of a review, the first screen at the end of a path can be come to. The
induction is on the path: from the level above, going on leads to the child that it goes into. -/
theorem OnList.exists_level (h : t.machine.OnList pages s 0) (hrun : Run p config steps t)
    (hopen : Open config pages x leave path)
    (hlisted : (x.numbered config.inspectLayout).Listed path config.inspectLayout) :
    ∃ t', Reachable p t t' ∧ t'.machine.AtLevel (x.numbered config.inspectLayout) path 0 := by
  induction hopen with
  | @item index count hcount hne hleave =>
    obtain ⟨t₁, hreach, hposition⟩ := h.exists_item hp hrun hcount hne
    obtain ⟨steps₁, hrun₁⟩ := hreach.run hrun
    have he := hrun₁.sound hnested.honours Field.clean_blank
    obtain ⟨hstate, s', hs', hindex, -⟩ := he.position_eq_item_iff.1 hposition
    have hat := (he.runs hs').1.itemIndex?_eq_some_iff.1 hindex
    obtain ⟨r, t₂, henter, hgoes⟩ := enterInspect_goesInto hnested.honours he hstate hs' hat
    exact ⟨t₂, hreach.trans (reachable_of_eq .enterInspect rfl henter),
      hgoes.atLevel (Inspection.fits_start index) rfl (.item hleave) hleave hlisted⟩
  | @child path child hopen hlength hlt hpages hleave ih =>
    -- The child gone into has pages and a number, so that the level above has a screen.
    obtain ⟨t₁, hreach₁, hlevel⟩ := ih (Content.listed_numbered hlt hpages)
    obtain ⟨steps₁, hrun₁⟩ := hreach₁.run hrun
    obtain ⟨t₂, s', i, hreach₂, hi, rfl, hchild, -⟩ :=
      hlevel.exists_child hnested hrun₁ hopen.validated hlt hpages
    obtain ⟨steps₂, hrun₂⟩ := hreach₂.run hrun₁
    have he := hrun₂.sound hnested.honours Field.clean_blank
    obtain ⟨root, -, hstands⟩ := he.of_inspects hi
    have hdepth : i.depth.toNat < maxDepth := by
      rwa [Inspection.length_chain hstands.fits.depth] at hlength
    obtain ⟨i', henter, hfits, hcursor, -⟩ := hstands.fits.enter hchild hdepth
    have hchain := Inspection.chain_of_enter henter
    have hpath := hopen.validated.child hleave
    obtain ⟨r, t₃, hdescend, hgoes⟩ :=
      descend_goesInto hnested.honours he hi hchild hdepth henter
    rw [← hchain] at hpath hlisted ⊢
    exact ⟨t₃, (hreach₁.trans hreach₂).trans (reachable_of_eq .descend rfl hdescend),
      hgoes.atLevel hfits hcursor hpath hleave hlisted⟩

/-- From the beginning of a review, every child with pages can be come to that is numbered, at the
end of a path that can be followed. -/
theorem OnList.exists_child (h : t.machine.OnList pages s 0) (hrun : Run p config steps t)
    (hopen : Open config pages x leave path)
    (hlt : child < (x.numbered config.inspectLayout).childCount path)
    (hpages : x.childPages path child ≠ 0) :
    ∃ t' s' i, Reachable p t t' ∧ t'.machine.Inspects s' i ∧ i.trace = .ok path ∧
      t'.machine.display = ⟨Field.labelled config.labelStyle 0 (x.childPages path child)
        (x.child path child 0).1, Field.padded (x.child path child 0).2,
        .child (path.length - 1).toUInt8 child 0, 0, x.childPages path child⟩ := by
  obtain ⟨t₁, hreach₁, hlevel⟩ :=
    h.exists_level hp hnested hrun hopen (Content.listed_numbered hlt hpages)
  obtain ⟨steps₁, hrun₁⟩ := hreach₁.run hrun
  obtain ⟨t₂, s', i, hreach₂, hi, rfl, -, hposition⟩ :=
    hlevel.exists_child hnested hrun₁ hopen.validated hlt hpages
  obtain ⟨steps₂, hrun₂⟩ := hreach₂.run hrun₁
  have he := hrun₂.sound hnested.presents.honours Field.clean_blank
  obtain ⟨root, -, hstands⟩ := he.of_inspects hi
  have hpath : s'.path = i.chain := by simp [Session.path, hi.inspection]
  obtain ⟨o, ho⟩ := he.exists_openedBy hi.session
  have hdisplays := he.displays hi.session ho (by
    rw [hposition, hpath]
    exact ⟨(InspectLayout.lt_numbered_iff.1 hlt).1, hpages⟩)
  rw [hposition, hpath] at hdisplays
  refine ⟨t₂, s', i, hreach₁.trans hreach₂, hi, hstands.fits.trace, ?_⟩
  rw [display, Screen.mk.injEq]
  exact ⟨hdisplays.key, hdisplays.value, hposition, hdisplays.page, hdisplays.pageCount⟩

end

theorem Begins.onList {kind : Kind} {confirmation : Bool} {intent : Option String}
    (h : Begins (Contract.constant config pages x) e kind confirmation intent out e') :
    ∃ s, e'.OnList pages s 0 := by
  obtain ⟨s, hs, hrank, -⟩ := (h.mono Contract.constant_refines).rank
  exact ⟨s, h.state, s.cursor, hs, hrank⟩

end Engine

section

variable {α : Type} {trees : List (Tree α)} {tree : Tree α}

theorem Tree.find?_append_singleton (hne : path ≠ []) (child : UInt8) (trees : List (Tree α)) :
    find? (path ++ [child]) trees = childBelow? path child trees := by
  induction path generalizing trees with
  | nil => exact absurd rfl hne
  | cons index rest ih =>
    cases rest with
    | nil =>
      simp only [List.cons_append, List.nil_append, find?, childBelow?]
      cases trees[index.toNat]? <;> rfl
    | cons next rest =>
      have hrest := ih (List.cons_ne_nil next rest)
      simp only [List.cons_append, find?, childBelow?] at hrest ⊢
      cases trees[index.toNat]? with
      | none => rfl
      | some tree => exact hrest tree.children

theorem Tree.exists_above (hne : path ≠ []) (h : find? (path ++ [child]) trees = some tree) :
    ∃ above, find? path trees = some above ∧ above.children[child.toNat]? = some tree := by
  rwa [find?_append_singleton hne, childBelow?, Option.bind_eq_some_iff] at h

end

namespace Document

variable {d : Document} {node : Item}

namespace Entry

variable {entry : Entry}

theorem pages_ne_nil (h : entry.value ≠ "") (config : Config) : entry.pages config ≠ [] := by
  intro hnil
  have hflatten := Text.flatten_pages valueCapacity (Field.blank config).pageLength entry.value
  rw [pages] at hnil
  rw [hnil, List.flatten_nil] at hflatten
  exact h (String.toList_eq_nil_iff.1 hflatten.symm)

theorem pageCount_ne_zero (h : entry.value ≠ "") (config : Config) :
    entry.pageCount config ≠ 0 := by
  have hpos := List.length_pos_iff.2 (pages_ne_nil h config)
  intro hzero
  have hcount := congrArg UInt8.toNat hzero
  simp only [pageCount, saturate8, UInt8.toNat_ofNat', UInt8.reduceToNat] at hcount
  omega

def firstScreen (entry : Entry) (config : Config) (position : Position) : Screen :=
  ⟨Field.labelled config.labelStyle 0 (entry.pageCount config) (entry.text config 0).1,
    (entry.text config 0).2, position, 0, entry.pageCount config⟩

theorem padded_text (h : entry.value ≠ "") (config : Config) :
    Field.padded (entry.text config 0).2 = (entry.text config 0).2 := by
  obtain ⟨piece, rest, hpages⟩ := List.exists_cons_of_ne_nil (pages_ne_nil h config)
  have hpiece : piece ≠ [] := Text.ne_nil_of_mem_pages (by
    change piece ∈ entry.pages config
    rw [hpages]
    exact List.mem_cons_self)
  refine if_neg fun hempty => hpiece ?_
  simpa [text, hpages] using hempty

end Entry

def Valued (d : Document) (path : List UInt8) : Prop :=
  ∀ above, above ≠ [] → above <+: path →
    ∃ item, Tree.find? above d.items = some item ∧ item.value.value ≠ ""

theorem valued_nil : d.Valued [] := fun _ hne habove => absurd (List.prefix_nil.1 habove) hne

theorem Valued.below (h : d.Valued path) (hnode : Tree.find? (path ++ [child]) d.items = some node)
    (hvalue : node.value.value ≠ "") : d.Valued (path ++ [child]) := by
  intro above hne habove
  rcases List.prefix_concat_iff.1 habove with rfl | habove
  · exact ⟨node, hnode, hvalue⟩
  · exact h above hne habove

theorem Valued.above (h : d.Valued (path ++ [child])) : d.Valued path :=
  fun above hne habove => h above hne (habove.trans (List.prefix_append _ _))

theorem Valued.exists_find (h : d.Valued path) (hne : path ≠ []) :
    ∃ item, Tree.find? path d.items = some item ∧ item.value.value ≠ "" :=
  h path hne (List.prefix_refl _)

theorem content_child (hnarrow : d.Narrow) (config : Config) (hne : path ≠ [])
    (h : Tree.find? (path ++ [child]) d.items = some node) :
    child < (d.content config).childCount path ∧
      (d.content config).childPages path child = node.value.pageCount config ∧
      ∀ page, (d.content config).child path child page = node.value.text config page := by
  obtain ⟨above, habove, hnode⟩ := Tree.exists_above hne h
  have hcount := (Tree.Narrow.find hnarrow habove).length_le
  have hlt := (List.getElem?_eq_some_iff.1 hnode).1
  have hbelow := (Tree.find?_append_singleton hne child d.items).symm.trans h
  refine ⟨?_, by simp [content, hbelow], fun page => by simp [content, hbelow]⟩
  simp only [content, habove, Option.map_some, Option.getD_some, UInt8.lt_iff_toNat_lt,
    UInt8.toNat_ofNat']
  omega

theorem inspectable_of_valued {c : UInt8} (h : d.Valued (path ++ [c] ++ [child])) :
    d.inspectable path c = true := by
  obtain ⟨node, hnode, -⟩ := h.exists_find (by simp)
  obtain ⟨above, habove, hchild⟩ := Tree.exists_above (by simp) hnode
  cases hchildren : above.children with
  | nil => simp [hchildren] at hchild
  | cons => simp [inspectable, habove, hchildren]

theorem Valued.opens {path : List UInt8} {child : UInt8} (hnarrow : d.Narrow)
    (h : d.Valued (path ++ [child])) (hne : path ≠ []) (hlength : path.length ≤ maxDepth + 1)
    (hnumbered : config.inspectLayout = .bracketed → ∀ c ∈ path.tail, c < 253) :
    Open config (d.layout config) (d.content config) d.inspectable path := by
  rcases List.eq_nil_or_concat path with rfl | ⟨path, c, rfl⟩
  · exact absurd rfl hne
  · rw [List.concat_eq_append] at h hne hlength hnumbered ⊢
    have hleave := inspectable_of_valued h
    obtain ⟨item, hitem, hvalue⟩ := h.above.exists_find hne
    have hpages := Entry.pageCount_ne_zero hvalue config
    by_cases hpath : path = []
    · subst hpath
      refine .item ?_ hpages hleave
      have hitem : d.items[c.toNat]? = some item := hitem
      rw [layout, List.getElem?_map, hitem]
      rfl
    · rw [List.tail_append_of_ne_nil hpath] at hnumbered
      rw [List.length_append, List.length_singleton] at hlength
      obtain ⟨hlt, hcount, -⟩ := content_child hnarrow config hpath hitem
      have hopen := Valued.opens hnarrow h.above hpath (by omega) fun hlayout c' hc' =>
        hnumbered hlayout c' (List.mem_append_left _ hc')
      refine .child hopen (by omega) (InspectLayout.lt_numbered_iff.2 ⟨hlt, fun hlayout => ?_⟩)
        (by rwa [hcount]) hleave
      exact hnumbered hlayout c (List.mem_append_right _ List.mem_cons_self)
termination_by path.length

def crowded : Document :=
  ⟨none, [.node ⟨"Call", "batch"⟩ (List.replicate 254 (.leaf ⟨"To", "Alice"⟩))]⟩

theorem narrow_crowded : crowded.Narrow := by
  refine List.forall_mem_singleton.2 (.node ?_ fun child hchild => ?_)
  · rw [List.length_replicate]
    decide
  · rw [(List.mem_replicate.1 hchild).2]
    exact Tree.narrow_leaf _

end Document

namespace Engine

variable {t t₀ : Sitting Engine Document.Reading} {steps : List Step} {kind : Kind}
  {confirmation : Bool} {intent : Option String} {out : Output} {above : List UInt8}
  {node : Document.Item}

/-- After any run, there is a way from the beginning of the review of a document to the first page
of each child at the end of a path of values, as long as neither the child nor one on its path has a
number from 253 on. Only the layout that needs two numbers for itself shows none of those. -/
theorem reachable_of_run (h : Run Document.provider config steps t)
    (hnarrow : t.content.document.Narrow)
    (hbegin : begin Document.provider kind confirmation intent t = .ok (.ok out, t₀))
    (hne : above ≠ []) (hlength : above.length ≤ maxDepth + 1)
    (hvalued : t.content.document.Valued (above ++ [child]))
    (hnode : Tree.find? (above ++ [child]) t.content.document.items = some node) :
    (∃ t' s i, Reachable Document.provider t₀ t' ∧ t'.machine.Inspects s i ∧
      i.trace = .ok above ∧ t'.machine.display =
        node.value.firstScreen config (.child (above.length - 1).toUInt8 child 0)) ↔
      (config.inspectLayout = .bracketed → ∀ c ∈ above.tail ++ [child], c < 253) := by
  constructor
  · rintro ⟨t', s, i, hreach, hi, htrace, hdisplay⟩ hlayout
    obtain ⟨steps₀, hrun₀⟩ := h.exists_act (.begin kind confirmation intent) rfl hbegin
    obtain ⟨steps', hrun'⟩ := hreach.run hrun₀
    obtain ⟨-, rfl⟩ := Inspection.trace_eq_ok_iff.1 htrace
    exact hrun'.numbered hi hlayout (congrArg Screen.position hdisplay)
  · intro hnumbered
    have hp := t.content.document.constant (length_lt_of_begin hbegin) config
    have hnested := t.content.document.nested hnarrow config
    obtain ⟨_, s₀, hrun, hbegin', halike⟩ := exists_fixed h hbegin
    obtain ⟨s, hon⟩ :=
      Begins.onList ((begin_ensures hp.honours (hrun.constant hp)).of_eq hbegin')
    obtain ⟨steps₀, hrun₀⟩ := hrun.exists_act (.begin kind confirmation intent) rfl hbegin'
    obtain ⟨hlt, hpages, htext⟩ := Document.content_child hnarrow config hne hnode
    have hopen := hvalued.opens hnarrow hne hlength fun hlayout c hc =>
      hnumbered hlayout c (List.mem_append_left _ hc)
    obtain ⟨node', hnode', hvalue⟩ := hvalued.exists_find (by simp)
    cases hnode.symm.trans hnode'
    obtain ⟨s', session, i, hreach, hi, htrace, hdisplay⟩ :=
      hon.exists_child hp hnested hrun₀ hopen
        (InspectLayout.lt_numbered_iff.2 ⟨hlt, fun hlayout =>
          hnumbered hlayout child (List.mem_append_right _ List.mem_cons_self)⟩)
        (by rw [hpages]; exact Document.Entry.pageCount_ne_zero hvalue config)
    obtain ⟨t', hreach', halike'⟩ :=
      hreach.mirrors (Document.fixed_matches t.content.document) halike
    rw [hpages, htext, Document.Entry.padded_text hvalue] at hdisplay
    rw [halike'.machine] at hi hdisplay
    exact ⟨t', session, i, hreach', hi, htrace, hdisplay⟩

theorem reachable_of_run_call : ∃ t₀ t' s i,
    begin Document.provider .transaction false none ⟨.start .nanoS, ⟨.call, none⟩, []⟩ =
      .ok (.ok .redraw, t₀) ∧
    Reachable Document.provider t₀ t' ∧ t'.machine.Inspects s i ∧ i.trace = .ok [0] ∧
    t'.machine.display =
      Document.Entry.firstScreen ⟨"To", "Alice"⟩ .nanoS (.child 0 0 0) := by
  obtain ⟨t₀, hbegin⟩ := exists_begin_document .call .nanoS .none .transaction false none
    (by decide)
  have hrun : Run Document.provider .nanoS [] ⟨.start .nanoS, ⟨.call, none⟩, []⟩ := .start _
  have hcall : Document.call.Valued ([] ++ [0]) := Document.valued_nil.below rfl (by decide)
  have hargument : Document.call.Valued ([0] ++ [0]) := hcall.below rfl (by decide)
  obtain ⟨t', s, i, hreach, hi, htrace, hdisplay⟩ :=
    (reachable_of_run hrun Document.narrow_call hbegin (List.cons_ne_nil 0 []) (by decide) hargument
      rfl).2 fun _ => List.forall_mem_singleton.2 (by decide)
  exact ⟨t₀, t', s, i, hbegin, hreach, hi, htrace, hdisplay⟩

/-- The last argument of a crowded call is never come to. -/
theorem not_reachable_crowded : ∃ t₀,
    begin Document.provider .transaction false none ⟨.start .nanoS, ⟨.crowded, none⟩, []⟩ =
      .ok (.ok .redraw, t₀) ∧
    Document.crowded.Narrow ∧ Document.crowded.Valued ([0] ++ [253]) ∧
    ¬∃ t' s i, Reachable Document.provider t₀ t' ∧ t'.machine.Inspects s i ∧
      i.trace = .ok [0] ∧ t'.machine.position = .child 0 253 0 := by
  obtain ⟨t₀, hbegin⟩ :=
    exists_begin_document .crowded .nanoS .none .transaction false none (by decide)
  have hrun : Run Document.provider .nanoS [] ⟨.start .nanoS, ⟨.crowded, none⟩, []⟩ := .start _
  obtain ⟨steps₀, hrun₀⟩ := hrun.exists_act (.begin .transaction false none) rfl hbegin
  have hcall : Document.crowded.Valued ([] ++ [0]) := Document.valued_nil.below rfl (by decide)
  refine ⟨t₀, hbegin, Document.narrow_crowded, hcall.below rfl (by decide), ?_⟩
  rintro ⟨t', s, i, hreach, hi, -, hposition⟩
  obtain ⟨steps', hrun'⟩ := hreach.run hrun₀
  have hnumbered := hrun'.numbered hi rfl hposition
  exact absurd (hnumbered 253 (List.mem_append_right _ List.mem_cons_self)) (by decide)

end Engine
end WalletReview
