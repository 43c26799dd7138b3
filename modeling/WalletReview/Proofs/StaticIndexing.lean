import Mathlib.Algebra.Order.Floor.Div
import WalletReview.Proofs.StaticFields

/-! Numbers of pairs and of screens. The pairs are numbered by adding up the page counts of the
items that come before, and found by undoing these sums with the counts that the provider tells
anew. No word overflows on the way, whatever it tells, and where the counts stay, the numbers belong
to the pages one to one and in order. -/
namespace WalletReview

variable {σ : Type} {config : Config} {p : Provider σ}

/-- The number of pairs for the items before item `i`, where items have the given page counts. -/
def pairsBefore (counts : List UInt8) (i : Nat) : Nat := ((counts.take i).map UInt8.toNat).sum

section

variable {counts counts' : List UInt8} {count : UInt8} {i j : Nat}

@[simp] theorem pairsBefore_zero (counts : List UInt8) : pairsBefore counts 0 = 0 := rfl

theorem pairsBefore_length (counts : List UInt8) :
    pairsBefore counts counts.length = (counts.map UInt8.toNat).sum := by
  rw [pairsBefore, List.take_length]

theorem pairsBefore_succ (h : counts[i]? = some count) :
    pairsBefore counts (i + 1) = pairsBefore counts i + count.toNat := by
  simp [pairsBefore, List.take_add_one, h]

theorem pairsBefore_mono (h : i ≤ j) : pairsBefore counts i ≤ pairsBefore counts j := by
  induction j, h using Nat.le_induction with
  | base => exact Nat.le_refl _
  | succ j _ ih =>
    refine Nat.le_trans ih ?_
    simp [pairsBefore, List.take_add_one]

theorem pairsBefore_le (counts : List UInt8) (i : Nat) :
    pairsBefore counts i ≤ 255 * counts.length := by
  induction counts generalizing i with
  | nil => simp [pairsBefore]
  | cons count rest ih =>
    have hbyte := count.toNat_lt
    cases i with
    | zero => simp
    | succ i =>
      have hrest := ih i
      simp only [pairsBefore, List.take_succ_cons, List.map_cons, List.sum_cons, List.length_cons]
        at hrest ⊢
      omega

theorem pairsBefore_append (h : i ≤ counts.length) :
    pairsBefore (counts ++ counts') i = pairsBefore counts i := by
  rw [pairsBefore, List.take_append_of_le_length h, pairsBefore]

end

namespace Place

structure Numbered (counts : List UInt8) (place : Place) (index : Nat) : Prop where
  pages : counts[place.item.toNat]? = some place.pages
  within : place.page < place.pages
  index_eq : pairsBefore counts place.item.toNat + place.page.toNat = index

namespace Numbered

variable {counts counts' : List UInt8} {place place' : Place} {index index' : Nat}

theorem item_lt (h : place.Numbered counts index) : place.item.toNat < counts.length :=
  (List.getElem?_eq_some_iff.1 h.pages).1

theorem lt (h : place.Numbered counts index) :
    index < pairsBefore counts (place.item.toNat + 1) := by
  have hwithin := UInt8.lt_iff_toNat_lt.1 h.within
  rw [pairsBefore_succ h.pages, ← h.index_eq]
  omega

theorem lt_sum (h : place.Numbered counts index) : index < (counts.map UInt8.toNat).sum := by
  rw [← pairsBefore_length]
  exact Nat.lt_of_lt_of_le h.lt (pairsBefore_mono h.item_lt)

theorem append (h : place.Numbered counts index) (counts' : List UInt8) :
    place.Numbered (counts ++ counts') index where
  pages := by rw [List.getElem?_append_left h.item_lt, h.pages]
  within := h.within
  index_eq := by rw [pairsBefore_append (Nat.le_of_lt h.item_lt), h.index_eq]

theorem lt_of_item_lt (h : place.Numbered counts index) (h' : place'.Numbered counts index')
    (hitem : place.item < place'.item) : index < index' := by
  have hle : pairsBefore counts (place.item.toNat + 1) ≤ pairsBefore counts place'.item.toNat :=
    pairsBefore_mono (UInt8.lt_iff_toNat_lt.1 hitem)
  have hlt := h.lt
  have heq := h'.index_eq
  omega

theorem lt_iff_of_item_eq (h : place.Numbered counts index) (h' : place'.Numbered counts index')
    (hitem : place.item = place'.item) : index < index' ↔ place.page < place'.page := by
  rw [← h.index_eq, ← h'.index_eq, hitem, UInt8.lt_iff_toNat_lt]
  omega

theorem lt_iff (h : place.Numbered counts index) (h' : place'.Numbered counts index') :
    index < index' ↔
      place.item < place'.item ∨ place.item = place'.item ∧ place.page < place'.page := by
  rcases Nat.lt_trichotomy place.item.toNat place'.item.toNat with hlt | heq | hgt
  · have hitem := UInt8.lt_iff_toNat_lt.2 hlt
    exact iff_of_true (h.lt_of_item_lt h' hitem) (Or.inl hitem)
  · have hitem := UInt8.toNat_inj.1 heq
    simp [h.lt_iff_of_item_eq h' hitem, hitem]
  · have hlt' := h'.lt_of_item_lt h (UInt8.lt_iff_toNat_lt.2 hgt)
    simp only [UInt8.lt_iff_toNat_lt, ← UInt8.toNat_inj]
    omega

theorem unique (h : place.Numbered counts index) (h' : place'.Numbered counts index) :
    place = place' := by
  have hlt := h.lt_iff h'
  have hgt := h'.lt_iff h
  simp only [UInt8.lt_iff_toNat_lt, ← UInt8.toNat_inj] at hlt hgt
  have hitem : place.item = place'.item := UInt8.toNat_inj.1 (by omega)
  have hpage : place.page = place'.page := UInt8.toNat_inj.1 (by omega)
  have hpages : place.pages = place'.pages :=
    Option.some_inj.1 (by rw [← h.pages, ← h'.pages, hitem])
  cases place
  cases place'
  simp_all

end Numbered

end Place

/-- In any state, and with any field that comes up, the provider has items with the given page
counts and tells them without fail. -/
structure Provider.Tells (p : Provider σ) (config : Config) (pages : List UInt8) : Prop where
  itemCount : ∀ st, ∃ count, (p.itemCount st).1 = .ok count ∧ count.toNat = pages.length
  pages : ∀ index count f st, p.Meets config f → pages[index.toNat]? = some count →
    (p.item index 0 f st).1 = .ok count

theorem Provider.Constant.tells {pages : List UInt8} {x : Content} (h : p.Constant config pages x) :
    p.Tells config pages where
  itemCount := h.itemCount
  pages index count f st hf hcount := h.item index 0 f st count (hf.clean h) hcount

theorem Provider.Tells.length_lt {pages : List UInt8} (h : p.Tells config pages) (st : σ) :
    pages.length < 256 := by
  obtain ⟨count, -, hcount⟩ := h.itemCount st
  rw [← hcount]
  exact count.toNat_lt

def Provider.CanTell (p : Provider σ) (config : Config) (counts : List UInt8) : Prop :=
  ∀ i count, counts[i]? = some count →
    ∃ f st, p.Meets config f ∧ (p.item (.ofNat i) 0 f st).1 = .ok count

theorem Provider.CanTell.concat {counts : List UInt8} (h : p.CanTell config counts)
    {count : UInt8} {f : Field} {st : σ} (hf : p.Meets config f)
    (hcount : (p.item (.ofNat counts.length) 0 f st).1 = .ok count) :
    p.CanTell config (counts ++ [count]) := by
  intro i count' hi
  rcases Nat.lt_or_ge i counts.length with hlt | hge
  · rw [List.getElem?_append_left hlt] at hi
    exact h i count' hi
  · rw [List.getElem?_append_right hge, List.getElem?_singleton] at hi
    split at hi
    · rename_i hzero
      cases hi
      have heq : i = counts.length := by omega
      exact ⟨f, st, hf, heq ▸ hcount⟩
    · cases hi

/-- Of no more items than there are, a provider tells no other counts than theirs. -/
theorem Provider.Tells.eq_take {pages counts : List UInt8} (h : p.Tells config pages)
    (hlength : counts.length ≤ pages.length) (hpages : pages.length < 256)
    (htold : p.CanTell config counts) : counts = pages.take counts.length := by
  apply List.ext_getElem (by simp [hlength])
  intro i hi _
  have htoNat : (UInt8.ofNat i).toNat = i := by
    rw [UInt8.toNat_ofNat', Nat.mod_eq_of_lt (by omega)]
  have hbound : i < pages.length := by omega
  have hpage : pages[i]? = some pages[i] := List.getElem?_eq_getElem hbound
  obtain ⟨f, st, hf, hcount⟩ := htold i counts[i] (List.getElem?_eq_getElem hi)
  rw [h.pages (.ofNat i) _ f st hf (by rw [htoNat]; exact hpage)] at hcount
  rw [List.getElem_take]
  exact (Except.ok.inj hcount).symm

/-- The exchanges in which the provider tells the page counts of its first items, the latest
first. -/
def tellings (counts : List UInt8) : List Exchange :=
  (counts.mapIdx fun i count => ⟨.item (.ofNat i) 0, .count (.ok count)⟩).reverse

theorem tellings_concat (counts : List UInt8) (count : UInt8) :
    tellings (counts ++ [count]) =
      ⟨.item (.ofNat counts.length) 0, .count (.ok count)⟩ :: tellings counts := by
  simp [tellings, List.mapIdx_append]

namespace StaticReview

/-- What the search for pair `index` among `n` items comes to, with the exchanges that there are
after those `before`. -/
inductive Finds (p : Provider σ) (config : Config) (n index : Nat) (before : List Exchange) :
    Except Error Place → List Exchange → Prop
  /-- It ends at the first item that has a page for the number. -/
  | found {counts : List UInt8} {place : Place} : p.CanTell config counts → counts.length ≤ n →
    place.item.toNat + 1 = counts.length → place.Numbered counts index →
    Finds p config n index before (.ok place) (tellings counts ++ before)
  | beyond {counts : List UInt8} : p.CanTell config counts → counts.length = n →
    (counts.map UInt8.toNat).sum ≤ index →
    Finds p config n index before (.error .outOfBounds) (tellings counts ++ before)
  | refused {counts : List UInt8} {f : Field} {st : σ} {cause : Error} : counts.length < n →
    p.Meets config f → (p.item (.ofNat counts.length) 0 f st).1 = .error cause →
    Finds p config n index before (.error cause)
      (⟨.item (.ofNat counts.length) 0, .count (.error cause)⟩ :: tellings counts ++ before)

variable {t t' : Sitting StaticReview (Recorded σ)} {steps : List Step} {index : UInt16}

/-- The search from some item on, after the counts of the items before it have been told. -/
theorem locateFrom_finds {base : UInt16} {counts : List UInt8} {n k : Nat} {before : List Exchange}
    (hn : counts.length + k = n) (hbyte : n < 256) (htold : p.CanTell config counts)
    (hbase : base.toNat = pairsBefore counts counts.length) (hle : base.toNat ≤ index.toNat)
    (hfield : p.Meets config t.machine.field)
    (ht : t.content.exchanges = tellings counts ++ before) :
    (locateFrom p.recorded index ((List.range' counts.length k).map .ofNat) base).Ensures t
      fun r t' => Finds p config n index.toNat before r t'.content.exchanges := by
  induction k generalizing counts base t with
  | zero =>
    rw [List.range'_zero, List.map_nil, locateFrom, Operation.ensures_throw, ht]
    refine .beyond htold hn ?_
    rwa [← pairsBefore_length, ← hbase]
  | succ k ih =>
    simp only [List.range'_succ, List.map_cons, locateFrom, Operation.ensures_bind]
    refine (askItem_tells _ 0).mono fun r t₁ hr => ?_
    obtain ⟨hreply, hfield₁, ht₁⟩ := hr
    rw [ht] at ht₁
    cases r with
    | error cause =>
      rw [ht₁]
      exact .refused (by omega) hfield hreply
    | ok pages =>
      rw [← List.cons_append, ← tellings_concat] at ht₁
      have hsum := pairsBefore_le counts counts.length
      have hpages := pages.toNat_lt
      have htoNat : (UInt8.ofNat counts.length).toNat = counts.length := by
        rw [UInt8.toNat_ofNat', Nat.mod_eq_of_lt (by omega)]
      obtain ⟨next, hadd, hnext⟩ := Checked.exists_add16 (a := base) (b := pages.toUInt16)
        (by rw [UInt8.toNat_toUInt16]; omega)
      rw [UInt8.toNat_toUInt16] at hnext
      have htold' := htold.concat hfield hreply
      have hbefore : pairsBefore (counts ++ [pages]) counts.length = base.toNat := by
        rw [pairsBefore_append (Nat.le_refl _), hbase]
      have hget : (counts ++ [pages])[counts.length]? = some pages := by simp
      simp only [Operation.ensures_liftM]
      refine ⟨next, hadd, ?_⟩
      by_cases hlt : index < next
      · -- What is left of the number is less than the item's pages, and so is a byte.
        obtain ⟨page, hsub, hpage⟩ := Checked.exists_sub16 hle
        have hwithin := UInt16.lt_iff_toNat_lt.1 hlt
        have hcast : page.toUInt8.toNat = index.toNat - base.toNat := by
          rw [UInt16.toNat_toUInt8, hpage, Nat.mod_eq_of_lt (by omega)]
        simp only [if_pos hlt, Operation.ensures_bind, Operation.ensures_liftM,
          Operation.ensures_pure]
        rw [ht₁]
        refine ⟨page, hsub, .found htold' (by simp; omega) (by simp [htoNat]) ⟨?_, ?_, ?_⟩⟩
        · rw [htoNat, hget]
        · change page.toUInt8 < pages
          rw [UInt8.lt_iff_toNat_lt, hcast]
          omega
        · simp only [htoNat, hbefore, hcast]
          omega
      · simp only [if_neg hlt]
        have hle' := Nat.not_lt.1 fun h => hlt (UInt16.lt_iff_toNat_lt.2 h)
        have hlength : counts.length + 1 = (counts ++ [pages]).length := by simp
        rw [hlength]
        refine ih (by simp; omega) htold' ?_ hle' (hfield₁ ▸ hfield.item _ _ _) ht₁
        rw [← hlength, pairsBefore_succ hget, hbefore, hnext]

/-- What the search for pair `index` comes to, with all the exchanges that it takes: the number of
items is asked for first. -/
def Searched (p : Provider σ) (config : Config) (index : UInt16)
    (t : Sitting StaticReview (Recorded σ)) (r : Except Error Place)
    (t' : Sitting StaticReview (Recorded σ)) : Prop :=
  match (p.itemCount t.content.content).1 with
  | .ok n => Finds p config n.toNat index.toNat
      (⟨.itemCount, .count (.ok n)⟩ :: t.content.exchanges) r t'.content.exchanges
  | .error cause => r = .error cause ∧
      t'.content.exchanges = ⟨.itemCount, .count (.error cause)⟩ :: t.content.exchanges

theorem locate_searched (hfield : p.Meets config t.machine.field) (index : UInt16) :
    (locate p.recorded index).Ensures t (Searched p config index t) := by
  have hasked : p.recorded.itemCount t.content = ((p.itemCount t.content.content).1,
      ⟨(p.itemCount t.content.content).2,
        ⟨.itemCount, .count (p.itemCount t.content.content).1⟩ :: t.content.exchanges⟩) := rfl
  simp only [locate, askItems, Operation.ensures_bind, Operation.ensures_ask,
    Operation.ensures_settle, hasked]
  cases hcount : (p.itemCount t.content.content).1 with
  | error cause =>
    simp only [Searched, hcount, and_self]
  | ok n =>
    have htold : p.CanTell config [] := fun i count hi => by cases hi
    have hzero : (0 : UInt16).toNat = pairsBefore [] 0 := rfl
    have hle : (0 : UInt16).toNat ≤ index.toNat := Nat.zero_le _
    simp only [Operation.ensures_pure]
    rw [List.range_eq_range']
    refine Operation.Ensures.mono
      (locateFrom_finds (Nat.zero_add _) n.toNat_lt htold hzero hle hfield rfl) fun r t' hr => ?_
    simpa only [Searched, hcount] using hr

/-- Where the counts stay, the search succeeds exactly for the numbers of pairs. -/
theorem locate_tells {pages : List UInt8} (h : p.Tells config pages)
    (hfield : p.Meets config t.machine.field) (index : UInt16) :
    (locate p.recorded index).Ensures t fun r _ =>
      (∃ place, r = .ok place ∧ place.Numbered pages index.toNat) ∨
        r = .error .outOfBounds ∧ (pages.map UInt8.toNat).sum ≤ index.toNat := by
  refine (locate_searched hfield index).mono fun r t' hr => ?_
  obtain ⟨n, hcount, hn⟩ := h.itemCount t.content.content
  have hlength := h.length_lt t.content.content
  simp only [Searched, hcount, hn] at hr
  generalize t'.content.exchanges = after at hr
  cases hr with
  | @found counts place htold hle _ hplace =>
    rw [h.eq_take hle hlength htold] at hplace
    have hplace := hplace.append (pages.drop counts.length)
    rw [List.take_append_drop] at hplace
    exact Or.inl ⟨place, rfl, hplace⟩
  | beyond htold heq hsum =>
    rw [h.eq_take (Nat.le_of_eq heq) hlength htold, heq, List.take_length] at hsum
    exact Or.inr ⟨rfl, hsum⟩
  | @refused counts f st cause hlt hf hcause =>
    have htoNat : (UInt8.ofNat counts.length).toNat = counts.length := by
      rw [UInt8.toNat_ofNat', Nat.mod_eq_of_lt (by omega)]
    have hpages := h.pages (.ofNat counts.length) _ f st hf
      (by rw [htoNat]; exact List.getElem?_eq_getElem hlt)
    cases hcause.symm.trans hpages

def Locates (p : Provider σ) (t : Sitting StaticReview (Recorded σ)) (index : UInt16)
    (place : Place) : Prop :=
  (locate p.recorded index).Ensures t fun r _ => r = .ok place

section

variable {pages : List UInt8} {place place' : Place}

theorem locates_iff (h : p.Tells config pages) (hfield : p.Meets config t.machine.field) :
    Locates p t index place ↔ place.Numbered pages index.toNat := by
  obtain ⟨r, t', heq, hr⟩ := locate_tells h hfield index
  rw [Locates, Operation.ensures_iff_of_eq heq]
  rcases hr with ⟨place', rfl, hplace⟩ | ⟨rfl, hsum⟩
  · constructor
    · intro h
      cases h
      exact hplace
    · exact fun h => congrArg Except.ok (hplace.unique h)
  · exact iff_of_false (by simp) fun h => Nat.not_lt.2 hsum h.lt_sum

theorem outOfBounds_iff (h : p.Tells config pages) (hfield : p.Meets config t.machine.field) :
    ((locate p.recorded index).Ensures t fun r _ => r = .error .outOfBounds) ↔
      (pages.map UInt8.toNat).sum ≤ index.toNat := by
  obtain ⟨r, t', heq, hr⟩ := locate_tells h hfield index
  rw [Operation.ensures_iff_of_eq heq]
  rcases hr with ⟨place, rfl, hplace⟩ | ⟨rfl, hsum⟩
  · exact iff_of_false (by simp) (Nat.not_le.2 hplace.lt_sum)
  · exact iff_of_true rfl hsum

/-- Every page of every item is found by exactly one number. -/
theorem existsUnique_locates (h : p.Tells config pages) (hfield : p.Meets config t.machine.field)
    (hpages : pages[place.item.toNat]? = some place.pages) (hwithin : place.page < place.pages) :
    ∃! index, Locates p t index place := by
  have hplace : place.Numbered pages _ := ⟨hpages, hwithin, rfl⟩
  have hlength := h.length_lt t.content.content
  have hsum := pairsBefore_le pages pages.length
  have hlt := hplace.lt_sum
  rw [← pairsBefore_length] at hlt
  refine ⟨.ofNat (pairsBefore pages place.item.toNat + place.page.toNat), ?_,
    fun index hindex => ?_⟩
  · refine (locates_iff h hfield).2 ?_
    rwa [UInt16.toNat_ofNat', Nat.mod_eq_of_lt (by omega)]
  · rw [← ((locates_iff h hfield).1 hindex).index_eq.symm, UInt16.ofNat_toNat]

end

/-- What becomes of a count of the pairs. A count of the screens instead goes the same way, and
comes to the pairs divided by those on a screen, rounded up. -/
def Counted (p : Provider σ) (t : Sitting StaticReview (Recorded σ)) :
    Except Error UInt16 → Sitting StaticReview (Recorded σ) → Prop
  | .ok total, t' => total.toNat ≤ 255 * 255 ∧
    (totalScreens p.recorded).Ensures t fun r t'' => t'' = t' ∧ ∃ screens, r = .ok screens ∧
      screens.toNat = total.toNat ⌈/⌉ min (max t.machine.config.pairsPerScreen.toNat 1) 8
  | .error cause, t' =>
    (totalScreens p.recorded).Ensures t fun r t'' => t'' = t' ∧ r = .error cause

theorem totalPairs_counted (ht : t.machine.Orderly) :
    (totalPairs p.recorded).Ensures t (Counted p t) := by
  obtain ⟨r, t', heq, hasked, hcount⟩ := totalPairs_asked (p := p) (t := t)
  refine ⟨r, t', heq, ?_⟩
  cases r with
  | error cause =>
    simp only [Counted, totalScreens, Operation.ensures_bind, Operation.ensures_iff_of_eq heq,
      and_self]
  | ok total =>
    have hle := (hasked.orderly ht).counted total hcount
    obtain ⟨sum, above, hadd, hsub, hscreens⟩ := exists_screenCount t'.machine hle
    refine ⟨hle, ?_⟩
    simp only [totalScreens, Operation.ensures_bind, Operation.ensures_iff_of_eq heq,
      Operation.ensures_machine, Operation.ensures_liftM, Operation.ensures_pure]
    refine ⟨sum, hadd, above, hsub, trivial, _, rfl, ?_⟩
    rw [hscreens, hasked.config, Nat.ceilDiv_eq_add_pred_div]
    rfl

structure Indexes (p : Provider σ) (config : Config) (t : Sitting StaticReview (Recorded σ)) :
    Prop where
  /-- Every call has a result, for which no word has overflowed. -/
  results (call : Call) : ∃ r t', call.perform p.recorded t = .ok (r, t')
  searches (index : UInt16) : (locate p.recorded index).Ensures t (Searched p config index t)
  counts : (totalPairs p.recorded).Ensures t (Counted p t)
  found (pages : List UInt8) (index : UInt16) (place : Place) : p.Tells config pages →
    (Locates p t index place ↔ place.Numbered pages index.toNat)
  found_iff (pages : List UInt8) (index : UInt16) : p.Tells config pages →
    ((∃ place, Locates p t index place) ↔ index.toNat < (pages.map UInt8.toNat).sum)
  beyond_iff (pages : List UInt8) (index : UInt16) : p.Tells config pages →
    (((locate p.recorded index).Ensures t fun r _ => r = .error .outOfBounds) ↔
      (pages.map UInt8.toNat).sum ≤ index.toNat)
  /-- Every page of every item has a number of its own. -/
  onto (pages : List UInt8) (place : Place) : p.Tells config pages →
    pages[place.item.toNat]? = some place.pages → place.page < place.pages →
    ∃! index, Locates p t index place
  ordered (pages : List UInt8) (index index' : UInt16) (place place' : Place) :
    p.Tells config pages → Locates p t index place → Locates p t index' place' → (index < index' ↔
      place.item < place'.item ∨ place.item = place'.item ∧ place.page < place'.page)

/-- However the provider answers and changes, no number of a review leaves its word; where its page
counts stay, numbers and pages correspond. -/
theorem indexes_of_run (h : Run p config steps t) : Indexes p config t where
  results call := by
    obtain ⟨r, t', heq, -⟩ := perform_does (p := p) h.tracks.orderly call
    exact ⟨r, t', heq⟩
  searches := locate_searched h.meets
  counts := totalPairs_counted h.tracks.orderly
  found pages index place hp := locates_iff hp h.meets
  found_iff pages index hp := by
    rw [← not_iff_not, Nat.not_lt, ← outOfBounds_iff hp h.meets]
    obtain ⟨r, t', heq, hr⟩ := locate_tells hp h.meets index
    simp only [Locates, Operation.ensures_iff_of_eq heq]
    rcases hr with ⟨place, rfl, -⟩ | ⟨rfl, -⟩ <;> simp
  beyond_iff pages index hp := outOfBounds_iff hp h.meets
  onto pages place hp := existsUnique_locates hp h.meets
  ordered pages index index' place place' hp hindex hindex' := by
    rw [UInt16.lt_iff_toNat_lt]
    exact ((locates_iff hp h.meets).1 hindex).lt_iff ((locates_iff hp h.meets).1 hindex')

/-- An item without pages between two others: the last of three pairs is the first page of the third
item. -/
theorem indexes_of_run_gapped : ∃ t,
    Run (Fixture.provider.fixed (.ofPages [2, 0, 1])) .nanoS [⟨.totalPairs, .ok (.count 3)⟩] t ∧
      (Fixture.provider.fixed (.ofPages [2, 0, 1])).Tells .nanoS [2, 0, 1] ∧
      Indexes (Fixture.provider.fixed (.ofPages [2, 0, 1])) .nanoS t ∧
      Locates (Fixture.provider.fixed (.ofPages [2, 0, 1])) t 2 ⟨2, 0, 1⟩ := by
  have hp : (Fixture.provider.fixed (.ofPages [2, 0, 1])).Tells .nanoS [2, 0, 1] :=
    ((Fixture.ofPages [2, 0, 1]).constant (by decide) rfl .nanoS).tells
  obtain ⟨t, hrun⟩ : ∃ t, Run (Fixture.provider.fixed (.ofPages [2, 0, 1])) .nanoS
      [⟨.totalPairs, .ok (.count 3)⟩] t := ⟨_, .call .totalPairs (.start ()) rfl⟩
  have hindexes := indexes_of_run hrun
  exact ⟨t, hrun, hp, hindexes,
    (hindexes.found [2, 0, 1] 2 ⟨2, 0, 1⟩ hp).2 ⟨rfl, by decide, rfl⟩⟩

end StaticReview

end WalletReview
