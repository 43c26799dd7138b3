import Mathlib.Algebra.GroupWithZero.Nat
import WalletReview.Proofs.Constant
import WalletReview.StaticReview

/-! The pairs of a review without a cursor, in front of items that stay the same: the pages of the
items in a row. They are counted, and found by their numbers, by adding up page counts. Of the
provider it takes no more than that it answers these questions without fail and always alike. -/
namespace WalletReview

variable {σ α β : Type} {config : Config} {pages : List UInt8} {x : Content} {p : Provider σ}

namespace Checked

variable {a b : UInt16}

theorem exists_add16 (h : a.toNat + b.toNat < 65536) :
    ∃ c, add16 a b = .ok c ∧ c.toNat = a.toNat + b.toNat :=
  ⟨a + b, if_pos h, by rw [UInt16.toNat_add, Nat.mod_eq_of_lt h]⟩

theorem exists_sub16 (h : b.toNat ≤ a.toNat) :
    ∃ c, sub16 a b = .ok c ∧ c.toNat = a.toNat - b.toNat :=
  ⟨a - b, if_pos (UInt16.le_iff_toNat_le.2 h),
    UInt16.toNat_sub_of_le _ _ (UInt16.le_iff_toNat_le.2 h)⟩

theorem exists_mul16 (h : a.toNat * b.toNat < 65536) :
    ∃ c, mul16 a b = .ok c ∧ c.toNat = a.toNat * b.toNat :=
  ⟨a * b, if_pos h, by rw [UInt16.toNat_mul, Nat.mod_eq_of_lt h]⟩

theorem toNat_min16 (a b : UInt16) : (min a b).toNat = min a.toNat b.toNat := by
  change (if a ≤ b then a else b).toNat = _
  split
  · rename_i hle
    exact (Nat.min_eq_left (UInt16.le_iff_toNat_le.1 hle)).symm
  · rename_i hlt
    rw [UInt16.le_iff_toNat_le, Nat.not_le] at hlt
    exact (Nat.min_eq_right (Nat.le_of_lt hlt)).symm

theorem max16_eq (a b : UInt16) : max a b = a ∨ max a b = b := by
  change (if a ≤ b then b else a) = a ∨ (if a ≤ b then b else a) = b
  split
  · exact Or.inr rfl
  · exact Or.inl rfl

theorem toNat_max16 (a b : UInt16) : (max a b).toNat = max a.toNat b.toNat := by
  change (if a ≤ b then b else a).toNat = _
  split
  · rename_i hle
    exact (Nat.max_eq_right (UInt16.le_iff_toNat_le.1 hle)).symm
  · rename_i hlt
    rw [UInt16.le_iff_toNat_le, Nat.not_le] at hlt
    exact (Nat.max_eq_left (Nat.le_of_lt hlt)).symm

end Checked

def entry (l : List α) (index : Nat) : Except Error α := l[index]?.elim (.error .outOfBounds) .ok

theorem entry_of_lt {l : List α} {index : Nat} (h : index < l.length) :
    entry l index = .ok l[index] := by
  rw [entry, List.getElem?_eq_getElem h]
  rfl

theorem entry_of_le {l : List α} {index : Nat} (h : l.length ≤ index) :
    entry l index = .error .outOfBounds := by
  rw [entry, List.getElem?_eq_none h]
  rfl

theorem entry_map (f : α → β) (l : List α) (index : Nat) :
    entry (l.map f) index = (entry l index).map f := by
  rw [entry, List.getElem?_map, entry]
  cases l[index]? <;> rfl

theorem entry_eq_ok_iff {l : List α} {index : Nat} {a : α} :
    entry l index = .ok a ↔ l[index]? = some a := by
  unfold entry
  cases l[index]? <;> simp

namespace Content

def shown (x : Content) (config : Config) (place : UInt8 × UInt8) : String × String :=
  (Field.labelled config.labelStyle place.2 (x.pages place.1) (x.item place.1 place.2).1,
    Field.padded (x.item place.1 place.2).2)

def places (x : Content) (items : List UInt8) : List (UInt8 × UInt8) :=
  items.flatMap fun item => (List.range (x.pages item).toNat).map fun page => (item, .ofNat page)

def pairs (x : Content) (config : Config) (pages : List UInt8) : List (String × String) :=
  (Walk.expectedPages pages).map (x.shown config)

def pair (x : Content) (config : Config) (place : UInt8 × UInt8) : Pair :=
  ⟨((BoundedText.empty _).set (x.shown config place).1).1,
    ((BoundedText.empty _).set (x.shown config place).2).1⟩

def pairList (x : Content) (config : Config) (pages : List UInt8) : List Pair :=
  (Walk.expectedPages pages).map (x.pair config)

def place (x : Content) (page : UInt8 × UInt8) : Place := ⟨page.1, page.2, x.pages page.1⟩

theorem places_cons (x : Content) (item : UInt8) (rest : List UInt8) :
    x.places (item :: rest) =
      ((List.range (x.pages item).toNat).map fun page => (item, UInt8.ofNat page)) ++
        x.places rest :=
  List.flatMap_cons

theorem places_cons_length (x : Content) (item : UInt8) (rest : List UInt8) :
    (x.places (item :: rest)).length = (x.pages item).toNat + (x.places rest).length := by
  rw [places_cons, List.length_append, List.length_map, List.length_range]

theorem places_length_le (x : Content) (items : List UInt8) :
    (x.places items).length ≤ 255 * items.length := by
  induction items with
  | nil => exact Nat.le_refl 0
  | cons item rest ih =>
    have hlt := (x.pages item).toNat_lt
    rw [places_cons_length, List.length_cons]
    omega

theorem entry_places_of_lt {item : UInt8} (rest : List UInt8) {index : Nat}
    (h : index < (x.pages item).toNat) :
    entry (x.places (item :: rest)) index = .ok (item, .ofNat index) := by
  rw [entry_eq_ok_iff, places_cons, List.getElem?_append_left (by simpa using h),
    List.getElem?_map, List.getElem?_range h]
  rfl

theorem entry_places_of_le {item : UInt8} (rest : List UInt8) {index : Nat}
    (h : (x.pages item).toNat ≤ index) :
    entry (x.places (item :: rest)) index =
      entry (x.places rest) (index - (x.pages item).toNat) := by
  rw [entry, places_cons, List.getElem?_append_right (by simpa using h), List.length_map,
    List.length_range, entry]

theorem of_mem_places {items : List UInt8} {place : UInt8 × UInt8} (h : place ∈ x.places items) :
    place.1 ∈ items ∧ place.2 < x.pages place.1 := by
  obtain ⟨item, hitem, hmem⟩ := List.mem_flatMap.1 h
  obtain ⟨page, hpage, rfl⟩ := List.mem_map.1 hmem
  have hbyte := (x.pages item).toNat_lt
  rw [List.mem_range] at hpage
  refine ⟨hitem, UInt8.lt_iff_toNat_lt.2 ?_⟩
  rw [UInt8.toNat_ofNat', Nat.mod_eq_of_lt (by omega)]
  exact hpage

theorem length_pairList (x : Content) (config : Config) (pages : List UInt8) :
    (x.pairList config pages).length = (pages.map UInt8.toNat).sum := by
  have hcounts : (pages.zipIdx.map fun count => count.1.toNat) = pages.map UInt8.toNat := by
    rw [← Function.comp_def UInt8.toNat Prod.fst, ← List.map_map, List.zipIdx_map_fst]
  rw [pairList, List.length_map, Walk.expectedPages, List.length_flatMap]
  simpa using congrArg List.sum hcounts

end Content

def itemIndices (pages : List UInt8) : List UInt8 := (List.range pages.length).map .ofNat

theorem length_itemIndices : (itemIndices pages).length = pages.length := by
  rw [itemIndices, List.length_map, List.length_range]

theorem lt_of_mem_itemIndices (hlength : pages.length < 256) {item : UInt8}
    (h : item ∈ itemIndices pages) : item.toNat < pages.length := by
  obtain ⟨i, hi, rfl⟩ := List.mem_map.1 h
  have hi := List.mem_range.1 hi
  rw [UInt8.toNat_ofNat', Nat.mod_eq_of_lt (by omega)]
  exact hi

/-- The provider has items with the given page counts, and answers for their pages, always alike and
without fail. On an empty field it writes the text of the content, on another one some text. -/
structure Provider.Lists (p : Provider σ) (config : Config) (pages : List UInt8) (x : Content) :
    Prop where
  itemCount : ∀ st, ∃ count, (p.itemCount st).1 = .ok count ∧ count.toNat = pages.length
  pages_eq : ∀ index count, pages[index.toNat]? = some count → x.pages index = count
  count : ∀ index f st, index.toNat < pages.length → f.Clean config →
    (p.item index 0 f st).1 = .ok (x.pages index)
  clean : ∀ index page f st, index.toNat < pages.length → f.Clean config →
    (p.item index page f st).2.1.Clean config
  writes : ∀ index page st, index.toNat < pages.length → page < x.pages index →
    (∃ count, (p.item index page (.blank config) st).1 = .ok count) ∧
      (p.item index page (.blank config) st).2.1.Holds (x.item index page)

theorem Provider.Constant.lists (h : p.Constant config pages x) (st : σ) :
    p.Lists config pages x where
  itemCount := h.itemCount
  pages_eq _ _ := h.pages_eq st
  count index f st' hindex hf := by
    have hcount := List.getElem?_eq_getElem hindex
    rw [h.item index 0 f st' _ hf hcount, h.pages_eq st hcount]
  clean index page f st' _ hf := h.clean index page f st' hf
  writes index page st' hindex _ := by
    have hreply := h.item index page (.blank config) st' _ Field.clean_blank
      (List.getElem?_eq_getElem hindex)
    exact ⟨⟨_, hreply⟩, ((h.presents.item index page st').2 _ hreply).2⟩

namespace Provider.Lists

theorem recorded (h : p.Lists config pages x) : p.recorded.Lists config pages x where
  itemCount st := h.itemCount st.content
  pages_eq := h.pages_eq
  count index f st := h.count index f st.content
  clean index page f st := h.clean index page f st.content
  writes index page st := h.writes index page st.content

theorem length_lt (h : p.Lists config pages x) (st : σ) : pages.length < 256 := by
  obtain ⟨count, -, hcount⟩ := h.itemCount st
  rw [← hcount]
  exact count.toNat_lt

theorem places_itemIndices (h : p.Lists config pages x) (st : σ) :
    x.places (itemIndices pages) = Walk.expectedPages pages := by
  have hlength := h.length_lt st
  rw [Content.places, Walk.expectedPages, List.flatMap_def, List.flatMap_def, itemIndices,
    List.map_map]
  congr 1
  apply List.ext_getElem (by simp)
  intro i hi _
  have hi : i < pages.length := by simpa using hi
  have htoNat : (UInt8.ofNat i).toNat = i := by
    rw [UInt8.toNat_ofNat', Nat.mod_eq_of_lt (by omega)]
  have hpages : x.pages (.ofNat i) = pages[i] :=
    h.pages_eq _ _ (by rw [htoNat]; exact List.getElem?_eq_getElem hi)
  simp [hpages, Nat.toUInt8]

theorem pairList_eq (h : p.Lists config pages x) (st : σ) :
    x.pairList config pages = (x.places (itemIndices pages)).map (x.pair config) := by
  rw [Content.pairList, h.places_itemIndices st]

theorem pairList_length_le (h : p.Lists config pages x) (st : σ) :
    (x.pairList config pages).length ≤ 255 * 255 := by
  have hlength := h.length_lt st
  have hle := x.places_length_le (itemIndices pages)
  rw [length_itemIndices] at hle
  rw [h.pairList_eq st, List.length_map]
  omega

theorem holds_of_mem (h : p.Lists config pages x) (st : σ) {place : UInt8 × UInt8}
    (hplace : place ∈ x.places (itemIndices pages)) :
    (p.item place.1 place.2 (.blank config) st).2.1.Holds (x.item place.1 place.2) := by
  obtain ⟨hitem, hpage⟩ := Content.of_mem_places hplace
  exact (h.writes _ _ st (lt_of_mem_itemIndices (h.length_lt st) hitem) hpage).2

end Provider.Lists

theorem BoundedText.Holds.set_self {n : Nat} {t : BoundedText n} {cs : List Char} (h : t.Holds cs)
    {s : String} (hs : Text.size s.toList ≤ n) : (t.set s).1.Holds s.toList := by
  have hset := h.set s
  rwa [Text.fitting_eq_self hs] at hset

theorem Field.Holds.shown_value {f : Field} {text : String × String} (h : f.Holds text) :
    (if f.value.isEmpty then " " else f.value.text) = padded text.2 := by
  have hempty : f.value.isEmpty = true ↔ text.2 = "" := by
    rw [h.value.isEmpty_iff, String.toList_eq_nil_iff]
  unfold padded
  rw [h.value.text, String.ofList_toList]
  by_cases hvalue : text.2 = ""
  · rw [if_pos (hempty.2 hvalue), if_pos hvalue]
  · rw [if_neg fun h => hvalue (hempty.1 h), if_neg hvalue]

namespace Pair

def text (pair : Pair) : String × String := (pair.key.text, pair.value.text)

structure Clean (pair : Pair) : Prop where
  key : ∃ cs, pair.key.Holds cs
  value : ∃ cs, pair.value.Holds cs

theorem clean_empty : empty.Clean := ⟨⟨[], BoundedText.holds_empty⟩, ⟨[], BoundedText.holds_empty⟩⟩

/-- A page that is copied from a field is the pair that stands for it, whatever the pair was. -/
theorem copied_eq {w : Field} {item page : UInt8} (hw : w.Holds (x.item item page)) {out : Pair}
    (hout : out.Clean) :
    (⟨(out.key.set w.key.text).1.appendLabel page (x.pages item) config.labelStyle,
      (out.value.set (if w.value.isEmpty then " " else w.value.text)).1⟩ : Pair) =
        x.pair config (item, page) := by
  obtain ⟨⟨key, hkey⟩, ⟨value, hvalue⟩⟩ := hout
  have hkey := hkey.set_self hw.key.fits
  have hvalue := hvalue.set_self hw.filled.value.fits
  have hlabelled := (Field.Holds.labelKey (f := ⟨_, w.value, 0⟩) ⟨hkey, hw.value⟩ page
    (x.pages item) config.labelStyle).key
  rw [hw.shown_value, hw.key.text, String.ofList_toList, Content.pair, Pair.mk.injEq]
  exact ⟨hlabelled.unique (BoundedText.holds_empty.set_self hlabelled.fits),
    hvalue.unique (BoundedText.holds_empty.set_self hvalue.fits)⟩

end Pair

theorem Field.Holds.pair_text {w : Field} {place : UInt8 × UInt8}
    (h : w.Holds (x.item place.1 place.2)) : (x.pair config place).text = x.shown config place := by
  have hkey : Text.size (x.shown config place).1.toList ≤ keyCapacity :=
    (h.labelKey place.2 (x.pages place.1) config.labelStyle).key.fits
  have hvalue : Text.size (x.shown config place).2.toList ≤ valueCapacity := h.filled.value.fits
  rw [Pair.text, Content.pair, (BoundedText.holds_empty.set_self hkey).text,
    (BoundedText.holds_empty.set_self hvalue).text, String.ofList_toList, String.ofList_toList]

/-- The pairs for the pages of a content show its texts. -/
theorem Provider.Lists.pairList_text (h : p.Lists config pages x) (st : σ) :
    (x.pairList config pages).map Pair.text = x.pairs config pages := by
  rw [h.pairList_eq st, Content.pairs, ← h.places_itemIndices st, List.map_map]
  exact List.map_congr_left fun place hplace => (h.holds_of_mem st hplace).pair_text

namespace StaticReview

/-- Only the field has changed, and it holds some text. -/
def Refills (config : Config) (r r' : StaticReview) : Prop :=
  ∃ w, w.Clean config ∧ r' = { r with field := w }

theorem Refills.refl {r : StaticReview} (h : r.field.Clean config) : Refills config r r :=
  ⟨r.field, h, rfl⟩

theorem Refills.trans {r r' r'' : StaticReview} (h : Refills config r r')
    (h' : Refills config r' r'') : Refills config r r'' := by
  obtain ⟨w, -, rfl⟩ := h
  obtain ⟨w', hw', rfl⟩ := h'
  exact ⟨w', hw', rfl⟩

theorem Refills.clean {r r' : StaticReview} (h : Refills config r r') : r'.field.Clean config := by
  obtain ⟨w, hw, rfl⟩ := h
  exact hw

theorem Refills.clear {r r' : StaticReview} (h : Refills config r r') :
    Refills config r { r' with field := r'.field.clear } := by
  obtain ⟨w, hw, rfl⟩ := h
  exact ⟨w.clear, hw.clear, rfl⟩

theorem Refills.config_eq {r r' : StaticReview} (h : Refills config r r') :
    r'.config = r.config := by
  obtain ⟨w, -, rfl⟩ := h
  rfl

variable {t : Sitting StaticReview σ}

@[simp] theorem ensures_modifyField {f : Field → Field}
    {post : Except Error Unit → Sitting StaticReview σ → Prop} :
    (modifyField f : Operation StaticReview σ Unit).Ensures t post ↔
      post (.ok ()) { t with machine := { t.machine with field := f t.machine.field } } :=
  Operation.ensures_modifyMachine

theorem ensures_askItem {item page : UInt8}
    {post : Except Error UInt8 → Sitting StaticReview σ → Prop} :
    (askItem p item page).Ensures t post ↔
      post (p.item item page t.machine.field t.content).1 { t with
        machine := { t.machine with field := (p.item item page t.machine.field t.content).2.1 }
        content := (p.item item page t.machine.field t.content).2.2 } := by
  simp [askItem, Operation.askField]

variable (hp : p.Lists config pages x)

include hp

theorem askItem_ensures {item : UInt8} (hitem : item.toNat < pages.length)
    (ht : t.machine.field.Clean config) :
    (askItem p item 0).Ensures t fun r t' =>
      r = .ok (x.pages item) ∧ Refills config t.machine t'.machine := by
  rw [ensures_askItem]
  exact ⟨hp.count _ _ _ hitem ht, _, hp.clean _ _ _ _ hitem ht, rfl⟩

theorem askItems_ensures : (askItems p).Ensures t fun r t' =>
    r = .ok (itemIndices pages) ∧ t'.machine = t.machine := by
  obtain ⟨count, hcount, hlength⟩ := hp.itemCount t.content
  simp only [askItems, Operation.ensures_bind, Operation.ensures_ask, Operation.ensures_settle,
    hcount, Operation.ensures_pure, hlength, itemIndices, and_self]

theorem sumPages_ensures {items : List UInt8} (hitems : ∀ item ∈ items, item.toNat < pages.length)
    {sum : UInt16} (hsum : sum.toNat + (x.places items).length < 65536)
    (ht : t.machine.field.Clean config) :
    (sumPages p items sum).Ensures t fun r t' =>
      ∃ n : UInt16, r = .ok n ∧ n.toNat = sum.toNat + (x.places items).length ∧
        Refills config t.machine t'.machine := by
  induction items generalizing sum t with
  | nil =>
    rw [sumPages, Operation.ensures_pure]
    exact ⟨sum, rfl, rfl, .refl ht⟩
  | cons item rest ih =>
    rw [Content.places_cons_length] at hsum ⊢
    simp only [sumPages, Operation.ensures_bind]
    refine (askItem_ensures hp (hitems item List.mem_cons_self) ht).mono fun r t₁ hr => ?_
    obtain ⟨rfl, ht₁⟩ := hr
    rw [← UInt8.toNat_toUInt16] at hsum ⊢
    obtain ⟨next, hadd, hnext⟩ :=
      Checked.exists_add16 (a := sum) (b := (x.pages item).toUInt16) (by omega)
    simp only [Operation.ensures_liftM]
    refine ⟨next, hadd, (ih (fun item h => hitems item (List.mem_cons_of_mem _ h)) (by omega)
      ht₁.clean).mono fun r t₂ hr => ?_⟩
    obtain ⟨n, rfl, hn, ht₂⟩ := hr
    exact ⟨n, rfl, by omega, ht₁.trans ht₂⟩

/-- A pair is found by its number, if there is one with this number. -/
theorem locateFrom_ensures {index base : UInt16} {items : List UInt8}
    (hitems : ∀ item ∈ items, item.toNat < pages.length) (hbase : base.toNat ≤ index.toNat)
    (hroom : base.toNat + (x.places items).length < 65536) (ht : t.machine.field.Clean config) :
    (locateFrom p index items base).Ensures t fun r t' =>
      r = (entry (x.places items) (index.toNat - base.toNat)).map x.place ∧
        Refills config t.machine t'.machine := by
  induction items generalizing base t with
  | nil =>
    rw [locateFrom, Operation.ensures_throw]
    exact ⟨rfl, .refl ht⟩
  | cons item rest ih =>
    rw [Content.places_cons_length] at hroom
    simp only [locateFrom, Operation.ensures_bind]
    refine (askItem_ensures hp (hitems item List.mem_cons_self) ht).mono fun r t₁ hr => ?_
    obtain ⟨rfl, ht₁⟩ := hr
    obtain ⟨next, hadd, hnext⟩ := Checked.exists_add16 (a := base) (b := (x.pages item).toUInt16)
      (by rw [UInt8.toNat_toUInt16]; omega)
    rw [UInt8.toNat_toUInt16] at hnext
    simp only [Operation.ensures_liftM]
    refine ⟨next, hadd, ?_⟩
    -- The pair is one of this item, or is looked for among the items that follow.
    by_cases hlt : index < next
    · have hwithin := UInt16.lt_iff_toNat_lt.1 hlt
      obtain ⟨page, hsub, hpage⟩ := Checked.exists_sub16 hbase
      simp only [if_pos hlt, Operation.ensures_bind, Operation.ensures_liftM,
        Operation.ensures_pure]
      refine ⟨page, hsub, ?_, ht₁⟩
      rw [Content.entry_places_of_lt _ (by omega), ← hpage]
      rfl
    · have hbeyond := Nat.not_lt.1 (fun h => hlt (UInt16.lt_iff_toNat_lt.2 h))
      simp only [if_neg hlt]
      refine (ih (fun item h => hitems item (List.mem_cons_of_mem _ h)) hbeyond (by omega)
        ht₁.clean).mono fun r t₂ hr => ?_
      obtain ⟨rfl, ht₂⟩ := hr
      refine ⟨?_, ht₁.trans ht₂⟩
      rw [Content.entry_places_of_le _ (by omega), hnext, Nat.sub_add_eq]

theorem locate_ensures {index : UInt16} (ht : t.machine.field.Clean config) :
    (locate p index).Ensures t fun r t' =>
      r = (entry (x.places (itemIndices pages)) index.toNat).map x.place ∧
        Refills config t.machine t'.machine := by
  have hlength := hp.length_lt t.content
  have hplaces := x.places_length_le (itemIndices pages)
  rw [length_itemIndices] at hplaces
  simp only [locate, Operation.ensures_bind]
  refine (askItems_ensures hp).mono fun r t₁ hr => ?_
  obtain ⟨rfl, ht₁⟩ := hr
  rw [← ht₁] at ht ⊢
  refine (locateFrom_ensures hp (fun item => lt_of_mem_itemIndices hlength)
    (by rw [UInt16.toNat_zero]; omega) (by rw [UInt16.toNat_zero]; omega) ht).mono fun r t₂ hr => ?_
  rwa [UInt16.toNat_zero, Nat.sub_zero] at hr

theorem askItem_writes {item page : UInt8} (hitem : item.toNat < pages.length)
    (hpage : page < x.pages item) (ht : t.machine.field = .blank config) :
    (askItem p item page).Ensures t fun r t' => (∃ count, r = .ok count) ∧
      t'.machine.field.Holds (x.item item page) ∧ Refills config t.machine t'.machine := by
  obtain ⟨hreply, hholds⟩ := hp.writes item page t.content hitem hpage
  rw [ensures_askItem, ht]
  exact ⟨hreply, hholds, _, hp.clean _ _ _ _ hitem Field.clean_blank, rfl⟩

/-- A pair is the one for its page, if there is one with this number, whatever it is written over.
-/
theorem pairAt_ensures {index : UInt16} {out : Pair} (hconfig : t.machine.config = config)
    (ht : t.machine.field.Clean config) :
    (pairAt p index out).Ensures t fun r t' =>
      (out.Clean → r = entry (x.pairList config pages) index.toNat) ∧
        Refills config t.machine t'.machine := by
  rw [hp.pairList_eq t.content, entry_map]
  simp only [pairAt, Operation.ensures_bind]
  refine (locate_ensures hp ht).mono fun r t₁ hr => ?_
  obtain ⟨rfl, ht₁⟩ := hr
  cases hplace : entry (x.places (itemIndices pages)) index.toNat with
  | error cause => exact ⟨fun _ => rfl, ht₁⟩
  | ok place =>
    obtain ⟨item, page⟩ := place
    obtain ⟨hitem, hpage⟩ :=
      Content.of_mem_places (List.mem_of_getElem? (entry_eq_ok_iff.1 hplace))
    simp only [Except.map, Content.place, ensures_modifyField]
    refine (askItem_writes hp (lt_of_mem_itemIndices (hp.length_lt t.content) hitem) hpage
      ht₁.clean.clear_eq).mono fun r t₂ hr => ?_
    obtain ⟨⟨count, rfl⟩, hw, ht₂⟩ := hr
    have hrefills := ht₁.clear.trans ht₂
    simp only [Operation.ensures_machine, Operation.ensures_pure]
    refine ⟨fun hout => ?_, hrefills.clear⟩
    rw [hrefills.config_eq, hconfig]
    exact congrArg Except.ok (Pair.copied_eq hw hout)

end StaticReview
end WalletReview
