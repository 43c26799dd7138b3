import WalletReview.Proofs.Content
import WalletReview.Proofs.Linear
import WalletReview.Proofs.Refines
import WalletReview.Scripted

/-! Providers that never fail and always answer the same, with as many pages to an item whichever of
them is asked for. How many these are may follow from the length of a page. -/
namespace WalletReview

variable {σ : Type} {config : Config} {pages : List UInt8} {x : Content} {p : Provider σ}

/-- The provider has items with the given page counts, and their pages are those of the content. -/
structure Provider.Constant (p : Provider σ) (config : Config) (pages : List UInt8) (x : Content) :
    Prop where
  presents : p.Presents config x
  itemCount : ∀ st, ∃ count, (p.itemCount st).1 = .ok count ∧ count.toNat = pages.length
  item : ∀ index page f st count, f.Clean config → pages[index.toNat]? = some count →
    (p.item index page f st).1 = .ok count
  /-- Also on a field that is not cleared, the provider writes nothing but text. -/
  clean : ∀ index page f st, f.Clean config → (p.item index page f st).2.1.Clean config
  title : ∀ st, (p.title (.blank config) st).1 = .ok () ∨
    (p.title (.blank config) st).1 = .error .noData

def Contract.constant (config : Config) (pages : List UInt8) (x : Content) : Contract config :=
  { Contract.presented config x with
    itemCount := fun r => ∃ count, r = .ok count ∧ count.toNat = pages.length
    item := fun index page r w =>
      Content.Writes config (x.pages index) (x.item index page) r w ∧
        ∀ count, pages[index.toNat]? = some count → r = .ok count
    title := fun r w => Content.WritesTitle config x.title r w ∧ (r = .ok () ∨ r = .error .noData) }

theorem Contract.constant_refines : (Contract.constant config pages x).Refines
    (Contract.paged config pages fun r => r = .ok () ∨ r = .error .noData) where
  field _ _ := trivial
  itemCount _ h := h
  item _ _ _ _ h := h.2
  title _ _ h := h.2

namespace Provider.Constant

theorem honours (h : p.Constant config pages x) :
    p.Honours (Contract.constant config pages x) where
  itemCount st := h.itemCount st
  item index page f st hf := by
    obtain ⟨hwrites, hclean⟩ := h.presents.honours.item index page f st hf
    have hcleared := (Contract.presented config x).field_clear f hf
    exact ⟨⟨hwrites, fun count hcount => h.item index page _ st count hcleared hcount⟩, hclean⟩
  title f st hf := by
    obtain ⟨hwrites, hclean⟩ := h.presents.honours.title f st hf
    refine ⟨⟨hwrites, ?_⟩, hclean⟩
    rw [Field.Clean.clear_eq hf]
    exact h.title st
  childCount path st := h.presents.honours.childCount path st
  child path child page f st hf := h.presents.honours.child path child page f st hf
  canInspect _ _ _ := trivial

theorem pages_eq (h : p.Constant config pages x) {index count : UInt8} (st : σ)
    (hcount : pages[index.toNat]? = some count) : x.pages index = count := by
  have hreply := h.item index 0 (.blank config) st count Field.clean_blank hcount
  exact ((h.presents.item index 0 st).2 count hreply).1.symm

theorem length_lt (h : p.Constant config pages x) (st : σ) : pages.length < 256 := by
  obtain ⟨count, -, hcount⟩ := h.itemCount st
  rw [← hcount]
  exact count.toNat_lt

end Provider.Constant

theorem Contract.not_fails_constant : ¬(Contract.constant config pages x).Fails :=
  fun h => Contract.not_fails_paged (fun _ hr => hr) (h.mono Contract.constant_refines)

theorem BoundedText.Holds.setPage {n : Nat} {t : BoundedText n} {cs : List Char} (h : t.Holds cs)
    (s : String) (width : Nat) (page : UInt8) : ∃ ds, (t.setPage s width page).1.Holds ds :=
  ⟨_, h.clear.appendChars _⟩

theorem Field.Clean.setPage {f : Field} (h : f.Clean config) (key value : String) (page : UInt8) :
    (f.setPage key value page).1.Clean config := by
  obtain ⟨cs, hcs⟩ := (h.setKey key).value
  exact ⟨(h.setKey key).key, hcs.setPage value f.pageLength page, h.pageLength⟩

theorem Field.Clean.writePage {f : Field} (h : f.Clean config) (key : String)
    (index page pages : UInt8) : (Fixture.writePage key index page pages f).Clean config := by
  unfold Fixture.writePage
  simp only
  split
  · exact (h.setKey key).setValue _
  · exact h.setKey key

theorem Fixture.constant (y : Fixture) (hitems : y.items.length < 256) (hfail : y.failAt = none)
    (config : Config) :
    (provider.fixed y).Constant config (y.items.map (·.value)) (y.content config) where
  presents := y.presents config
  itemCount _ := by
    refine ⟨y.items.length.toUInt8, rfl, ?_⟩
    rw [Nat.toUInt8, UInt8.toNat_ofNat', Nat.mod_eq_of_lt hitems, List.length_map]
  item index page f _ count _ hcount := by
    rw [List.getElem?_map, Option.map_eq_some_iff] at hcount
    obtain ⟨item, hitem, rfl⟩ := hcount
    simp [Provider.fixed, provider, hfail, hitem]
  clean index page f _ hf := by
    simp only [Provider.fixed, provider, hfail, reduceCtorEq, ↓reduceIte]
    cases y.items[index.toNat]? with
    | none => exact hf
    | some item => exact hf.writePage _ index page item.value
  title _ := by
    simp only [Provider.fixed, provider]
    cases y.title with
    | none => exact Or.inr rfl
    | some text => exact Or.inl rfl

namespace Listing

def pageCount (config : Config) (value : String) : UInt8 :=
  saturate8 (Text.pages valueCapacity (Field.blank config).pageLength value).length

def layout (y : Listing) (config : Config) : List UInt8 := y.map fun text => pageCount config text.2

/-- The pages of a listing, cut at the length that the configuration sets. -/
def content (y : Listing) (config : Config) : Content where
  pages index := (y.layout config)[index.toNat]?.getD 0
  item index page :=
    let text := y[index.toNat]?.getD ("", "")
    let w := ((Field.blank config).setPage text.1 text.2 page).1
    (w.key.text, w.value.text)
  title := none
  childCount _ := 0
  childPages _ _ := 0
  child _ _ _ := ("", "")

theorem item_eq (y : Listing) {index : UInt8} {text : String × String}
    (h : y[index.toNat]? = some text) (page : UInt8) (f : Field) :
    (provider.fixed y).item index page f () =
      (.ok (f.setPage text.1 text.2 page).2, (f.setPage text.1 text.2 page).1, ()) := by
  simp [Provider.fixed, provider, h]

theorem item_eq_of_none (y : Listing) {index : UInt8} (h : y[index.toNat]? = none) (page : UInt8)
    (f : Field) : (provider.fixed y).item index page f () = (.error .noData, f, ()) := by
  simp [Provider.fixed, provider, h]

theorem presents (y : Listing) (config : Config) :
    (provider.fixed y).Presents config (y.content config) where
  item index page _ := by
    cases htext : y[index.toNat]? with
    | some text =>
      have hclean : ((Field.blank config).setPage text.1 text.2 page).1.Clean config :=
        Field.clean_blank.setPage text.1 text.2 page
      rw [y.item_eq htext]
      refine ⟨hclean, fun n hn => ?_⟩
      cases hn
      simp only [content, layout, List.getElem?_map, htext, Option.map_some, Option.getD_some]
      exact ⟨rfl, hclean.holds_text⟩
    | none =>
      rw [y.item_eq_of_none htext]
      exact ⟨Field.clean_blank, fun n hn => by cases hn⟩
  title _ := ⟨Field.clean_blank, fun h => by cases h⟩
  childCount _ _ count h := by cases h
  child _ _ _ _ := ⟨Field.clean_blank, fun n hn => by cases hn⟩

theorem constant (y : Listing) (h : y.length ≤ 255) (config : Config) :
    (provider.fixed y).Constant config (y.layout config) (y.content config) where
  presents := y.presents config
  itemCount _ := by
    refine ⟨y.length.toUInt8, rfl, ?_⟩
    rw [Nat.toUInt8, UInt8.toNat_ofNat', Nat.mod_eq_of_lt (by omega), layout, List.length_map]
  item index page f _ count hf hcount := by
    rw [layout, List.getElem?_map, Option.map_eq_some_iff] at hcount
    obtain ⟨text, htext, rfl⟩ := hcount
    rw [y.item_eq htext, pageCount, ← hf.pageLength]
    rfl
  clean index page f _ hf := by
    cases htext : y[index.toNat]? with
    | some text =>
      rw [y.item_eq htext]
      exact hf.setPage text.1 text.2 page
    | none =>
      rw [y.item_eq_of_none htext]
      exact hf
  title _ := Or.inr rfl

/-- A value that is longer than a page of the smallest screen, and an empty one. -/
def transfer : Listing :=
  [("Recipient", "0x5aAeb6053F3E94C9b9A09f33669435E7Ef1BeAed"), ("Memo", "")]

end Listing
end WalletReview
