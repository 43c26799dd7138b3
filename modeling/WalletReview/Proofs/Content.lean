import WalletReview.Fixture
import WalletReview.Proofs.Contract
import WalletReview.Proofs.BoundedText

/-! Fixed contents: texts and page counts that do not change from one question to the next. A
provider presents a content if what it writes on an empty field is the text of the content. -/
namespace WalletReview

variable {σ : Type} {config : Config}

namespace Field

/-- Key and value of the field are a text, with nothing left behind it. -/
structure Holds (f : Field) (text : String × String) : Prop where
  key : f.key.Holds text.1.toList
  value : f.value.Holds text.2.toList

def blank (config : Config) : Field := (Field.empty 0).setPageLength config.pageLength

/-- The field holds some text, for pages of the length that the configuration sets. -/
structure Clean (config : Config) (f : Field) : Prop where
  key : ∃ cs, f.key.Holds cs
  value : ∃ cs, f.value.Holds cs
  pageLength : f.pageLength = (blank config).pageLength

variable {f : Field} {text : String × String}

theorem Clean.clear_eq (h : f.Clean config) : f.clear = blank config := by
  obtain ⟨key, hkey⟩ := h.key
  obtain ⟨value, hvalue⟩ := h.value
  have hlength := h.pageLength
  obtain ⟨k, v, l⟩ := f
  simp only at hkey hvalue hlength
  simp only [Field.clear, hkey.clear_eq, hvalue.clear_eq, hlength]
  rfl

theorem clean_blank : (blank config).Clean config :=
  ⟨⟨[], BoundedText.holds_empty⟩, ⟨[], BoundedText.holds_empty⟩, rfl⟩

theorem Clean.clear (h : f.Clean config) : f.clear.Clean config := by
  rw [h.clear_eq]
  exact clean_blank

theorem Clean.wipe_eq (h : f.Clean config) : f.wipe = blank config := by
  obtain ⟨key, value, length⟩ := f
  have hlength : length = (blank config).pageLength := h.pageLength
  rw [hlength]
  rfl

theorem Clean.wipe (h : f.Clean config) : f.wipe.Clean config := by
  rw [h.wipe_eq]
  exact clean_blank

theorem Clean.labelKey (h : f.Clean config) (page count : UInt8) (style : LabelStyle) :
    (f.labelKey page count style).Clean config := by
  obtain ⟨cs, hcs⟩ := h.key
  exact ⟨⟨_, hcs.appendLabel page count style⟩, h.value, h.pageLength⟩

theorem Clean.setPageLength (h : f.Clean config) :
    (f.setPageLength config.pageLength).Clean config :=
  ⟨h.key, h.value, rfl⟩

theorem Clean.setKey (h : f.Clean config) (key : String) : (f.setKey key).Clean config := by
  obtain ⟨cs, hcs⟩ := h.key
  exact ⟨⟨_, hcs.set key⟩, h.value, h.pageLength⟩

theorem Clean.setValue (h : f.Clean config) (value : String) : (f.setValue value).Clean config := by
  obtain ⟨cs, hcs⟩ := h.value
  exact ⟨h.key, ⟨_, hcs.set value⟩, h.pageLength⟩

theorem Clean.holds_text (h : f.Clean config) : f.Holds (f.key.text, f.value.text) := by
  obtain ⟨key, hkey⟩ := h.key
  obtain ⟨value, hvalue⟩ := h.value
  exact ⟨by rw [hkey.text, String.toList_ofList]; exact hkey,
    by rw [hvalue.text, String.toList_ofList]; exact hvalue⟩

theorem Clean.holds_setText (h : f.Clean config) (hkey : Text.size text.1.toList ≤ keyCapacity)
    (hvalue : Text.size text.2.toList ≤ valueCapacity) :
    ((f.setKey text.1).setValue text.2).Holds text := by
  obtain ⟨key, hk⟩ := h.key
  obtain ⟨value, hv⟩ := h.value
  have h1 := hk.set text.1
  have h2 := hv.set text.2
  rw [Text.fitting_eq_self hkey] at h1
  rw [Text.fitting_eq_self hvalue] at h2
  exact ⟨h1, h2⟩

/-- A key with the number of a page, counted from one, and that of all pages behind it, as far as
they fit. Nothing is put behind the key of a single page. -/
def labelled (style : LabelStyle) (page count : UInt8) (key : String) : String :=
  if count ≤ 1 then key
  else
    let numbers := toString (page.toNat + 1) ++ "/" ++ toString count.toNat
    match style with
    | .brackets => .ofList (Text.fitting keyCapacity (key ++ (" [" ++ numbers ++ "]")).toList)
    | .parens => .ofList (Text.fitting keyCapacity (key ++ (" (" ++ numbers ++ ")")).toList)

def padded (value : String) : String := if value = "" then " " else value

theorem Holds.labelKey (h : f.Holds text) (page count : UInt8) (style : LabelStyle) :
    (f.labelKey page count style).Holds (labelled style page count text.1, text.2) := by
  refine ⟨?_, h.value⟩
  have h1 := h.key.appendLabel page count style
  unfold labelled
  split
  · rename_i hle
    rwa [if_pos hle] at h1
  · rename_i hlt
    rw [if_neg hlt] at h1
    cases style
    all_goals
      simp only [String.toList_ofList]
      rw [String.toList_append]
      exact h1

theorem Holds.filled (h : f.Holds text) : f.filled.Holds (text.1, padded text.2) := by
  unfold Field.filled padded
  have hempty : f.value.isEmpty = true ↔ text.2 = "" := by
    rw [h.value.isEmpty_iff, String.toList_eq_nil_iff]
  by_cases hvalue : text.2 = ""
  · rw [if_pos (hempty.2 hvalue), if_pos hvalue]
    have hvalue := h.value.set " "
    rw [Text.fitting_eq_self (by decide)] at hvalue
    exact ⟨h.key, hvalue⟩
  · rw [if_neg (fun h => hvalue (hempty.1 h)), if_neg hvalue]
    exact h

end Field

/-- What a content has to show, and how much of it there is. -/
structure Content where
  pages : (index : UInt8) → UInt8
  item : (index page : UInt8) → String × String
  title : Option (String × String)
  childCount : List UInt8 → UInt8
  childPages : List UInt8 → (child : UInt8) → UInt8
  child : List UInt8 → (child page : UInt8) → String × String

namespace Content

/-- The provider wrote a text of which there are `pages` pages, if it did not fail. -/
def Writes (config : Config) (pages : UInt8) (text : String × String) (reply : Except Error UInt8)
    (w : Field) : Prop :=
  w.Clean config ∧ ∀ n, reply = .ok n → n = pages ∧ w.Holds text

def WritesTitle (config : Config) (title : Option (String × String)) (reply : Except Error Unit)
    (w : Field) : Prop :=
  w.Clean config ∧ match title with
    | some text => reply ≠ .error .noData ∧ (reply = .ok () → w.Holds text)
    | none => reply ≠ .ok ()

end Content

/-- Whatever its state, the provider answers with the content, where it does not fail. -/
structure Provider.Presents (p : Provider σ) (config : Config) (x : Content) : Prop where
  item : ∀ index page st, Content.Writes config (x.pages index) (x.item index page)
    (p.item index page (.blank config) st).1 (p.item index page (.blank config) st).2.1
  title : ∀ st, Content.WritesTitle config x.title (p.title (.blank config) st).1
    (p.title (.blank config) st).2.1
  childCount : ∀ path st count, (p.childCount path st).1 = .ok count → count = x.childCount path
  child : ∀ path child page st, Content.Writes config (x.childPages path child)
    (x.child path child page) (p.child path child page (.blank config) st).1
    (p.child path child page (.blank config) st).2.1

/-- The provider that always answers as `p` does in one state. -/
def Provider.fixed (p : Provider σ) (st : σ) : Provider Unit where
  itemCount _ := ((p.itemCount st).1, ())
  item index page f _ := ((p.item index page f st).1, (p.item index page f st).2.1, ())
  title f _ := ((p.title f st).1, (p.title f st).2.1, ())
  childCount path _ := ((p.childCount path st).1, ())
  child path child page f _ :=
    ((p.child path child page f st).1, (p.child path child page f st).2.1, ())
  canInspect path child _ := ((p.canInspect path child st).1, ())

namespace Fixture

def content (y : Fixture) (config : Config) : Content where
  pages index := (y.items[index.toNat]?.map (·.value)).getD 0
  item index page :=
    let w := writePage (itemKey index) index page ((y.items[index.toNat]?.map (·.value)).getD 0)
      (.blank config)
    (w.key.text, w.value.text)
  title := y.title.map fun text =>
    let w := ((Field.blank config).setKey text.1).setValue text.2
    (w.key.text, w.value.text)
  childCount path := ((Tree.find? path y.items).map (·.children.length.toUInt8)).getD 0
  childPages path child := ((Tree.childBelow? path child y.items).map (·.value)).getD 0
  child path child page :=
    let w := writePage (childKey path child) child page
      (((Tree.childBelow? path child y.items).map (·.value)).getD 0) (.blank config)
    (w.key.text, w.value.text)

theorem clean_writePage (config : Config) (key : String) (index page pages : UInt8) :
    (writePage key index page pages (.blank config)).Clean config := by
  unfold writePage
  simp only
  split
  · exact (Field.clean_blank.setKey key).setValue _
  · exact Field.clean_blank.setKey key

theorem clean_setText (config : Config) (text : String × String) :
    (((Field.blank config).setKey text.1).setValue text.2).Clean config :=
  (Field.clean_blank.setKey text.1).setValue text.2

theorem presents (y : Fixture) (config : Config) :
    (provider.fixed y).Presents config (y.content config) where
  item index page _ := by
    simp only [Provider.fixed, provider, content]
    split
    · exact ⟨Field.clean_blank, fun n hn => by cases hn⟩
    · cases hitem : y.items[index.toNat]? with
      | none => exact ⟨Field.clean_blank, fun n hn => by cases hn⟩
      | some item =>
        have hclean := clean_writePage config (itemKey index) index page item.value
        refine ⟨hclean, fun n hn => ?_⟩
        cases hn
        exact ⟨rfl, hclean.holds_text⟩
  title _ := by
    simp only [Provider.fixed, provider, content]
    cases htitle : y.title with
    | none => exact ⟨Field.clean_blank, by simp⟩
    | some text =>
      have hclean := clean_setText config text
      exact ⟨hclean, by simp, fun _ => hclean.holds_text⟩
  childCount path _ count hcount := by
    simp only [Provider.fixed, provider] at hcount
    cases hfind : Tree.find? path y.items with
    | none => simp [hfind] at hcount
    | some item => simpa [hfind, content] using hcount.symm
  child path child page _ := by
    simp only [Provider.fixed, provider, content]
    cases hitem : Tree.childBelow? path child y.items with
    | none => exact ⟨Field.clean_blank, fun n hn => by cases hn⟩
    | some item =>
      have hclean := clean_writePage config (childKey path child) child page item.value
      refine ⟨hclean, fun n hn => ?_⟩
      cases hn
      exact ⟨rfl, hclean.holds_text⟩

end Fixture

def Contract.presented (config : Config) (x : Content) : Contract config where
  field := Field.Clean config
  itemCount _ := True
  item index page := Content.Writes config (x.pages index) (x.item index page)
  title := Content.WritesTitle config x.title
  childCount path r := ∀ count, r = .ok count → count = x.childCount path
  child path child page := Content.Writes config (x.childPages path child) (x.child path child page)
  canInspect _ _ _ := True
  field_clear _ h := h.clear
  field_wipe _ h := h.wipe
  field_setKey _ key h := h.setKey key
  field_setValue _ value h := h.setValue value
  field_labelKey _ page count style h := h.labelKey page count style
  field_setPageLength _ h := h.setPageLength

theorem Provider.Presents.honours {p : Provider σ} {x : Content} (h : p.Presents config x) :
    p.Honours (Contract.presented config x) where
  itemCount _ := trivial
  item index page f st hf := by
    have hwrites := h.item index page st
    rw [← Field.Clean.clear_eq hf] at hwrites
    exact ⟨hwrites, hwrites.1⟩
  title f st hf := by
    have hwrites := h.title st
    rw [← Field.Clean.clear_eq hf] at hwrites
    exact ⟨hwrites, hwrites.1⟩
  childCount path st := h.childCount path st
  child path child page f st hf := by
    have hwrites := h.child path child page st
    rw [← Field.Clean.clear_eq hf] at hwrites
    exact ⟨hwrites, hwrites.1⟩
  canInspect _ _ _ := trivial

theorem Contract.Wrote.holds {x : Content} {text : String × String} {f : Field}
    (h : (Contract.presented config x).Wrote text f)
    (hkey : Text.size text.1.toList ≤ keyCapacity)
    (hvalue : Text.size text.2.toList ≤ valueCapacity) : f.Holds text := by
  obtain ⟨g, hg, rfl⟩ := h
  exact ((Contract.presented config x).field_clear g hg).holds_setText hkey hvalue

end WalletReview
