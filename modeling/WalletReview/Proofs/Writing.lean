import WalletReview.Proofs.Content

/-! Writing by methods. A provider that writes on its field by the methods of the two texts only
cannot leave anything there but a text with zeros behind it, whatever it writes and in which order.
-/
namespace WalletReview

variable {σ : Type} {config : Config}

namespace BoundedText

variable {n : Nat} {t u : BoundedText n} {cs : List Char}

inductive Written (t : BoundedText n) : BoundedText n → Prop
  | refl : Written t t
  | clear {u : BoundedText n} : Written t u → Written t u.clear
  | wipe {u : BoundedText n} : Written t u → Written t u.wipe
  | append {u : BoundedText n} (s : String) : Written t u → Written t (u.append s).1
  | push {u : BoundedText n} (c : Char) : Written t u → Written t (u.push c).1
  | truncate {u : BoundedText n} (k : Nat) : Written t u → Written t (u.truncate k)

theorem Written.set (h : t.Written u) (s : String) : t.Written (u.set s).1 := h.clear.append s

theorem Written.setPage (h : t.Written u) (s : String) (width : Nat) (page : UInt8) :
    t.Written (u.setPage s width page).1 := by
  have happend := h.clear.append (.ofList ((Text.pages n width s)[page.toNat]?.getD []))
  rwa [BoundedText.append, String.toList_ofList] at happend

/-- Whatever is done by methods, there is a text afterwards, and nothing behind it. -/
theorem Written.holds (h : t.Written u) (ht : t.Holds cs) : ∃ ds, u.Holds ds := by
  induction h with
  | refl => exact ⟨cs, ht⟩
  | clear _ ih =>
    obtain ⟨ds, hds⟩ := ih
    exact ⟨_, hds.clear⟩
  | wipe => exact ⟨_, holds_wipe _⟩
  | append s _ ih =>
    obtain ⟨ds, hds⟩ := ih
    exact ⟨_, hds.append s⟩
  | push c _ ih =>
    obtain ⟨ds, hds⟩ := ih
    exact ⟨_, hds.appendChars [c]⟩
  | truncate k _ ih =>
    obtain ⟨ds, hds⟩ := ih
    exact ⟨_, hds.truncate k⟩

end BoundedText

namespace Field

variable {f g : Field}

structure Written (f g : Field) : Prop where
  key : f.key.Written g.key
  value : f.value.Written g.value
  pageLength : g.pageLength = f.pageLength

namespace Written

theorem refl (f : Field) : f.Written f := ⟨.refl, .refl, rfl⟩

theorem setKey (h : f.Written g) (key : String) : f.Written (g.setKey key) :=
  ⟨h.key.set key, h.value, h.pageLength⟩

theorem setValue (h : f.Written g) (value : String) : f.Written (g.setValue value) :=
  ⟨h.key, h.value.set value, h.pageLength⟩

theorem setPage (h : f.Written g) (key value : String) (page : UInt8) :
    f.Written (g.setPage key value page).1 :=
  ⟨h.key.set key, h.value.setPage value g.pageLength page, h.pageLength⟩

theorem clean (h : f.Written g) (hf : f.Clean config) : g.Clean config := by
  obtain ⟨key, hkey⟩ := hf.key
  obtain ⟨value, hvalue⟩ := hf.value
  exact ⟨h.key.holds hkey, h.value.holds hvalue, h.pageLength.trans hf.pageLength⟩

end Written
end Field

structure Provider.Writes (p : Provider σ) : Prop where
  item : ∀ index page (f : Field) st, f.Written (p.item index page f st).2.1
  title : ∀ (f : Field) st, f.Written (p.title f st).2.1
  child : ∀ path child page (f : Field) st, f.Written (p.child path child page f st).2.1

theorem Provider.Writes.recorded {p : Provider σ} (h : p.Writes) : p.recorded.Writes where
  item index page f r := h.item index page f r.content
  title f r := h.title f r.content
  child path child page f r := h.child path child page f r.content

theorem Fixture.written_writePage {f : Field} (key : String) (index page pages : UInt8) :
    f.Written (writePage key index page pages f) := by
  unfold writePage
  simp only
  split
  · exact ((Field.Written.refl f).setKey key).setValue _
  · exact (Field.Written.refl f).setKey key

theorem Fixture.writes : provider.Writes where
  item index page f y := by
    simp only [provider]
    split
    · exact .refl f
    · split
      · apply written_writePage
      · exact .refl f
  title f y := by
    simp only [provider]
    split
    · exact ((Field.Written.refl f).setKey _).setValue _
    · exact .refl f
  child path child page f y := by
    simp only [provider]
    split
    · apply written_writePage
    · exact .refl f

def Contract.written (config : Config) : Contract config :=
  { Contract.any config with
    field := Field.Clean config
    field_clear := fun _ h => h.clear
    field_wipe := fun _ h => h.wipe
    field_setKey := fun _ key h => h.setKey key
    field_setValue := fun _ value h => h.setValue value
    field_labelKey := fun _ page count style h => h.labelKey page count style
    field_setPageLength := fun _ h => h.setPageLength }

theorem Provider.Writes.honours {p : Provider σ} (h : p.Writes) (config : Config) :
    p.Honours (Contract.written config) where
  itemCount _ := trivial
  item index page f st hf := ⟨trivial, (h.item index page f.clear st).clean hf.clear⟩
  title f st hf := ⟨trivial, (h.title f.clear st).clean hf.clear⟩
  childCount _ _ := trivial
  child path child page f st hf :=
    ⟨trivial, (h.child path child page f.clear st).clean hf.clear⟩
  canInspect _ _ _ := trivial

end WalletReview
