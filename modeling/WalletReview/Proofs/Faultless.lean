import WalletReview.Fixture
import WalletReview.Proofs.Consistency

/-! Nothing goes out of range. However a provider answers, every action has a result, and in every
state the sums, differences and indices that an action can come to need stay within their words and
arrays. -/
namespace WalletReview

open Engine (Direction)

variable {σ : Type} {config : Config} {C : Contract config}

/-- A text has the storage that its capacity asks for, and does not use more. -/
structure BoundedText.InRange {n : Nat} (t : BoundedText n) : Prop where
  used_le : t.used ≤ n
  length_eq : t.buffer.length = n

theorem BoundedText.Holds.inRange {n : Nat} {t : BoundedText n} {cs : List Char}
    (h : t.Holds cs) : t.InRange where
  used_le := by
    rw [h.used]
    exact h.fits
  length_eq := by
    have hfits := h.fits
    rw [h.buffer, List.length_append, encode_length, List.length_replicate]
    omega

namespace Session

variable {s : Session} {f : Field}

structure InRange (s : Session) : Prop where
  room : s.intro.length + s.itemCount.toNat + s.terminal.trailing.toNat ≤ 255
  itemCount : s.cursor.itemCount.toNat = s.intro.length + s.itemCount.toNat
  /-- Off the intro screens, what is left of the cursor counts items. -/
  index : s.introScreen? = none → ∃ index, Checked.sub8 s.cursor.item s.leading = .ok index
  /-- Before the decision screens, there is a place after the one under the cursor. -/
  next : s.isTerminal = false → ∃ item, Checked.add8 s.cursor.item 1 = .ok item
  isLastPage : ∃ last, s.cursor.isLastPage = .ok last
  skipEligible (skipMin : UInt8) : ∃ offers, s.skipEligible skipMin = .ok offers
  stepped (dir : Direction) : ∃ c, Engine.stepped s.cursor s.terminal.trailing dir = .ok c
  intent : s.intent.InRange

theorem Runs.inRange (hs : s.Runs C) (hshows : s.Shows C f) : s.InRange where
  room := hs.fits.room
  itemCount := hs.spans.itemCount
  index hintro := by
    have hle : s.intro.length ≤ s.cursor.item.toNat := List.getElem?_eq_none_iff.1 hintro
    have hleading := hs.fits.leading
    have hcursor := s.cursor.item.toNat_lt
    refine ⟨.ofNat (s.cursor.item.toNat - s.intro.length), Checked.sub8_eq_ok_iff.2 ?_⟩
    rw [UInt8.toNat_ofNat', Nat.mod_eq_of_lt (by omega)]
    omega
  next hterminal := by
    have hlt : ¬s.intro.length + s.itemCount.toNat ≤ s.cursor.item.toNat := by
      intro hle
      have ht : s.isTerminal = true := hs.spans.isTerminal_iff.2 hle
      rw [hterminal] at ht
      cases ht
    have hroom := hs.fits.room
    obtain ⟨item, hadd, -⟩ := Checked.add8_one (a := s.cursor.item) (by omega)
    exact ⟨item, hadd⟩
  isLastPage := ⟨_, Cursor.isLastPage_eq hshows.page_lt⟩
  skipEligible skipMin := by
    rcases skipEligible_eq hs hshows.page_lt skipMin with ⟨h, -⟩ | ⟨h, -⟩
    · exact ⟨_, h⟩
    · exact ⟨_, h⟩
  stepped dir := by
    have hroom : s.cursor.itemCount.toNat + s.terminal.trailing.toNat ≤ 255 := by
      rw [hs.spans.itemCount]
      exact hs.fits.room
    rcases Cursor.stepped_cases hroom dir with ⟨h, -⟩ | ⟨c, h, -⟩
    · exact ⟨_, h⟩
    · exact ⟨_, h⟩
  intent := by
    obtain ⟨cs, hcs⟩ := hs.fits.intent
    exact hcs.inRange

end Session

namespace Inspection

variable {s : Session} {i : Inspection} {root : UInt8} {f : Field}

structure InRange (s : Session) (i : Inspection) : Prop where
  /-- The way back leads to a place of the list. -/
  root : ∃ item, Checked.add8 s.leading i.root = .ok item
  trace : ∃ path, i.trace = .ok path
  ascend : ∃ above, i.ascend = .ok above
  enter (child : UInt8) : i.childIndex = some child → i.depth.toNat < maxDepth →
    ∃ below, i.enter child = .ok below
  stepped (dir : Direction) : ∃ c, Engine.stepped i.cursor 0 dir = .ok c
  /-- Among children between brackets, the last place and the one before the cursor can be named. -/
  bracketed : i.layout = .bracketed → ∃ last, Checked.sub8 i.cursor.itemCount 1 = .ok last
  child : i.layout = .bracketed → i.isGoToRoot = false →
    ∃ child, Checked.sub8 i.cursor.item 1 = .ok child

theorem sub8_one {a : UInt8} (h : 1 ≤ a.toNat) : ∃ b, Checked.sub8 a 1 = .ok b := by
  have ha := a.toNat_lt
  refine ⟨.ofNat (a.toNat - 1), Checked.sub8_eq_ok_iff.2 ?_⟩
  rw [UInt8.toNat_ofNat', Nat.mod_eq_of_lt (by omega)]
  exact (Nat.sub_add_cancel h).symm

theorem Stands.inRange (h : i.Stands C root f) (hs : s.Runs C) (hat : s.AtItem s.cursor root) :
    i.InRange s where
  root := by
    have hadd : Checked.add8 s.leading i.root = .ok s.cursor.item := by
      rw [Checked.add8_eq_ok_iff, hs.fits.leading, h.fits.root, hat.1]
    exact ⟨_, hadd⟩
  trace := ⟨_, h.fits.trace⟩
  ascend := by
    rcases h.fits.ascend with ⟨hnone, -⟩ | ⟨above, hsome, -⟩
    · exact ⟨_, hnone⟩
    · exact ⟨_, hsome⟩
  enter child hchild hdepth := by
    obtain ⟨below, henter, -⟩ := h.fits.enter hchild hdepth
    exact ⟨below, henter⟩
  stepped dir := by
    have hcount := i.cursor.itemCount.toNat_lt
    have hroom : i.cursor.itemCount.toNat + (0 : UInt8).toNat ≤ 255 := Nat.lt_succ_iff.1 hcount
    rcases Cursor.stepped_cases hroom dir with ⟨hnone, -⟩ | ⟨c, hsome, -⟩
    · exact ⟨_, hnone⟩
    · exact ⟨_, hsome⟩
  bracketed hlayout := by
    obtain ⟨count, -, hitemCount⟩ := h.counted
    have hcounted := i.recounted_itemCount count
    rw [← hitemCount, hlayout] at hcounted
    simp only [InspectLayout.extra, UInt8.reduceToNat] at hcounted
    exact sub8_one (by omega)
  child hlayout hroot := by
    refine sub8_one (Nat.one_le_iff_ne_zero.2 fun hzero => ?_)
    have hitem : i.cursor.item = 0 := UInt8.toNat_inj.1 hzero
    simp [isGoToRoot, hlayout, hitem] at hroot

end Inspection

structure Field.Stored (f : Field) : Prop where
  key : ∃ cs, f.key.Holds cs
  value : ∃ cs, f.value.Holds cs

structure Provider.Stores (p : Provider σ) : Prop where
  item : ∀ index page f st, f.Stored → (p.item index page f st).2.1.Stored
  title : ∀ f st, f.Stored → (p.title f st).2.1.Stored
  child : ∀ path child page f st, f.Stored → (p.child path child page f st).2.1.Stored

theorem Field.Stored.setKey {f : Field} (h : f.Stored) (key : String) : (f.setKey key).Stored := by
  obtain ⟨cs, hcs⟩ := h.key
  exact ⟨⟨_, hcs.set key⟩, h.value⟩

theorem Field.Stored.setValue {f : Field} (h : f.Stored) (value : String) :
    (f.setValue value).Stored := by
  obtain ⟨cs, hcs⟩ := h.value
  exact ⟨h.key, ⟨_, hcs.set value⟩⟩

theorem Field.Stored.clear {f : Field} (h : f.Stored) : f.clear.Stored := by
  obtain ⟨key, hkey⟩ := h.key
  obtain ⟨value, hvalue⟩ := h.value
  exact ⟨⟨_, hkey.clear⟩, ⟨_, hvalue.clear⟩⟩

def Contract.stored (config : Config) : Contract config :=
  { Contract.any config with
    field := Field.Stored
    field_clear := fun _ h => h.clear
    field_wipe := fun f _ =>
      ⟨⟨[], BoundedText.holds_wipe f.key⟩, ⟨[], BoundedText.holds_wipe f.value⟩⟩
    field_setKey := fun _ key h => h.setKey key
    field_setValue := fun _ value h => h.setValue value
    field_labelKey := fun f page count style h => by
      obtain ⟨cs, hcs⟩ := h.key
      exact ⟨⟨_, hcs.appendLabel page count style⟩, h.value⟩
    field_setPageLength := fun _ h => ⟨h.key, h.value⟩ }

theorem Provider.Stores.honours {p : Provider σ} (h : p.Stores) (config : Config) :
    p.Honours (Contract.stored config) where
  itemCount _ := trivial
  item index page f st hf := ⟨trivial, h.item index page f.clear st (Field.Stored.clear hf)⟩
  title f st hf := ⟨trivial, h.title f.clear st (Field.Stored.clear hf)⟩
  childCount _ _ := trivial
  child path child page f st hf :=
    ⟨trivial, h.child path child page f.clear st (Field.Stored.clear hf)⟩
  canInspect _ _ _ := trivial

theorem Fixture.stored_writePage {f : Field} (h : f.Stored) (key : String)
    (index page pages : UInt8) : (writePage key index page pages f).Stored := by
  unfold writePage
  simp only
  split
  · exact (h.setKey key).setValue _
  · exact h.setKey key

theorem Fixture.stores : provider.Stores where
  item index page f y h := by
    simp only [provider]
    split
    · exact h
    · split
      · exact stored_writePage h _ _ _ _
      · exact h
  title f y h := by
    simp only [provider]
    split
    · exact (h.setKey _).setValue _
    · exact h
  child path child page f y h := by
    simp only [provider]
    split
    · exact stored_writePage h _ _ _ _
    · exact h

namespace Engine

/-- Every action has a result, and what it computes with is in range. -/
structure Faultless (p : Provider σ) (t : Sitting Engine σ) : Prop where
  answers (action : Action) : ∃ reply t', action.perform p t = .ok (reply, t')
  session (s : Session) : t.machine.session = some s → s.InRange
  inspection (s : Session) (i : Inspection) : t.machine.session = some s →
    s.inspection = some i → i.InRange s
  field : p.Stores → t.machine.field.key.InRange ∧ t.machine.field.value.InRange

/-- However the provider answers, no action of a run comes to a fault. -/
theorem faultless_of_run {p : Provider σ} {steps : List Step} {t : Sitting Engine σ}
    (h : Run p config steps t) : Faultless p t := by
  have hp := Contract.honours_any p config
  have he := h.sound hp trivial
  refine ⟨fun action => ?_, fun s hs => ?_, fun s i hs hi => ?_, fun hstores => ?_⟩
  · obtain ⟨reply, t', hact, -⟩ := perform_ensures hp he action
    exact ⟨reply, t', hact⟩
  · obtain ⟨hruns, f, hshows⟩ := he.runs hs
    exact hruns.inRange hshows
  · obtain ⟨hruns, -⟩ := he.runs hs
    obtain ⟨root, hat, hstands⟩ := he.of_inspects (he.inspects hs hi)
    exact hstands.inRange hruns hat
  · have hblank : (Contract.stored config).field (Engine.start config).field :=
      ⟨⟨[], BoundedText.holds_empty⟩, ⟨[], BoundedText.holds_empty⟩⟩
    obtain ⟨⟨key, hkey⟩, ⟨value, hvalue⟩⟩ := (h.sound (hstores.honours config) hblank).field
    exact ⟨hkey.inRange, hvalue.inRange⟩

theorem faultless_of_run_bracketed : ∃ steps t,
    Run Fixture.provider { Config.stax with inspectLayout := .bracketed } steps t ∧
      t.machine.position = .goToRoot ∧ Faultless Fixture.provider t ∧
      t.machine.field.key.InRange ∧ t.machine.field.value.InRange := by
  have h : ∃ steps t,
      Run Fixture.provider { Config.stax with inspectLayout := .bracketed } steps t ∧
        t.machine.position = .goToRoot :=
    ⟨_, _, .act .enterInspect (.act (.begin .transaction false none)
      (.start { items := [Fixture.chain 1] }) rfl) rfl, rfl⟩
  obtain ⟨steps, t, hrun, hposition⟩ := h
  have hfaultless := faultless_of_run hrun
  exact ⟨steps, t, hrun, hposition, hfaultless, hfaultless.field Fixture.stores⟩

end Engine
end WalletReview
