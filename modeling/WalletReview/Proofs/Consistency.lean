import WalletReview.Fixture
import WalletReview.Proofs.Runs

/-! What the parts of an engine tell of each other in front of any provider, in every state that a
run can come to. -/
namespace WalletReview

variable {σ : Type} {config : Config} {C : Contract config}

namespace Inspection

structure Consistent (root : UInt8) (i : Inspection) : Prop where
  depth_le : i.depth.toNat ≤ maxDepth
  unused : ∀ k (h : k < maxDepth + 1), i.depth.toNat < k → i.path[k] = 0
  root : i.path[0] = root
  item_lt : i.cursor.item < i.cursor.itemCount ∨
    i.layout = .native ∧ i.cursor.item = 0 ∧ i.cursor.itemCount = 0
  page_lt : i.cursor.page < i.cursor.pageCount

theorem Stands.consistent {root : UInt8} {i : Inspection} {f : Field} (h : i.Stands C root f) :
    i.Consistent root where
  depth_le := h.fits.depth
  unused := h.fits.unused
  root := h.fits.root
  page_lt := h.page_lt
  item_lt := by
    obtain ⟨count, -, hcount⟩ := h.counted
    have hwithin := h.within
    have hitemCount := i.recounted_itemCount count
    rw [← hcount] at hitemCount
    unfold Cursor.Within at hwithin
    by_cases hzero : i.cursor.itemCount.toNat = 0
    · right
      refine ⟨?_, UInt8.toNat_inj.1 (by simp only [UInt8.reduceToNat]; omega),
        UInt8.toNat_inj.1 hzero⟩
      cases hlayout : i.layout with
      | native => rfl
      | bracketed =>
        simp only [hlayout, InspectLayout.extra, UInt8.reduceToNat] at hitemCount
        omega
    · left
      rw [UInt8.lt_iff_toNat_lt]
      omega

end Inspection

namespace Session

/-- The cursor of a session is in the list of its screens, on a page that its item has. -/
structure Consistent (s : Session) : Prop where
  itemCount : s.cursor.itemCount.toNat = s.intro.length + s.itemCount.toNat
  item_lt : s.terminal ≠ .dedicated →
    s.cursor.item.toNat < s.cursor.itemCount.toNat + s.terminal.trailing.toNat
  item_le : s.terminal = .dedicated → s.cursor.item ≤ s.cursor.itemCount
  page_lt : s.cursor.page < s.cursor.pageCount

variable {s : Session} {f : Field}

theorem Runs.consistent (hs : s.Runs C) (hshows : s.Shows C f) : s.Consistent where
  itemCount := hs.spans.itemCount
  page_lt := hshows.page_lt
  item_lt hded := by
    rw [TerminalMode.trailing_eq hded]
    exact hs.spans.item_lt
  item_le hded := by
    have hlt := hs.spans.item_lt
    rw [hded] at hlt
    exact UInt8.le_iff_toNat_le.2 (Nat.le_of_lt_succ hlt)

theorem Runs.isTerminal_iff (hs : s.Runs C) (hded : s.terminal = .dedicated) :
    s.isTerminal = true ↔ s.cursor.item = s.cursor.itemCount := by
  have hlt := hs.spans.item_lt
  rw [hded] at hlt
  rw [isTerminal, decide_eq_true_eq, UInt8.le_iff_toNat_le, ← UInt8.toNat_inj]
  simp only [TerminalMode.decisions] at hlt
  omega

theorem AtItem.item_ne {index : UInt8} (h : s.AtItem s.cursor index) (hs : s.Runs C) :
    s.cursor.item ≠ s.cursor.itemCount := by
  have hitem := h.1
  have hindex := h.2
  have hcount := hs.spans.itemCount
  rw [Ne, ← UInt8.toNat_inj]
  omega

end Session

namespace Engine

/-- State, session and cursors agree with each other. -/
structure Consistent (e : Engine) : Prop where
  session : e.session = none ↔ e.state = .idle ∨ e.state = .error
  inspection : (e.session.bind (·.inspection)).isSome = true ↔ e.state = .inspect
  cursor : ∀ s, e.session = some s → s.Consistent
  confirm : ∀ s, e.session = some s →
    (e.state = .confirm ↔ s.terminal = .dedicated ∧ s.cursor.item = s.cursor.itemCount)
  interstitial : e.state = .interstitial →
    ∃ s, e.session = some s ∧ s.skipEligible e.config.skipMinItem = .ok true
  inspect : e.state = .inspect → ∃ s i index, e.session = some s ∧ s.inspection = some i ∧
    s.itemIndex? = some index ∧ i.Consistent index

variable {e : Engine} {s : Session}

theorem consistent_of_session (hs : e.session = some s) (hidle : e.state ≠ .idle)
    (herror : e.state ≠ .error) (hcursor : s.Consistent)
    (hinspection : s.inspection.isSome = true ↔ e.state = .inspect)
    (hconfirm : e.state = .confirm ↔ s.terminal = .dedicated ∧ s.cursor.item = s.cursor.itemCount)
    (hinterstitial : e.state = .interstitial →
      s.skipEligible e.config.skipMinItem = .ok true)
    (hinspect : e.state = .inspect → ∃ i index, s.inspection = some i ∧
      s.itemIndex? = some index ∧ i.Consistent index) : e.Consistent where
  session := by simp [hs, hidle, herror]
  inspection := by rw [hs]; exact hinspection
  cursor s' hs' := by cases hs.symm.trans hs'; exact hcursor
  confirm s' hs' := by cases hs.symm.trans hs'; exact hconfirm
  interstitial hstate := ⟨s, hs, hinterstitial hstate⟩
  inspect hstate := by
    obtain ⟨i, index, hi, hindex, hc⟩ := hinspect hstate
    exact ⟨s, i, index, hs, hi, hindex, hc⟩

theorem Sound.consistent (h : Sound C e) : e.Consistent := by
  cases h.standing with
  | idle hstate hs => constructor <;> simp [hstate, hs]
  | error hstate hs => constructor <;> simp [hstate, hs]
  | review hstate hs hi hopen hruns hshows =>
    refine consistent_of_session hs (by simp [hstate]) (by simp [hstate])
      (hruns.consistent hshows) (by simp [hi, hstate]) ?_ (by simp [hstate]) (by simp [hstate])
    simp only [hstate, reduceCtorEq, false_iff]
    rintro ⟨hded, hitem⟩
    exact hopen ⟨hded, (hruns.isTerminal_iff hded).2 hitem⟩
  | confirm hstate hs hi hded hterminal hruns hshows =>
    refine consistent_of_session hs (by simp [hstate]) (by simp [hstate])
      (hruns.consistent hshows) (by simp [hi, hstate]) ?_ (by simp [hstate]) (by simp [hstate])
    exact iff_of_true hstate ⟨hded, (hruns.isTerminal_iff hded).1 hterminal⟩
  | interstitial hstate hs hi hskip hruns hshows =>
    obtain ⟨index, hoffers⟩ := hruns.offersSkip hshows hskip
    refine consistent_of_session hs (by simp [hstate]) (by simp [hstate])
      (hruns.consistent hshows) (by simp [hi, hstate]) ?_ (fun _ => by rw [h.config]; exact hskip)
      (by simp [hstate])
    simp only [hstate, reduceCtorEq, false_iff]
    exact fun hend => hoffers.atItem.item_ne hruns hend.2
  | @inspect s i root f hi hruns hshows hat hstands =>
    have hstate := hi.state
    refine consistent_of_session hi.session (by simp [hstate]) (by simp [hstate])
      (hruns.consistent hshows) (by simp [hi.inspection, hstate]) ?_ (by simp [hstate])
      (fun _ => ⟨i, root, hi.inspection, hruns.itemIndex?_eq_some_iff.2 hat, hstands.consistent⟩)
    simp only [hstate, reduceCtorEq, false_iff]
    exact fun hend => hat.item_ne hruns hend.2

/-- However the provider answers, every state that a run comes to is consistent. -/
theorem consistent_of_run {p : Provider σ} {steps : List Step} {t : Sitting Engine σ}
    (h : Run p config steps t) : t.machine.Consistent :=
  (h.sound (Contract.honours_any p config) trivial).consistent

theorem consistent_of_run_inspecting : ∃ steps t, Run Fixture.provider .stax steps t ∧
    t.machine.state = .inspect ∧ t.machine.Consistent := by
  have h : ∃ steps t, Run Fixture.provider .stax steps t ∧ t.machine.state = .inspect :=
    ⟨_, _, .act .enterInspect (.act (.begin .transaction false none)
      (.start { items := [Fixture.chain 1] }) rfl) rfl, rfl⟩
  obtain ⟨steps, t, hrun, hstate⟩ := h
  exact ⟨steps, t, hrun, hstate, consistent_of_run hrun⟩

end Engine
end WalletReview
