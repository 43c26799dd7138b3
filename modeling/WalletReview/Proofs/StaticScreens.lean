import WalletReview.Proofs.Places

/-! The screens of a review without a cursor, in front of items that stay the same: the list of its
pairs, cut into pieces. -/
namespace WalletReview

variable {μ σ α β : Type} {config : Config} {pages : List UInt8} {x : Content} {p : Provider σ}

/-- Operations that all succeed, one after the other, where each finds what the one before keeps. -/
theorem Operation.ensures_mapM {f : α → Operation μ σ β} {g : α → β} {inv : Sitting μ σ → Prop}
    {l : List α}
    (h : ∀ a ∈ l, ∀ s, inv s → (f a).Ensures s fun r s' => r = .ok (g a) ∧ inv s')
    {s : Sitting μ σ} (hs : inv s) :
    (l.mapM f).Ensures s fun r s' => r = .ok (l.map g) ∧ inv s' := by
  induction l generalizing s with
  | nil =>
    rw [List.mapM_nil, Operation.ensures_pure]
    exact ⟨rfl, hs⟩
  | cons a l ih =>
    simp only [List.mapM_cons, Operation.ensures_bind]
    refine (h a List.mem_cons_self s hs).mono fun r s₁ hr => ?_
    obtain ⟨rfl, hs₁⟩ := hr
    refine (ih (fun a ha => h a (List.mem_cons_of_mem _ ha)) hs₁).mono fun r s₂ hr => ?_
    obtain ⟨rfl, hs₂⟩ := hr
    simp only [Operation.ensures_pure]
    exact ⟨rfl, hs₂⟩

/-- Piece `n` of a list cut into pieces of length `k`. -/
def piece (k : Nat) (l : List α) (n : Nat) : List α := (l.drop (n * k)).take k

theorem flatten_pieces (k n : Nat) (l : List α) :
    ((List.range n).map (piece k l)).flatten = l.take (n * k) := by
  induction n with
  | zero => simp
  | succ n ih =>
    rw [List.range_succ, List.map_append, List.flatten_append, ih, Nat.succ_mul, List.take_add]
    simp [piece]

theorem length_piece (k : Nat) (l : List α) (n : Nat) :
    (piece k l n).length = min k (l.length - n * k) := by
  rw [piece, List.length_take, List.length_drop]

namespace StaticReview

def perScreen (config : Config) : Nat := min (max config.pairsPerScreen.toNat 1) maxPairs

theorem perScreen_pos (config : Config) : 0 < perScreen config := by
  unfold perScreen maxPairs
  omega

theorem perScreen_le (config : Config) : perScreen config ≤ maxPairs := Nat.min_le_right _ _

/-- The number of screens for a number of pairs, the last screen perhaps not full. -/
def screenCount (config : Config) (total : Nat) : Nat :=
  (total + perScreen config - 1) / perScreen config

theorem lt_screenCount_iff {total n : Nat} :
    n < screenCount config total ↔ n * perScreen config < total := by
  rw [screenCount, Nat.lt_div_iff_mul_lt (perScreen_pos config)]
  have hpos := perScreen_pos config
  omega

def screens (config : Config) (pairs : List Pair) : List (List Pair) :=
  (List.range (screenCount config pairs.length)).map (piece (perScreen config) pairs)

section

variable {pairs : List Pair}

@[simp] theorem length_screens :
    (screens config pairs).length = screenCount config pairs.length := by
  rw [screens, List.length_map, List.length_range]

theorem entry_screens_of_lt {n : Nat} (h : n < screenCount config pairs.length) :
    entry (screens config pairs) n = .ok (piece (perScreen config) pairs n) := by
  rw [entry_of_lt (by rwa [length_screens])]
  simp [screens]

theorem flatten_screens : (screens config pairs).flatten = pairs := by
  rw [screens, flatten_pieces, List.take_of_length_le]
  exact Nat.le_of_not_lt fun h => Nat.lt_irrefl _ (lt_screenCount_iff.2 h)

theorem length_of_mem_screens {screen : List Pair} (h : screen ∈ screens config pairs) :
    0 < screen.length ∧ screen.length ≤ perScreen config := by
  obtain ⟨n, hn, rfl⟩ := List.mem_map.1 h
  have hpos := perScreen_pos config
  rw [List.mem_range, lt_screenCount_iff] at hn
  rw [length_piece]
  omega

end

/-- The review is open, and what it keeps is right. -/
structure Serves (config : Config) (pairs : List Pair) (r : StaticReview) : Prop where
  config_eq : r.config = config
  field : r.field.Clean config
  counted : ∀ n, r.pairCount = some n → n.toNat = pairs.length
  shown : ∀ n screen, r.shown = some (n, screen) →
    entry (screens config pairs) n.toNat = .ok screen
  opened : r.finished = false

variable {t : Sitting StaticReview σ} {pairs : List Pair}

theorem serves_start (config : Config) (pairs : List Pair) :
    Serves config pairs (start config) where
  config_eq := rfl
  field := Field.clean_blank
  counted _ h := by cases h
  shown _ _ h := by cases h
  opened := rfl

theorem Serves.refills {r r' : StaticReview} (h : Serves config pairs r)
    (hr : Refills config r r') : Serves config pairs r' := by
  obtain ⟨w, hw, rfl⟩ := hr
  exact ⟨h.config_eq, hw, h.counted, h.shown, h.opened⟩

theorem pairsPerScreen_toNat (r : StaticReview) :
    r.pairsPerScreen.toNat = perScreen r.config := by
  have hle := perScreen_le r.config
  unfold maxPairs at hle
  unfold pairsPerScreen
  rw [UInt16.toNat_ofNat']
  exact Nat.mod_eq_of_lt (by unfold perScreen at hle; omega)

/-- The number of screens is computed without leaving a word of 16 bits. -/
theorem exists_screenCount (r : StaticReview) {n : UInt16} (hn : n.toNat ≤ 255 * 255) :
    ∃ sum above, Checked.add16 n r.pairsPerScreen = .ok sum ∧ Checked.sub16 sum 1 = .ok above ∧
      (above / r.pairsPerScreen).toNat = screenCount r.config n.toNat := by
  have hper := pairsPerScreen_toNat r
  have hpos := perScreen_pos r.config
  have hle := perScreen_le r.config
  unfold maxPairs at hle
  obtain ⟨sum, hadd, hsum⟩ := Checked.exists_add16 (a := n) (b := r.pairsPerScreen) (by omega)
  obtain ⟨above, hsub, habove⟩ := Checked.exists_sub16 (a := sum) (b := 1) (by
    rw [UInt16.toNat_one]
    omega)
  refine ⟨sum, above, hadd, hsub, ?_⟩
  rw [UInt16.toNat_div, habove, hsum, hper]
  rfl

theorem exists_span (r : StaticReview) {n total : UInt16}
    (hn : n.toNat < screenCount r.config total.toNat) (htotal : total.toNat ≤ 255 * 255) :
    ∃ first past, Checked.mul16 n r.pairsPerScreen = .ok first ∧
      Checked.add16 first r.pairsPerScreen = .ok past ∧
      first.toNat = n.toNat * perScreen r.config ∧
      (min past total).toNat - first.toNat =
        min (perScreen r.config) (total.toNat - first.toNat) := by
  have hper := pairsPerScreen_toNat r
  have hle := perScreen_le r.config
  unfold maxPairs at hle
  rw [lt_screenCount_iff] at hn
  obtain ⟨first, hmul, hfirst⟩ := Checked.exists_mul16 (a := n) (b := r.pairsPerScreen)
    (by rw [hper]; omega)
  rw [hper] at hfirst
  obtain ⟨past, hadd, hpast⟩ := Checked.exists_add16 (a := first) (b := r.pairsPerScreen)
    (by omega)
  rw [hper] at hpast
  refine ⟨first, past, hmul, hadd, hfirst, ?_⟩
  rw [Checked.toNat_min16]
  omega

/-- The answer is screen `n`, if there is one with this number, and the review stays right. -/
def ShowsScreen (config : Config) (pairs : List Pair) (n : UInt16)
    (r : Except Error (List Pair)) (t : Sitting StaticReview σ) : Prop :=
  r = entry (screens config pairs) n.toNat ∧ Serves config pairs t.machine

theorem keep_ensures {op : Operation StaticReview σ (List Pair)} {n : UInt16}
    (h : op.Ensures t (ShowsScreen config pairs n)) :
    (do
      let screen ← op
      Operation.modifyMachine fun r =>
        { r with shown := some (n, screen), reached := some (max (r.reached.getD n) n) }
      return screen).Ensures t (ShowsScreen config pairs n) := by
  simp only [Operation.ensures_bind]
  refine h.mono fun r t' hr => ?_
  obtain ⟨hscreen, ht'⟩ := hr
  cases r with
  | error cause => exact ⟨hscreen, ht'⟩
  | ok screen =>
    simp only [Operation.ensures_modifyMachine, Operation.ensures_pure]
    refine ⟨hscreen, ht'.config_eq, ht'.field, ht'.counted, fun m kept hkept => ?_, ht'.opened⟩
    cases hkept
    exact hscreen.symm

variable (hp : p.Lists config pages x)

include hp

theorem totalPairs_ensures (ht : Serves config (x.pairList config pages) t.machine) :
    (totalPairs p).Ensures t fun r t' =>
      ∃ n : UInt16, r = .ok n ∧ n.toNat = (x.pairList config pages).length ∧
        Serves config (x.pairList config pages) t'.machine := by
  have hlength := hp.length_lt t.content
  have hpairs := congrArg List.length (hp.pairList_eq t.content)
  have hbound := hp.pairList_length_le t.content
  rw [List.length_map] at hpairs
  simp only [totalPairs, Operation.ensures_bind, Operation.ensures_machine]
  cases hcount : t.machine.pairCount with
  | some count =>
    simp only [Operation.ensures_pure]
    exact ⟨count, rfl, ht.counted count hcount, ht⟩
  | none =>
    simp only [Operation.ensures_bind]
    refine (askItems_ensures hp).mono fun r t₁ hr => ?_
    obtain ⟨rfl, ht₁⟩ := hr
    rw [← ht₁] at ht
    refine (sumPages_ensures hp (fun item => lt_of_mem_itemIndices hlength)
      (by rw [UInt16.toNat_zero]; omega) ht.field).mono fun r t₂ hr => ?_
    obtain ⟨n, rfl, hn, ht₂⟩ := hr
    rw [UInt16.toNat_zero, Nat.zero_add, ← hpairs] at hn
    have hserves := ht.refills ht₂.clear
    simp only [ensures_modifyField, Operation.ensures_modifyMachine, Operation.ensures_pure]
    refine ⟨n, rfl, hn, hserves.config_eq, hserves.field, fun m hm => ?_, hserves.shown,
      hserves.opened⟩
    cases hm
    exact hn

theorem totalScreens_ensures (ht : Serves config (x.pairList config pages) t.machine) :
    (totalScreens p).Ensures t fun r t' => ∃ n : UInt16, r = .ok n ∧
      n.toNat = screenCount config (x.pairList config pages).length ∧
      Serves config (x.pairList config pages) t'.machine := by
  simp only [totalScreens, Operation.ensures_bind]
  refine (totalPairs_ensures hp ht).mono fun r t₁ hr => ?_
  obtain ⟨n, rfl, hn, ht₁⟩ := hr
  obtain ⟨sum, above, hadd, hsub, hcount⟩ := exists_screenCount t₁.machine (n := n)
    (hn ▸ hp.pairList_length_le t.content)
  rw [ht₁.config_eq, hn] at hcount
  simp only [Operation.ensures_machine, Operation.ensures_liftM, Operation.ensures_pure]
  exact ⟨sum, hadd, above, hsub, _, rfl, hcount, ht₁⟩

theorem collectPairs_ensures (before : List Pair) {count : Nat} {index : UInt16}
    (hfits : index.toNat + count ≤ (x.pairList config pages).length)
    (hroom : before.length + count ≤ maxPairs) (hconfig : t.machine.config = config)
    (ht : t.machine.field.Clean config) :
    (collectPairs p count index before).Ensures t fun r t' =>
      r = .ok (before ++ ((x.pairList config pages).drop index.toNat).take count) ∧
        Refills config t.machine t'.machine := by
  -- `before` has one more pair, and `index` is the next one, for what is left to collect.
  induction count generalizing index before t with
  | zero =>
    rw [collectPairs, Operation.ensures_pure, List.take_zero, List.append_nil]
    exact ⟨rfl, .refl ht⟩
  | succ count ih =>
    have hlt : index.toNat < (x.pairList config pages).length := by omega
    have hbound := hp.pairList_length_le t.content
    simp only [collectPairs, Operation.ensures_bind]
    refine (pairAt_ensures hp hconfig ht).mono fun r t₁ hr => ?_
    obtain ⟨hr, ht₁⟩ := hr
    cases hr Pair.clean_empty
    have hnext : (index + 1).toNat = index.toNat + 1 := by
      rw [UInt16.toNat_add, UInt16.toNat_one, Nat.mod_eq_of_lt (by omega)]
    rw [entry_of_lt hlt]
    simp only [if_pos (show before.length < maxPairs by omega)]
    refine (ih _ (by omega) (by rw [List.length_append, List.length_singleton]; omega)
      (ht₁.config_eq.trans hconfig) ht₁.clean).mono fun r t₂ hr => ?_
    obtain ⟨rfl, ht₂⟩ := hr
    refine ⟨?_, ht₁.trans ht₂⟩
    rw [hnext, List.append_assoc, List.drop_eq_getElem_cons hlt, List.take_succ_cons]
    rfl

theorem renderScreen_ensures {n : UInt16} (ht : Serves config (x.pairList config pages) t.machine) :
    (renderScreen p n).Ensures t (ShowsScreen config (x.pairList config pages) n) := by
  have hle := perScreen_le config
  simp only [renderScreen, Operation.ensures_bind]
  refine (totalScreens_ensures hp ht).mono fun r t₁ hr => ?_
  obtain ⟨count, rfl, hcount, ht₁⟩ := hr
  by_cases hbeyond : count ≤ n
  · simp only [if_pos hbeyond, Operation.ensures_bind, Operation.ensures_throw]
    rw [UInt16.le_iff_toNat_le, hcount, ← length_screens] at hbeyond
    exact ⟨(entry_of_le hbeyond).symm, ht₁⟩
  have hwithin : n.toNat < screenCount config (x.pairList config pages).length := by
    rwa [UInt16.le_iff_toNat_le, hcount, Nat.not_le] at hbeyond
  -- The pairs are counted by now, so that their number can be had from the answer or beforehand.
  have htotal : (UInt16.ofNat (x.pairList config pages).length).toNat =
      (x.pairList config pages).length := by
    have hbound := hp.pairList_length_le t.content
    rw [UInt16.toNat_ofNat', Nat.mod_eq_of_lt (by omega)]
  have hlt : n.toNat < screenCount t₁.machine.config
      (UInt16.ofNat (x.pairList config pages).length).toNat := by
    rw [ht₁.config_eq, htotal]
    exact hwithin
  obtain ⟨first, past, hmul, hadd, hfirst, hsize⟩ :=
    exists_span t₁.machine hlt (by rw [htotal]; exact hp.pairList_length_le t.content)
  rw [ht₁.config_eq] at hfirst hsize
  simp only [if_neg hbeyond, Operation.ensures_pure, Operation.ensures_bind,
    Operation.ensures_machine, Operation.ensures_liftM]
  refine ⟨first, hmul, past, hadd, ?_⟩
  refine (totalPairs_ensures hp ht₁).mono fun r t₂ hr => ?_
  obtain ⟨total, rfl, hn, ht₂⟩ := hr
  cases UInt16.toNat_inj.1 (hn.trans htotal.symm)
  rw [htotal] at hsize
  simp only
  have hspan := lt_screenCount_iff.1 hwithin
  refine (collectPairs_ensures hp [] (by omega)
    (by rw [List.length_nil]; omega) ht₂.config_eq ht₂.field).mono fun r t₃ hr => ?_
  obtain ⟨rfl, ht₃⟩ := hr
  simp only [Operation.ensures_note]
  refine ⟨?_, ht₂.refills ht₃⟩
  rw [entry_screens_of_lt hwithin, hsize, hfirst, List.nil_append, piece, ← List.length_drop,
    ← List.take_eq_take_min]

/-- Every screen that there is shows its piece of the pairs, whichever screens were shown before. -/
theorem screenAt_ensures {n : UInt16} (ht : Serves config (x.pairList config pages) t.machine) :
    (screenAt p n).Ensures t (ShowsScreen config (x.pairList config pages) n) := by
  have hrender := keep_ensures (renderScreen_ensures hp (n := n) ht)
  simp only [screenAt, Operation.ensures_bind, Operation.ensures_machine, ht.opened,
    Bool.false_eq_true, if_false]
  cases hshown : t.machine.shown with
  | none => exact hrender
  | some last =>
    obtain ⟨m, screen⟩ := last
    by_cases hm : m = n
    · simp only [if_pos hm]
      exact keep_ensures (Operation.ensures_pure.2
        ⟨by rw [← hm]; exact (ht.shown m screen hshown).symm, ht⟩)
    · simp only [if_neg hm]
      exact hrender

end StaticReview

def StaticReview.allPairs (p : Provider σ) : Operation StaticReview σ (List Pair) := do
  let count ← totalScreens p
  let screens ← (List.range count.toNat).mapM fun n => screenAt p (.ofNat n)
  return screens.flatten

/-- A review that shows all of its screens shows every page of every item once, in order. -/
theorem StaticReview.allPairs_ensures (hp : p.Constant config pages x)
    {t : Sitting StaticReview σ} (ht : Serves config (x.pairList config pages) t.machine) :
    (allPairs p).Ensures t fun r _ => ∃ pairs, r = .ok pairs ∧
      pairs.map Pair.text = x.pairs config pages := by
  have hlists := hp.lists t.content
  simp only [allPairs, Operation.ensures_bind]
  refine (totalScreens_ensures hlists ht).mono fun r t₁ hr => ?_
  obtain ⟨count, rfl, hcount, ht₁⟩ := hr
  have hshown : ∀ n ∈ List.range count.toNat, ∀ s : Sitting StaticReview σ,
      Serves config (x.pairList config pages) s.machine →
      (screenAt p (.ofNat n)).Ensures s fun r s' =>
        r = .ok (piece (perScreen config) (x.pairList config pages) n) ∧
          Serves config (x.pairList config pages) s'.machine := by
    intro n hn s hs
    have hlt := List.mem_range.1 hn
    have hbyte := count.toNat_lt
    have htoNat : (UInt16.ofNat n).toNat = n := by
      rw [UInt16.toNat_ofNat', Nat.mod_eq_of_lt (by omega)]
    refine (screenAt_ensures hlists hs).mono fun r s' hr => ?_
    rwa [ShowsScreen, htoNat, entry_screens_of_lt (hcount ▸ hlt)] at hr
  refine (Operation.ensures_mapM hshown ht₁).mono fun r t₂ hr => ?_
  obtain ⟨rfl, -⟩ := hr
  simp only [Operation.ensures_pure]
  refine ⟨_, rfl, ?_⟩
  rw [hcount, ← screens, flatten_screens, hlists.pairList_text t.content]

end WalletReview
