import WalletReview.Proofs.StaticRuns
import WalletReview.Proofs.Upholds

/-! What a review without a cursor shows of items that stay the same. It keeps the number of pairs
and the screen shown last, and uses one field for every question; none of this can be told from its
answers. -/
namespace WalletReview.StaticReview

variable {σ : Type} {config : Config} {pages : List UInt8} {x : Content} {p : Provider σ}
  {pairs : List Pair}

section

variable {t : Sitting StaticReview σ}

/-- The review stays right as long as it is open. -/
def Serving (config : Config) (pairs : List Pair) (t : Sitting StaticReview σ) : Prop :=
  t.machine.finished = false → Serves config pairs t.machine

theorem overwritePair_serves (hp : p.Lists config pages x)
    (ht : Serves config (x.pairList config pages) t.machine) (index : UInt16) (out : Pair) :
    (overwritePair p index out).Ensures t fun r t' =>
      (out.Clean → r = .ok (match (x.pairList config pages)[index.toNat]? with
        | some pair => (.ok (), pair)
        | none => (.error .outOfBounds, out))) ∧
      Serves config (x.pairList config pages) t'.machine := by
  simp only [overwritePair, Operation.ensures_bind, Operation.ensures_attempt]
  refine (pairAt_ensures hp ht.config_eq ht.field).mono fun r t' hr => ?_
  obtain ⟨hpair, hrefills⟩ := hr
  cases r with
  | error cause =>
    refine Operation.ensures_pure.2 ⟨fun hout => ?_, ht.refills hrefills⟩
    have hentry := hpair hout
    unfold entry at hentry
    cases hindex : (x.pairList config pages)[index.toNat]? with
    | none => simpa [hindex] using hentry
    | some pair => simp [hindex] at hentry
  | ok pair =>
    refine Operation.ensures_pure.2 ⟨fun hout => ?_, ht.refills hrefills⟩
    rw [entry_eq_ok_iff.1 (hpair hout).symm]

theorem isComplete_serves (hp : p.Lists config pages x)
    (ht : Serves config (x.pairList config pages) t.machine) :
    (isComplete p).Upholds t fun _ t' => Serves config (x.pairList config pages) t'.machine := by
  simp only [isComplete, Operation.upholds_bind, Operation.upholds_attempt]
  refine (totalScreens_ensures hp ht).upholds.mono fun r t' hr => ?_
  obtain ⟨screens, rfl, -, ht'⟩ := hr
  by_cases hzero : screens = 0
  · simp only [if_pos hzero, Operation.upholds_pure]
    exact ht'
  · simp only [if_neg hzero, Operation.upholds_bind, Operation.upholds_machine]
    cases t'.machine.reached with
    | none => exact Operation.upholds_pure.2 ht'
    | some n =>
      simp only [Operation.upholds_bind, Operation.upholds_liftM, Operation.upholds_pure]
      exact fun _ _ => ht'

theorem finish_serves (hp : p.Lists config pages x)
    (ht : Serves config (x.pairList config pages) t.machine) (approved : Bool) :
    (finish p approved).Upholds t fun _ t' => Serving config (x.pairList config pages) t' := by
  have hclose {t' : Sitting StaticReview σ} {outcome : Outcome} : (do
      Operation.modifyMachine fun r =>
        { r with finished := true, shown := none, field := r.field.wipe }
      Operation.conclude p outcome
      return true : Operation StaticReview σ Bool).Upholds t' fun _ t' =>
        Serving config (x.pairList config pages) t' := by
    simp only [Operation.upholds_bind, Operation.upholds_modifyMachine, Operation.upholds_conclude,
      Operation.upholds_pure]
    intro hopen
    cases hopen
  simp only [finish, Operation.upholds_bind, Operation.upholds_machine, ht.opened,
    Bool.false_eq_true, if_false]
  cases approved with
  | false => exact hclose
  | true =>
    simp only [if_true, Operation.upholds_bind]
    refine (isComplete_serves hp ht).mono fun r t' ht' => ?_
    cases r with
    | error cause => exact fun _ => ht'
    | ok complete =>
      cases complete with
      | false => exact Operation.upholds_pure.2 fun _ => ht'
      | true => exact hclose

/-- No call makes anything wrong of what the review keeps. -/
theorem perform_serves (hp : p.Lists config pages x)
    (ht : Serves config (x.pairList config pages) t.machine) (call : Call) :
    (call.perform p).Upholds t fun _ t' => Serving config (x.pairList config pages) t' := by
  cases call with
  | totalPairs =>
    simp only [Call.perform, Operation.upholds_map]
    refine (totalPairs_ensures hp ht).upholds.mono fun r t' hr _ => ?_
    obtain ⟨-, -, -, ht'⟩ := hr
    exact ht'
  | totalScreens =>
    simp only [Call.perform, Operation.upholds_map]
    refine (totalScreens_ensures hp ht).upholds.mono fun r t' hr _ => ?_
    obtain ⟨-, -, -, ht'⟩ := hr
    exact ht'
  | pairAt index out =>
    simp only [Call.perform, Operation.upholds_map]
    exact (overwritePair_serves hp ht index out).upholds.mono fun r t' hr _ => hr.2
  | screenAt n =>
    simp only [Call.perform, Operation.upholds_map]
    exact (screenAt_ensures hp ht).upholds.mono fun r t' hr _ => hr.2
  | isComplete =>
    simp only [Call.perform, Operation.upholds_map]
    exact (isComplete_serves hp ht).mono fun r t' ht' _ => ht'
  | finish approved =>
    simp only [Call.perform, Operation.upholds_map]
    exact finish_serves hp ht approved

end

variable {t : Sitting StaticReview (Recorded σ)} {steps : List Step}

theorem Run.serves (hp : p.Lists config pages x) (h : Run p config steps t) :
    Serving config (x.pairList config pages) t := by
  induction h with
  | start content => exact fun _ => serves_start config _
  | meddle content _ ih => exact ih
  | @call steps t t' reply call hrun hact ih =>
    intro hopen
    have hdoes := (perform_does hrun.tracks.orderly call).of_eq hact
    have hbefore : t.machine.finished = false :=
      Bool.eq_false_iff.2 fun hover => by simp [hdoes.finished.2 (Or.inl hover)] at hopen
    exact perform_serves hp.recorded (ih hbefore) call _ _ hact hopen

structure Partitions (p : Provider σ) (config : Config) (pages : List UInt8) (pairs : List Pair)
    (t : Sitting StaticReview (Recorded σ)) : Prop where
  length : pairs.length = (pages.map UInt8.toNat).sum
  total : (totalPairs p.recorded).Ensures t fun r _ =>
    ∃ n, r = .ok n ∧ n.toNat = pairs.length
  /-- Whatever it is written over, a pair is the one with this number. -/
  pair (index : UInt16) (out : Pair) : out.Clean →
    (overwritePair p.recorded index out).Ensures t fun r _ =>
      r = .ok (match pairs[index.toNat]? with
        | some pair => (.ok (), pair)
        | none => (.error .outOfBounds, out))
  screen (n : UInt16) : (screenAt p.recorded n).Ensures t fun r _ =>
    r = if n.toNat < screenCount config pairs.length then
      .ok ((pairs.drop (n.toNat * perScreen config)).take (perScreen config))
    else .error .outOfBounds
  screens_eq : screens config pairs = (List.range (screenCount config pairs.length)).map
    fun n => (pairs.drop (n * perScreen config)).take (perScreen config)
  whole : (screens config pairs).flatten = pairs
  filled (screen : List Pair) : screen ∈ screens config pairs →
    screen ≠ [] ∧ screen.length ≤ perScreen config

/-- In front of items that stay the same, and whatever was called for before, a review that is still
open deals out all of its pairs in screens. -/
theorem partitions_of_run (hp : p.Lists config pages x) (h : Run p config steps t)
    (hopen : t.machine.finished = false) :
    Partitions p config pages (x.pairList config pages) t := by
  have ht := h.serves hp hopen
  refine ⟨x.length_pairList config pages, ?_, fun index out hout => ?_, fun n => ?_, rfl,
    flatten_screens, fun screen hscreen => ?_⟩
  · refine (totalPairs_ensures hp.recorded ht).mono fun r t' hr => ?_
    obtain ⟨n, hr, hn, -⟩ := hr
    exact ⟨n, hr, hn⟩
  · exact (overwritePair_serves hp.recorded ht index out).mono fun r t' hr => hr.1 hout
  · refine (screenAt_ensures hp.recorded ht).mono fun r t' hr => ?_
    obtain ⟨rfl, -⟩ := hr
    split
    · rename_i hlt
      exact entry_screens_of_lt hlt
    · rename_i hle
      exact entry_of_le (by rw [length_screens]; exact Nat.le_of_not_lt hle)
  · obtain ⟨hpos, hle⟩ := length_of_mem_screens hscreen
    exact ⟨List.length_pos_iff.1 hpos, hle⟩

/-- Two items of a page each on screens of one pair: the last screen, then one that there is not. -/
theorem partitions_of_run_ofPages : ∃ last t,
    Run (Fixture.provider.fixed (.ofPages [1, 1])) .nanoS
      [⟨.screenAt 2, .error .outOfBounds⟩, ⟨.screenAt 1, .ok (.screen last)⟩] t ∧
      Partitions (Fixture.provider.fixed (.ofPages [1, 1])) .nanoS [1, 1]
        (((Fixture.ofPages [1, 1]).content .nanoS).pairList .nanoS [1, 1]) t := by
  have hp : (Fixture.provider.fixed (.ofPages [1, 1])).Lists .nanoS [1, 1]
      ((Fixture.ofPages [1, 1]).content .nanoS) :=
    ((Fixture.ofPages [1, 1]).constant (by decide) rfl .nanoS).lists ()
  have h : ∃ last t, Run (Fixture.provider.fixed (.ofPages [1, 1])) .nanoS
      [⟨.screenAt 2, .error .outOfBounds⟩, ⟨.screenAt 1, .ok (.screen last)⟩] t ∧
      t.machine.finished = false :=
    ⟨_, _, .call (.screenAt 2) (.call (.screenAt 1) (.start ()) rfl) rfl, rfl⟩
  obtain ⟨last, t, hrun, hopen⟩ := h
  exact ⟨last, t, hrun, partitions_of_run hp hrun hopen⟩

end WalletReview.StaticReview
