import WalletReview.Fixture
import WalletReview.Proofs.StaticCalls

/-! Runs of a review without a cursor: calls in any order, in front of a provider that may answer
anything and change in between. Such a review ends once at most, and is approved only after its last
screen. -/
namespace WalletReview.StaticReview

variable {σ : Type} {config : Config}

inductive Call
  | totalPairs
  | totalScreens
  | pairAt (index : UInt16) (out : Pair)
  | screenAt (n : UInt16)
  | isComplete
  | finish (approved : Bool)
  deriving DecidableEq

inductive Reply
  | count (n : UInt16)
  /-- Whether the pair was written, and what stands there now. -/
  | pair (reply : Except Error Unit) (out : Pair)
  | screen (pairs : List Pair)
  | flag (holds : Bool)

def Call.perform (p : Provider σ) : Call → Operation StaticReview σ Reply
  | totalPairs => .count <$> StaticReview.totalPairs p
  | totalScreens => .count <$> StaticReview.totalScreens p
  | pairAt index out => (fun written => .pair written.1 written.2) <$> overwritePair p index out
  | screenAt n => .screen <$> StaticReview.screenAt p n
  | isComplete => .flag <$> StaticReview.isComplete p
  | finish approved => .flag <$> StaticReview.finish p approved

structure Step where
  call : Call
  reply : Except Error Reply

namespace Step

def outcomes : Step → List Outcome
  | ⟨.finish approved, .ok (.flag true)⟩ => [outcomeOf approved]
  | _ => []

def Shows (x : Step) (n : UInt16) : Prop :=
  x.call = .screenAt n ∧ ∃ screen, x.reply = .ok (.screen screen)

def screen? : Step → Option (UInt16 × List Pair)
  | ⟨.screenAt n, .ok (.screen screen)⟩ => some (n, screen)
  | _ => none

def Counts (x : Step) (screens : UInt16) : Prop :=
  x.call = .totalScreens ∧ x.reply = .ok (.count screens)

end Step

/-- The steps of a run, the latest first, and what it leaves behind, with the conversations of the
provider on record. In between, the provider may change, but not the record. -/
inductive Run (p : Provider σ) (config : Config) :
    List Step → Sitting StaticReview (Recorded σ) → Prop
  | start (content : σ) : Run p config [] ⟨.start config, ⟨content, []⟩, []⟩
  | call {steps : List Step} {t t' : Sitting StaticReview (Recorded σ)} {reply : Except Error Reply}
    (call : Call) : Run p config steps t → call.perform p.recorded t = .ok (reply, t') →
    Run p config (⟨call, reply⟩ :: steps) t'
  | meddle {steps : List Step} {t : Sitting StaticReview (Recorded σ)} (content : σ) :
    Run p config steps t → Run p config steps { t with content := { t.content with content } }

inductive Does (call : Call) (t : Sitting StaticReview (Recorded σ)) :
    Except Error Reply → Sitting StaticReview (Recorded σ) → Prop
  | asks {r : Except Error Reply} {t' : Sitting StaticReview (Recorded σ)} : Asked t t' →
    Step.outcomes ⟨call, r⟩ = [] → (∀ n, ¬Step.Shows ⟨call, r⟩ n) → Does call t r t'
  | shows {n : UInt16} {screen : List Pair} {t' : Sitting StaticReview (Recorded σ)} :
    call = .screenAt n → Showed n screen t t' → Does call t (.ok (.screen screen)) t'
  | ends {approved : Bool} {t' : Sitting StaticReview (Recorded σ)} : call = .finish approved →
    Ended approved t t' → Does call t (.ok (.flag true)) t'

variable {p : Provider σ} {t t' : Sitting StaticReview (Recorded σ)} {steps : List Step}
  {call : Call} {r : Except Error Reply}

theorem Does.asks_of {r : Except Error Reply} (h : Asked t t') (hscreen : ∀ n, call ≠ .screenAt n)
    (hfinish : ∀ approved, call ≠ .finish approved) : Does call t r t' := by
  refine .asks h ?_ fun n hshows => hscreen n hshows.1
  unfold Step.outcomes
  split
  · rename_i heq
    cases heq
    exact absurd rfl (hfinish _)
  · rfl

theorem overwritePair_asked (index : UInt16) (out : Pair) :
    (overwritePair p.recorded index out).Ensures t fun r t' => Asked t t' ∧
      ∃ reply out', r = .ok (reply, out') := by
  simp only [overwritePair, Operation.ensures_bind, Operation.ensures_attempt]
  refine (pairAt_asked index out).mono fun r t' hr => ?_
  cases r with
  | error cause => exact Operation.ensures_pure.2 ⟨hr, _, _, rfl⟩
  | ok pair => exact Operation.ensures_pure.2 ⟨hr, _, _, rfl⟩

/-- Every call has a result, and does one of the things above. -/
theorem perform_does (ht : t.machine.Orderly) (call : Call) :
    (call.perform p.recorded).Ensures t (Does call t) := by
  cases call with
  | totalPairs =>
    simp only [Call.perform, Operation.ensures_map]
    exact totalPairs_asked.mono fun r t' hr => .asks_of hr.1 (by simp) (by simp)
  | totalScreens =>
    simp only [Call.perform, Operation.ensures_map]
    exact (totalScreens_asked ht).mono fun r t' hr => .asks_of hr.1 (by simp) (by simp)
  | pairAt index out =>
    simp only [Call.perform, Operation.ensures_map]
    exact (overwritePair_asked index out).mono fun r t' hr => .asks_of hr.1 (by simp) (by simp)
  | screenAt n =>
    simp only [Call.perform, Operation.ensures_map]
    refine (screenAt_turns ht n).mono fun r t' hr => ?_
    cases hr with
    | shown h => exact .shows rfl h
    | refused h =>
      exact .asks h rfl fun m hshows => by obtain ⟨-, screen, hreply⟩ := hshows; cases hreply
  | isComplete =>
    simp only [Call.perform, Operation.ensures_map]
    exact (isComplete_asked ht).mono fun r t' hr => .asks_of hr.1 (by simp) (by simp)
  | finish approved =>
    simp only [Call.perform, Operation.ensures_map]
    refine (finish_ends ht approved).mono fun r t' hr => ?_
    cases hr.1 with
    | ended h => exact .ends rfl h
    | refused h =>
      exact .asks h rfl fun m hshows => by cases hshows.1

namespace Does

theorem orderly (h : Does call t r t') (ht : t.machine.Orderly) : t'.machine.Orderly := by
  cases h with
  | asks h => exact h.orderly ht
  | @shows n screen t' _ h =>
    obtain ⟨hopen, t₁, hasked, hwithin, -, hmachine⟩ := h
    have ht₁ := hasked.orderly ht
    have hfar : t₁.machine.Within (t.machine.reached.getD n) := by
      cases hreached : t.machine.reached with
      | none => exact hwithin
      | some m => exact ht₁.reached m (by rw [hasked.reached, hreached])
    rw [hmachine]
    refine ⟨ht₁.counted, fun m kept hm => ?_, fun m hm => ?_, fun hfinished => ?_⟩
    · cases hm
      exact hwithin
    · cases hm
      exact hfar.max hwithin
    · rw [hasked.finished, hopen] at hfinished
      cases hfinished
  | ends _ h =>
    obtain ⟨-, ⟨t₁, hasked, hmachine⟩, -⟩ := h
    have ht₁ := hasked.orderly ht
    rw [hmachine]
    exact ⟨ht₁.counted, fun _ _ h => (by cases h), ht₁.reached, fun _ => rfl⟩

/-- The provider learns of the end of the review when it ends, and of nothing else. -/
theorem conclusions (h : Does call t r t') :
    t'.content.conclusions = Step.outcomes ⟨call, r⟩ ++ t.content.conclusions := by
  cases h with
  | asks h hout => rw [hout, h.conclusions, List.nil_append]
  | shows hcall h =>
    obtain ⟨-, t₁, hasked, -, hcontent, -⟩ := h
    rw [hcontent, hasked.conclusions, hcall]
    rfl
  | ends hcall h =>
    rw [h.conclusions, hcall]
    rfl

theorem finished (h : Does call t r t') : t'.machine.finished = true ↔
    t.machine.finished = true ∨ Step.outcomes ⟨call, r⟩ ≠ [] := by
  cases h with
  | asks h hout => simp [h.finished, hout]
  | shows hcall h =>
    obtain ⟨hopen, t₁, hasked, -, -, hmachine⟩ := h
    simp [hmachine, hasked.finished, hcall, Step.outcomes]
  | ends hcall h =>
    obtain ⟨-, ⟨t₁, -, hmachine⟩, -⟩ := h
    simp [hmachine, hcall, Step.outcomes]

theorem opened (h : Does call t r t') (hout : Step.outcomes ⟨call, r⟩ ≠ []) :
    t.machine.finished = false := by
  cases h with
  | asks _ hnil => exact absurd hnil hout
  | shows hcall => exact absurd (by rw [hcall]; rfl) hout
  | ends _ h => exact h.opened

theorem counted (h : Does call t r t') {total : UInt16}
    (htotal : t.machine.pairCount = some total) : t'.machine.pairCount = some total := by
  cases h with
  | asks h => exact h.counted htotal
  | shows _ h =>
    obtain ⟨-, t₁, hasked, -, -, hmachine⟩ := h
    rw [hmachine]
    exact hasked.counted htotal
  | ends _ h =>
    obtain ⟨-, ⟨t₁, hasked, hmachine⟩, -⟩ := h
    rw [hmachine]
    exact hasked.counted htotal

theorem config_eq (h : Does call t r t') : t'.machine.config = t.machine.config := by
  cases h with
  | asks h => exact h.config
  | shows _ h =>
    obtain ⟨-, t₁, hasked, -, -, hmachine⟩ := h
    rw [hmachine]
    exact hasked.config
  | ends _ h =>
    obtain ⟨-, ⟨t₁, hasked, hmachine⟩, -⟩ := h
    rw [hmachine]
    exact hasked.config

theorem reached (h : Does call t r t') : t'.machine.reached = t.machine.reached ∧
    (∀ n, ¬Step.Shows ⟨call, r⟩ n) ∨ ∃ n, Step.Shows ⟨call, r⟩ n ∧
      t'.machine.reached = some (max (t.machine.reached.getD n) n) := by
  cases h with
  | asks h _ hnone => exact Or.inl ⟨h.reached, hnone⟩
  | @shows n screen t' hcall h =>
    obtain ⟨-, t₁, -, -, -, hmachine⟩ := h
    exact Or.inr ⟨n, ⟨hcall, screen, rfl⟩, by rw [hmachine]⟩
  | ends hcall h =>
    obtain ⟨-, ⟨t₁, hasked, hmachine⟩, -⟩ := h
    refine Or.inl ⟨by rw [hmachine]; exact hasked.reached, fun n hshows => ?_⟩
    rw [hcall] at hshows
    cases hshows.1

end Does

theorem perform_totalScreens (ht : t.machine.Orderly) :
    (Call.totalScreens.perform p.recorded).Ensures t fun r t' =>
      ∀ screens, r = .ok (.count screens) → t'.machine.HasScreens screens := by
  simp only [Call.perform, Operation.ensures_map]
  refine (totalScreens_asked ht).mono fun r t' hr screens hscreens => ?_
  cases r with
  | error cause => cases hscreens
  | ok screens' =>
    cases hscreens
    exact hr.2

structure Tracks (steps : List Step) (t : Sitting StaticReview (Recorded σ)) : Prop where
  orderly : t.machine.Orderly
  conclusions : t.content.conclusions = steps.flatMap Step.outcomes
  finished : t.machine.finished = true ∧ t.content.conclusions.length = 1 ∨
    t.machine.finished = false ∧ t.content.conclusions = []
  shown : ∀ n, t.machine.reached = some n → ∃ x ∈ steps, x.Shows n
  reached : ∀ x ∈ steps, ∀ n, x.Shows n → ∃ m, t.machine.reached = some m ∧ n.toNat ≤ m.toNat
  counted : ∀ x ∈ steps, ∀ screens, x.Counts screens → t.machine.HasScreens screens

namespace Tracks

theorem finished_of_does (h : Tracks steps t) (hdoes : Does call t r t') :
    t'.machine.finished = true ∧ t'.content.conclusions.length = 1 ∨
      t'.machine.finished = false ∧ t'.content.conclusions = [] := by
  rw [hdoes.conclusions]
  cases hout : Step.outcomes ⟨call, r⟩ with
  | nil =>
    have hsame : t'.machine.finished = t.machine.finished := by
      have hiff := hdoes.finished
      simp only [hout, ne_eq, not_true_eq_false, or_false] at hiff
      exact Bool.eq_iff_iff.2 hiff
    rw [hsame]
    exact h.finished
  | cons outcome rest =>
    have hne : Step.outcomes ⟨call, r⟩ ≠ [] := by simp [hout]
    have hlength : rest = [] := by
      unfold Step.outcomes at hout
      split at hout <;> simp_all
    rcases h.finished with ⟨hover, -⟩ | ⟨-, hnil⟩
    · cases hover.symm.trans (hdoes.opened hne)
    · exact Or.inl ⟨hdoes.finished.2 (Or.inr hne), by simp [hlength, hnil]⟩

theorem does (h : Tracks steps t) (hact : call.perform p.recorded t = .ok (r, t')) :
    Tracks (⟨call, r⟩ :: steps) t' := by
  have hdoes := (perform_does h.orderly call).of_eq hact
  refine ⟨hdoes.orderly h.orderly, ?_, h.finished_of_does hdoes, fun n hn => ?_,
    fun x hx n hshows => ?_, fun x hx screens hcounts => ?_⟩
  · rw [hdoes.conclusions, h.conclusions, List.flatMap_cons]
  · rcases hdoes.reached with ⟨hsame, -⟩ | ⟨m, hshows, hfar⟩
    · obtain ⟨x, hx, hshows⟩ := h.shown n (hsame ▸ hn)
      exact ⟨x, List.mem_cons_of_mem _ hx, hshows⟩
    · -- The furthest screen is the one just shown, or it was the furthest one before.
      cases hfar.symm.trans hn
      rcases Checked.max16_eq (t.machine.reached.getD m) m with heq | heq
      · rw [heq]
        cases hreached : t.machine.reached with
        | none => exact ⟨_, List.mem_cons_self, hshows⟩
        | some k =>
          obtain ⟨x, hx, hshows'⟩ := h.shown k hreached
          exact ⟨x, List.mem_cons_of_mem _ hx, hshows'⟩
      · rw [heq]
        exact ⟨_, List.mem_cons_self, hshows⟩
  · rcases hdoes.reached with ⟨hsame, hnone⟩ | ⟨m, hshows', hfar⟩
    · rcases List.mem_cons.1 hx with rfl | hx
      · exact absurd hshows (hnone n)
      · rw [hsame]
        exact h.reached x hx n hshows
    · refine ⟨_, hfar, ?_⟩
      rw [Checked.toNat_max16]
      rcases List.mem_cons.1 hx with rfl | hx
      · cases hshows.1.symm.trans hshows'.1
        exact Nat.le_max_right _ _
      · obtain ⟨k, hk, hle⟩ := h.reached x hx n hshows
        rw [hk]
        exact Nat.le_trans hle (Nat.le_max_left _ _)
  · rcases List.mem_cons.1 hx with rfl | hx
    · obtain ⟨rfl, rfl⟩ := hcounts
      exact (perform_totalScreens h.orderly).of_eq hact screens rfl
    · obtain ⟨total, htotal, hscreens⟩ := h.counted x hx screens hcounts
      exact ⟨total, hdoes.counted htotal, by rw [hdoes.config_eq]; exact hscreens⟩

end Tracks

theorem Run.tracks (h : Run p config steps t) : Tracks steps t := by
  induction h with
  | start content =>
    exact ⟨orderly_start config, rfl, Or.inr ⟨rfl, rfl⟩, fun _ h => (by cases h),
      fun _ h => (by cases h), fun _ h => by cases h⟩
  | call call _ hact ih => exact ih.does hact
  | meddle content _ ih =>
    exact ⟨ih.orderly, ih.conclusions, ih.finished, ih.shown, ih.reached, ih.counted⟩

/-- The furthest screen tells whether the last one has been shown. -/
theorem Tracks.complete_iff (h : Tracks steps t) {screens : UInt16}
    (hscreens : (totalScreens p.recorded).Ensures t fun r _ => r = .ok screens) :
    t.machine.Complete screens ↔ screens = 0 ∨ ∃ x ∈ steps, x.Shows (screens - 1) := by
  obtain ⟨_, t', -, rfl, hasked, hhas⟩ := hscreens.and (totalScreens_asked h.orderly)
  by_cases hzero : screens = 0
  · exact iff_of_true (Or.inl hzero) (Or.inl hzero)
  have hlast : (screens - 1).toNat = screens.toNat - 1 := by
    rw [UInt16.toNat_sub_of_le _ _ (UInt16.le_iff_toNat_le.2 ?_), UInt16.toNat_one]
    rw [UInt16.toNat_one]
    exact Nat.pos_of_ne_zero fun hnat => hzero (UInt16.toNat_inj.1 hnat)
  simp only [Complete, hzero, false_or]
  constructor
  · rintro ⟨n, hreached, hle⟩
    have hlt := (hasked.within (h.orderly.reached n hreached)).lt hhas
    have hn : n = screens - 1 := by
      rw [← UInt16.toNat_inj, hlast]
      omega
    exact hn ▸ h.shown n hreached
  · rintro ⟨x, hx, hshows⟩
    obtain ⟨m, hreached, hle⟩ := h.reached x hx _ hshows
    exact ⟨m, hreached, by omega⟩

/-- The number of screens is known, without a question to the provider. -/
def Knows (p : Provider σ) (t : Sitting StaticReview (Recorded σ)) (screens : UInt16) : Prop :=
  (totalScreens p.recorded).Ensures t fun r t' => r = .ok screens ∧ t' = t

theorem knows_iff (ht : t.machine.Orderly) {screens : UInt16} :
    Knows p t screens ↔ t.machine.HasScreens screens := by
  refine ⟨fun h => ?_, totalScreens_known ht⟩
  obtain ⟨_, _, -, ⟨rfl, rfl⟩, -, hhas⟩ := h.and (totalScreens_asked ht)
  exact hhas

structure Concludes (p : Provider σ) (steps : List Step) (t : Sitting StaticReview (Recorded σ)) :
    Prop where
  /-- The provider has learned of every end that was answered with `true`, and of nothing else. -/
  conclusions : t.content.conclusions = steps.flatMap Step.outcomes
  once : t.content.conclusions.length ≤ 1
  finished : t.machine.finished = true ↔ t.content.conclusions ≠ []
  told (call : Call) : (call.perform p.recorded).Ensures t fun r t' =>
    t'.content.conclusions = Step.outcomes ⟨call, r⟩ ++ t.content.conclusions
  closed (approved : Bool) : t.machine.finished = true →
    (finish p.recorded approved).Ensures t fun r t' => r = .ok false ∧ t' = t
  dark (n : UInt16) : t.machine.finished = true →
    (screenAt p.recorded n).Ensures t fun r t' => r = .error .invalidState ∧ t' = t
  reject : t.machine.finished = false → (finish p.recorded false).Ensures t fun r _ => r = .ok true
  approve : t.machine.finished = false → (finish p.recorded true).Ensures t fun r _ =>
    ∃ accepted, r = .ok accepted ∧ (accepted = true ↔ ∃ screens,
      (totalScreens p.recorded).Ensures t (fun r _ => r = .ok screens) ∧
        (screens = 0 ∨ ∃ x ∈ steps, x.Shows (screens - 1)))
  /-- A number of screens that was told once is known. -/
  counted (x : Step) (screens : UInt16) : x ∈ steps → x.Counts screens → Knows p t screens
  shown (x : Step) (n : UInt16) : x ∈ steps → x.Shows n → ∃ screens, Knows p t screens ∧ n < screens
  stays (screens : UInt16) : Knows p t screens →
    (∀ call : Call, (call.perform p.recorded).Ensures t fun _ t' => Knows p t' screens) ∧
      ∀ content, Knows p { t with content := { t.content with content } } screens
  refused (approved : Bool) : (finish p.recorded approved).Ensures t fun r t' => r = .ok false →
    t'.machine.shown = t.machine.shown ∧ t'.machine.reached = t.machine.reached ∧
      t'.machine.finished = t.machine.finished ∧ t'.content.conclusions = t.content.conclusions

/-- However the provider answers, a review ends once at most, and the provider learns of it; it is
approved exactly if there is nothing to show or its last screen has been shown. -/
theorem concludes_of_run (h : Run p config steps t) : Concludes p steps t := by
  have htracks := h.tracks
  have ht := htracks.orderly
  have hfinish (approved : Bool) := finish_ends (p := p) ht approved
  have hdoes (call : Call) := perform_does (p := p) ht call
  refine ⟨htracks.conclusions, ?_, ?_, fun call => (hdoes call).mono fun _ _ hr => hr.conclusions,
    fun approved hover => finish_finished _ hover approved,
    fun n hover => screenAt_finished _ hover n, fun hopen => ?_, fun hopen => ?_,
    fun x screens hx hcounts => (knows_iff ht).2 (htracks.counted x hx screens hcounts),
    fun x n hx hshows => ?_, fun screens hknows => ?_, fun approved => ?_⟩
  · rcases htracks.finished with ⟨-, hone⟩ | ⟨-, hnil⟩
    · exact Nat.le_of_eq hone
    · simp [hnil]
  · rcases htracks.finished with ⟨hover, hone⟩ | ⟨hopen, hnil⟩
    · refine iff_of_true hover fun hnil => ?_
      simp [hnil] at hone
    · simp [hopen, hnil]
  · exact (hfinish false).mono fun r t' hr => hr.2.2 ⟨hopen, fun h => by cases h⟩
  · refine (hfinish true).mono fun r t' hr => ?_
    obtain ⟨hends, hiff⟩ := hr
    have hlast : (∃ screens, t.machine.Complete screens ∧
        (totalScreens p.recorded).Ensures t fun r _ => r = .ok screens) ↔
          ∃ screens, (totalScreens p.recorded).Ensures t (fun r _ => r = .ok screens) ∧
            (screens = 0 ∨ ∃ x ∈ steps, x.Shows (screens - 1)) :=
      exists_congr fun screens => and_comm.trans
        (and_congr_right fun hscreens => htracks.complete_iff hscreens)
    simp only [hopen, true_and, forall_const, hlast] at hiff
    cases hends with
    | ended => exact ⟨true, rfl, by simpa using hiff⟩
    | refused => exact ⟨false, rfl, by simpa using hiff⟩
  · obtain ⟨m, hreached, hle⟩ := htracks.reached x hx n hshows
    obtain ⟨total, htotal, hlt⟩ := ht.reached m hreached
    obtain ⟨sum, above, -, -, hscreens⟩ := exists_screenCount t.machine (ht.counted total htotal)
    exact ⟨_, (knows_iff ht).2 ⟨total, htotal, hscreens⟩,
      UInt16.lt_iff_toNat_lt.2 (by rw [hscreens]; omega)⟩
  · obtain ⟨total, htotal, hscreens⟩ := (knows_iff ht).1 hknows
    refine ⟨fun call => (hdoes call).mono fun _ t' hr => (knows_iff (hr.orderly ht)).2
      ⟨total, hr.counted htotal, by rw [hr.config_eq]; exact hscreens⟩, fun content => ?_⟩
    exact (knows_iff (t := { t with content := { t.content with content } }) ht).2
      ⟨total, htotal, hscreens⟩
  · refine (hfinish approved).mono fun r t' hr hfalse => ?_
    cases hr.1 with
    | ended => cases hfalse
    | refused h => exact ⟨h.shown, h.reached, h.finished, h.conclusions⟩

/-- An approval that comes too early, the last one of two screens, and then the approval again. -/
theorem concludes_of_run_approved : ∃ last t,
    Run Fixture.provider .nanoS [⟨.finish true, .ok (.flag true)⟩,
      ⟨.screenAt 1, .ok (.screen last)⟩, ⟨.finish true, .ok (.flag false)⟩] t ∧
      t.content.conclusions = [.accepted] ∧ Concludes Fixture.provider
        [⟨.finish true, .ok (.flag true)⟩, ⟨.screenAt 1, .ok (.screen last)⟩,
          ⟨.finish true, .ok (.flag false)⟩] t := by
  have h : ∃ last t, Run Fixture.provider .nanoS [⟨.finish true, .ok (.flag true)⟩,
      ⟨.screenAt 1, .ok (.screen last)⟩, ⟨.finish true, .ok (.flag false)⟩] t ∧
      t.content.conclusions = [.accepted] :=
    ⟨_, _, .call (.finish true) (.call (.screenAt 1) (.call (.finish true)
      (.start (.ofPages [1, 1])) rfl) rfl) rfl, rfl⟩
  obtain ⟨last, t, hrun, hconclusions⟩ := h
  exact ⟨last, t, hrun, hconclusions, concludes_of_run hrun⟩

end WalletReview.StaticReview
