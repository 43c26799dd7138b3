import WalletReview.Proofs.Decisions
import WalletReview.Proofs.Grounds
import WalletReview.Proofs.Keeps
import WalletReview.Proofs.Paths

/-! Every question that an engine puts to its provider has its grounds in the answers before it,
however these change. While a review lasts, the engine and the exchanges on record agree about how
many items there are and about the path that is being inspected. -/
namespace WalletReview

variable {σ α : Type} {config : Config} {C : Contract config}

/-- A session of the review that began as `s₀`, wherever its cursor is; what it inspects, if
anything, lies at the end of `path`. -/
structure Session.Resumes (s s₀ : Session) (path : List UInt8) : Prop where
  itemCount : s.itemCount = s₀.itemCount
  intro : s.intro = s₀.intro
  screens : s.cursor.itemCount = s₀.cursor.itemCount
  chain : ∀ i, s.inspection = some i → i.chain = path

namespace Session.Resumes

variable {s s₀ : Session} {path : List UInt8}

theorem withCursor (h : s.Resumes s₀ path) {c : Cursor}
    (hc : c.itemCount = s.cursor.itemCount) : { s with cursor := c }.Resumes s₀ path :=
  ⟨h.itemCount, h.intro, hc.trans h.screens, h.chain⟩

theorem withInspection (h : s.Resumes s₀ path) {i : Inspection} {path' : List UInt8}
    (hi : i.chain = path') : { s with inspection := some i }.Resumes s₀ path' := by
  refine ⟨h.itemCount, h.intro, h.screens, fun j hj => ?_⟩
  cases hj
  exact hi

theorem withoutInspection (h : s.Resumes s₀ path) :
    { s with inspection := none }.Resumes s₀ [] :=
  ⟨h.itemCount, h.intro, h.screens, fun i hi => by cases hi⟩

end Session.Resumes

namespace Engine

open Operation Inspection

/-- The review that began as `s₀` is talking to its provider. What it inspects lies at the end of
`path`, which is empty where it inspects nothing. -/
structure Talks (s₀ : Session) (path : List UInt8) (log : List Exchange) (state : State)
    (session : Option Session) : Prop where
  founded : Founded log
  awake : state ≠ .idle
  counted : Counted log s₀.itemCount
  spans : s₀.cursor.itemCount.toNat ≤ s₀.leading.toNat + s₀.itemCount.toNat
  granted : path ≠ [] → Granted log path
  inspecting : path ≠ [] → state = .inspect ∨ state = .error
  session : ∀ s, session = some s → s.Resumes s₀ path

variable {s₀ s : Session} {path : List UInt8} {log : List Exchange} {st : State}
  {session : Option Session} {x : Exchange} {p : Provider σ} {dir : Direction} {i : Inspection}

namespace Talks

theorem ask (h : Talks s₀ path log st session) (hx : x.query.Founded log) (hinner : x.query.Inner)
    (hbelow : path ≠ [] → x.query.Below path) : Talks s₀ path (x :: log) st session where
  founded := h.founded.cons hx
  awake := h.awake
  counted := h.counted.cons hinner
  spans := h.spans
  granted hne := (h.granted hne).cons (hbelow hne)
  inspecting := h.inspecting
  session := h.session

theorem askBelow (h : Talks s₀ path log st session) (hx : x.query.Founded log)
    (hbelow : x.query.Below path) : Talks s₀ path (x :: log) st session :=
  h.ask hx hbelow.inner fun _ => hbelow

theorem askLeave (h : Talks s₀ path log st session) (hne : path ≠ [])
    (hlength : path.length ≤ maxDepth) (child : UInt8) (answer : Answer) :
    Talks s₀ path (⟨.canInspect path child, answer⟩ :: log) st session := by
  refine h.askBelow ?_ List.prefix_rfl
  cases path with
  | nil => exact absurd rfl hne
  | cons => exact ⟨h.granted hne, hlength⟩

theorem fail (h : Talks s₀ path log st session) : Talks s₀ path log .error none where
  founded := h.founded
  awake := by decide
  counted := h.counted
  spans := h.spans
  granted := h.granted
  inspecting _ := Or.inr rfl
  session s hs := by cases hs

theorem withState (h : Talks s₀ [] log st session) {state : State} (hstate : state ≠ .idle) :
    Talks s₀ [] log state session :=
  { h with awake := hstate, inspecting := fun hne => absurd rfl hne }

theorem withSession (h : Talks s₀ path log st session) (hs : s.Resumes s₀ path) :
    Talks s₀ path log st (some s) := by
  refine { h with session := fun s' hs' => ?_ }
  cases hs'
  exact hs

theorem withInspection (h : Talks s₀ path log st session) (hi : i.chain = path) :
    Talks s₀ path log st (session.map fun s => { s with inspection := some i }) := by
  refine { h with session := fun s' hs' => ?_ }
  obtain ⟨s, hs, rfl⟩ := Option.map_eq_some_iff.1 hs'
  exact (h.session s hs).withInspection hi

theorem resumes (h : Talks s₀ path log st (some s)) : s.Resumes s₀ path := h.session s rfl

end Talks

theorem keeps_setCursor (h : s.Resumes s₀ path) {c : Cursor}
    (hc : c.itemCount = s.cursor.itemCount) :
    Keeps (Talks s₀ path)
      (setSession { s with cursor := c } : Operation Engine (Recorded σ) Unit) :=
  keeps_setSession fun _ _ _ ht => ht.withSession (h.withCursor hc)

theorem keeps_setStateTop {state : State} (hstate : state ≠ .idle) :
    Keeps (Talks s₀ []) (setState state : Operation Engine (Recorded σ) Unit) :=
  keeps_setState fun _ _ _ h => h.withState hstate

/-! The list of the review. -/

theorem keeps_title (p : Provider σ) : Keeps (Talks s₀ []) (Engine.askField p.recorded.title) :=
  keeps_askField fun _ _ _ _ h => h.ask ⟨_, h.counted⟩ trivial fun hne => absurd rfl hne

theorem keeps_item (p : Provider σ) {index : UInt8} (hindex : index < s₀.itemCount) (page : UInt8) :
    Keeps (Talks s₀ []) (Engine.askField (p.recorded.item index page)) :=
  keeps_askField fun _ _ _ _ h =>
    h.ask ⟨_, h.counted, hindex⟩ trivial fun hne => absurd rfl hne

theorem keeps_loadProviderTitle (p : Provider σ) :
    Keeps (Talks s₀ []) (loadProviderTitle p.recorded) := by
  apply (keeps_title p).attempt.bind
  intro reply
  split
  · apply keeps_pure
  · exact (keeps_modifyField _).seq (keeps_pure _)
  · apply keeps_throw

theorem keeps_loadIntro (p : Provider σ) (s : Session) (screen : IntroScreen) :
    Keeps (Talks s₀ []) (loadIntro p.recorded s screen) := by
  simp only [loadIntro]
  split
  · split
    · exact (keeps_setText _).seq (keeps_pure _)
    · split
      · apply (keeps_loadProviderTitle p).bind
        intro found
        split
        · apply keeps_pure
        · apply keeps_setText
      · apply keeps_setText
  · apply keeps_setText

theorem keeps_topRound (p : Provider σ) (dir : Direction) :
    Keeps (Talks s₀ []) (topRound p.recorded dir) := by
  apply keeps_getSession
  intro log st s h
  have hs := h.resumes
  apply (keeps_modifyField _).seq
  split
  · exact (keeps_loadIntro p s _).seq
      ((keeps_setCursor hs (by rw [Cursor.clamp_one])).seq (keeps_pure _))
  · split
    · have hdecision : Keeps (Talks s₀ []) (do
          setText (terminalText s (← Operation.machine).config)
          setSession { s with cursor := (s.cursor.clamp 1).1 }
          return some true : Operation Engine (Recorded σ) (Option Bool)) :=
        keeps_machine fun _ _ => (keeps_setText _).seq
          ((keeps_setCursor hs (by rw [Cursor.clamp_one])).seq (keeps_pure _))
      split
      · exact (keeps_setStateTop (by decide)).seq hdecision
      · exact hdecision
    · rename_i hterminal
      apply keeps_liftM
      intro index hsub
      -- The items are among the screens of the list, after the intro.
      have hindex : index < s₀.itemCount := by
        have hspans := h.spans
        rw [← hs.screens, ← hs.itemCount, Session.leading, ← hs.intro] at hspans
        have hitem := Checked.sub8_eq_ok_iff.1 hsub
        simp only [Session.isTerminal, decide_eq_true_eq, UInt8.le_iff_toNat_le] at hterminal
        rw [UInt8.lt_iff_toNat_lt, ← hs.itemCount]
        rw [Session.leading] at hitem
        omega
      apply (keeps_item p hindex s.cursor.page).bind
      intro pages
      split
      · apply (keeps_note _).seq
        cases dir with
        | forward =>
          apply keeps_liftM
          intro item _
          exact (keeps_setCursor hs (by rfl)).seq (keeps_pure _)
        | backward =>
          simp only
          split
          · exact (keeps_setCursor hs (by rfl)).seq (keeps_pure _)
          · apply keeps_pure
      · have hpage : Keeps (Talks s₀ []) (loadPage s.cursor pages
            (fun cursor => setSession { s with cursor })
            (fun page => Engine.askField (p.recorded.item index page))) :=
          keeps_loadPage (fun _ _ hc => keeps_setCursor hs hc) fun page => keeps_item p hindex page
        exact hpage.seq (keeps_pure _)

theorem keeps_load (p : Provider σ) (dir : Direction) :
    Keeps (Talks s₀ []) (load p.recorded dir) := by
  refine keeps_loading ?_ fun _ _ _ h => h.fail
  apply keeps_getSession
  intro _ _ s _
  exact keeps_loop (keeps_topRound p dir) (keeps_throw _) _

/-! The children at the current level of an inspection. -/

theorem keeps_setInspectionAt (hi : i.chain = path) (c : Cursor) :
    Keeps (Talks s₀ path)
      (setInspection { i with cursor := c } : Operation Engine (Recorded σ) Unit) :=
  keeps_setInspection fun _ _ _ h => h.withInspection hi

theorem keeps_canInspect (p : Provider σ) (child : UInt8) (hne : path ≠ [])
    (hlength : path.length ≤ maxDepth) :
    Keeps (Talks s₀ path) (Operation.ask (p.recorded.canInspect path child)) :=
  keeps_ask fun _ _ _ h => h.askLeave hne hlength child _

/-- What is inspected has `count` children, which the provider was asked for last. -/
structure TalksOf (s₀ : Session) (path : List UInt8) (count : UInt8) (log : List Exchange)
    (state : State) (session : Option Session) : Prop where
  talks : Talks s₀ path log state session
  counted : ChildrenCounted log path count
  numbers : ∀ s i, session = some s → s.inspection = some i → i.Numbers count

variable {count child : UInt8}

theorem keeps_child (p : Provider σ) (hne : path ≠ []) (hchild : child < count) (page : UInt8) :
    Keeps (TalksOf s₀ path count) (Engine.askField (p.recorded.child path child page)) := by
  refine keeps_askField fun _ _ _ _ h => ⟨h.talks.askBelow ?_ List.prefix_rfl, ?_, h.numbers⟩
  · exact ⟨h.talks.granted hne, count, h.counted, hchild⟩
  · exact h.counted.cons id

theorem Talks.counting (h : Talks s₀ path log st session)
    (hcounted : ChildrenCounted log path count) (hi : i.chain = path) (hnumbers : i.Numbers count) :
    TalksOf s₀ path count log st (session.map fun s => { s with inspection := some i }) := by
  refine ⟨h.withInspection hi, hcounted, fun s' j hs' hj => ?_⟩
  obtain ⟨s, hs, rfl⟩ := Option.map_eq_some_iff.1 hs'
  cases hj
  exact hnumbers

theorem keeps_setInspectionOf (hi : i.chain = path) (hnumbers : i.Numbers count) :
    Keeps (TalksOf s₀ path count) (setInspection i : Operation Engine (Recorded σ) Unit) :=
  keeps_setInspection fun _ _ _ h => h.talks.counting h.counted hi hnumbers

theorem keeps_childRound (p : Provider σ) (dir : Direction) :
    Keeps (TalksOf s₀ path count) (childRound p.recorded dir) := by
  apply keeps_getInspection
  intro log st s i h hi
  have hchain := h.talks.resumes.chain i hi
  have hnumbers := h.numbers s i rfl hi
  -- Wherever a round puts the cursor, it stays among the children that were counted.
  have hset {c : Cursor} (hitem : c.item.toNat ≤ i.cursor.itemCount.toNat - 1)
      (hcount : c.itemCount = i.cursor.itemCount) : Keeps (TalksOf s₀ path count)
      (setInspection { i with cursor := c } : Operation Engine (Recorded σ) Unit) :=
    keeps_setInspectionOf hchain (hnumbers.withCursor hitem hcount)
  have hstay : Keeps (TalksOf s₀ path count)
      (setInspection { i with cursor := (i.cursor.clamp 1).1 } :
        Operation Engine (Recorded σ) Unit) := by
    rw [Cursor.clamp_one]
    exact hset hnumbers.within rfl
  apply (keeps_modifyField _).seq
  split
  · exact (keeps_modifyField _).seq (hstay.seq (keeps_pure _))
  · rename_i hmarker
    split
    · exact hstay.seq (keeps_pure _)
    · rename_i child hchild
      apply keeps_liftM
      intro path' htrace
      obtain rfl : path' = path := ((trace_eq_ok_iff.1 htrace).2).symm.trans hchain
      have hlt : child < count := hnumbers.childIndex_lt (by
        rw [Bool.or_eq_true, not_or] at hmarker
        simpa using hmarker.2) hchild
      have hne := hchain ▸ i.chain_ne_nil
      apply (keeps_child p hne hlt i.cursor.page).bind
      intro pages
      split
      · cases dir with
        | forward =>
          simp only
          split
          · rename_i hnext
            apply keeps_liftM
            intro item hadd
            have hitem : i.cursor.item.toNat + 1 = item.toNat := Checked.add8_eq_ok_iff.1 hadd
            exact (hset (by simp only; omega) (by rfl)).seq (keeps_pure _)
          · apply keeps_pure
        | backward =>
          simp only
          split
          · rename_i hone
            have hitem := diff8_one hone
            have hwithin := hnumbers.within
            rw [Cursor.Within] at hwithin
            exact (hset (by simp only; omega) (by rfl)).seq (keeps_pure _)
          · apply keeps_pure
      · have hpage : Keeps (TalksOf s₀ path' count) (loadPage i.cursor pages
            (fun cursor => setInspection { i with cursor })
            (fun page => Engine.askField (p.recorded.child path' child page))) :=
          keeps_loadPage
            (fun _ hitem hcount => hset (by rw [hitem]; exact hnumbers.within) hcount)
            fun page => keeps_child p hne hlt page
        exact hpage.seq (keeps_pure _)

theorem keeps_loadChild (p : Provider σ) (dir : Direction) :
    Keeps (Talks s₀ path) (loadChild p.recorded dir) := by
  refine keeps_loading ?_ fun _ _ _ h => h.fail
  apply keeps_getInspection
  intro _ _ s i h hi
  have hchain := h.resumes.chain i hi
  apply keeps_liftM
  intro path' htrace
  obtain rfl : path' = path := ((trace_eq_ok_iff.1 htrace).2).symm.trans hchain
  have hne := hchain ▸ i.chain_ne_nil
  intro t ht
  rw [upholds_bind, upholds_ask]
  simp only [upholds_bind, upholds_settle]
  have hasked (answer : Answer) :
      Talks s₀ path' (⟨.childCount path', answer⟩ :: t.content.exchanges) t.machine.state
        t.machine.session := ht.askBelow (ht.granted hne) List.prefix_rfl
  cases hreply : (p.recorded.childCount path' t.content).1 with
  | error cause => exact hasked _
  | ok count =>
    have hcounted : ChildrenCounted (⟨.childCount path',
        .count (p.recorded.childCount path' t.content).1⟩ :: t.content.exchanges) path' count := by
      rw [hreply]
      exact since_self
    have hloop (rounds : Nat) : Keeps (TalksOf s₀ path' count)
        (Operation.loop (childRound p.recorded dir) (throw .unknown) rounds) :=
      keeps_loop (keeps_childRound p dir) (keeps_throw _) rounds
    simp only [upholds_setInspection]
    refine Operation.Upholds.mono (hloop _ _ ?_) fun _ _ h => h.talks
    exact (hasked _).counting (i := clampItem (i.setChildCount count)) hcounted hchain
      (.recounted i count)

/-! Moving on. -/

theorem itemCount_of_stepped {c d : Cursor} {extra : UInt8}
    (h : stepped c extra dir = .ok (some d)) : d.itemCount = c.itemCount := by
  cases dir with
  | forward =>
    simp only [stepped, Cursor.advance] at h
    split at h
    · split at h
      · cases hadd : Checked.add8 c.page 1 with
        | error fault => simp [hadd, Functor.map, Except.map, bind, Except.bind] at h
        | ok page =>
          rw [hadd] at h
          cases h
          rfl
      · split at h
        · cases hadd : Checked.add8 c.item 1 with
          | error fault => simp [hadd, Functor.map, Except.map, bind, Except.bind] at h
          | ok item =>
            rw [hadd] at h
            cases h
            rfl
        · cases h
          rfl
    · cases h
  | backward =>
    simp only [stepped] at h
    split at h
    · cases h
      unfold Cursor.retreat
      split
      · rfl
      · split
        · rfl
        · rfl
    · cases h

theorem keeps_step (p : Provider σ) (dir : Direction) :
    Keeps (Talks s₀ []) (step p.recorded dir) := by
  apply keeps_getSession
  intro _ _ s h
  have hs := h.resumes
  apply keeps_liftM
  intro next hnext
  split
  · apply keeps_pure
  · have hcount := itemCount_of_stepped hnext
    apply (keeps_setCursor hs hcount).seq
    apply (keeps_load p dir).bind
    intro found
    split
    · apply keeps_pure
    · apply keeps_getSession
      intro _ _ s' h'
      have hs' := h'.resumes
      exact (keeps_setCursor hs' (by rw [hs.screens, hs'.screens])).seq
        ((keeps_load p .forward).seq (keeps_pure _))

theorem keeps_offerSkip (s : Session) :
    Keeps (Talks s₀ []) (offerSkip s : Operation Engine (Recorded σ) Output) :=
  (keeps_note _).seq ((keeps_setStateTop (by decide)).seq
    ((keeps_modifyField _).seq (keeps_pure _)))

theorem keeps_advanceReview (p : Provider σ) :
    Keeps (Talks s₀ []) (advanceReview p.recorded) := by
  apply keeps_getSession
  intro _ _ s h
  have hs := h.resumes
  apply keeps_machine
  intro t _
  apply keeps_liftM
  intro skips _
  split
  · apply keeps_offerSkip
  · split
    · exact (keeps_setCursor hs (by rfl)).seq ((keeps_load p .forward).seq (keeps_pure _))
    · apply keeps_step

theorem keeps_inspectStep (p : Provider σ) (dir : Direction) :
    Keeps (Talks s₀ path) (inspectStep p.recorded dir) := by
  apply keeps_getInspection
  intro _ _ s i h hi
  have hchain := h.resumes.chain i hi
  apply keeps_liftM
  intro next _
  split
  · apply keeps_pure
  · apply (keeps_setInspectionAt hchain _).seq
    apply (keeps_loadChild p dir).bind
    intro found
    split
    · apply keeps_pure
    · apply keeps_getInspection
      intro _ _ s' j h' hj
      exact (keeps_setInspectionAt (h'.resumes.chain j hj) _).seq
        ((keeps_loadChild p .forward).seq (keeps_pure _))

theorem Talks.path_eq_nil (h : Talks s₀ path log st session) (hinspect : st ≠ .inspect)
    (herror : st ≠ .error) : path = [] := by
  cases path with
  | nil => rfl
  | cons => rcases h.inspecting (by simp) with h | h <;> contradiction

theorem keeps_advance (p : Provider σ) : Keeps (Talks s₀ path) (advance p.recorded) := by
  apply keeps_machine
  intro t h
  split
  · rename_i hstate
    obtain rfl := h.path_eq_nil (by simp [hstate]) (by simp [hstate])
    apply keeps_advanceReview
  · rename_i hstate
    obtain rfl := h.path_eq_nil (by simp [hstate]) (by simp [hstate])
    exact (keeps_setStateTop (by decide)).seq (keeps_step p .forward)
  · apply keeps_inspectStep
  · apply keeps_pure
  · apply keeps_throw
  · apply keeps_throw

theorem keeps_retreat (p : Provider σ) : Keeps (Talks s₀ path) (retreat p.recorded) := by
  apply keeps_machine
  intro t h
  split
  · rename_i hstate
    obtain rfl := h.path_eq_nil (by simp [hstate]) (by simp [hstate])
    apply keeps_step
  · rename_i hstate
    obtain rfl := h.path_eq_nil (by simp [hstate]) (by simp [hstate])
    exact (keeps_setStateTop (by decide)).seq ((keeps_load p .forward).seq (keeps_pure _))
  · apply keeps_inspectStep
  · rename_i hstate
    obtain rfl := h.path_eq_nil (by simp [hstate]) (by simp [hstate])
    apply (keeps_setStateTop (by decide)).seq
    apply (keeps_step p .backward).bind
    intro output
    apply keeps_getSession
    intro _ _ s _
    split
    · exact (keeps_setStateTop (by decide)).seq (keeps_pure _)
    · apply keeps_pure
  · apply keeps_throw
  · apply keeps_throw

theorem keeps_skipToApprove (p : Provider σ) :
    Keeps (Talks s₀ path) (skipToApprove p.recorded) := by
  apply keeps_machine
  intro t h
  apply keeps_getSession
  intro _ _ s h'
  have hs := h'.resumes
  apply Keeps.unless
  intro hskip
  have hpath : path = [] := by
    apply h.path_eq_nil
    · intro hstate
      simp [canSkip, hstate] at hskip
    · intro hstate
      simp [canSkip, hstate] at hskip
  subst hpath
  have hset : Keeps (Talks s₀ []) (setSession
      (if s.terminal = .dedicated then s.toConfirm else s.toApprove) :
        Operation Engine (Recorded σ) Unit) := by
    split
    · exact keeps_setCursor hs rfl
    · exact keeps_setCursor hs rfl
  exact (keeps_note _).seq (hset.seq ((keeps_setStateTop (by decide)).seq
    ((keeps_load p .forward).seq (keeps_pure _))))

theorem keeps_canDescend (p : Provider σ) : Keeps (Talks s₀ path) (canDescend p.recorded) := by
  apply keeps_machine
  intro t h
  split
  · apply keeps_pure
  · rename_i i hi
    obtain ⟨s, hs, hi⟩ := Option.bind_eq_some_iff.1 hi
    have hchain := (h.session s hs).chain i hi
    split
    · apply keeps_pure
    · unfold Inspection.canDescend
      split
      · apply keeps_pure
      · rename_i hdepth
        apply keeps_liftM
        intro path' htrace
        obtain ⟨hle, hpath'⟩ := trace_eq_ok_iff.1 htrace
        obtain rfl : path' = path := hpath'.symm.trans hchain
        refine keeps_canInspect p _ (hchain ▸ i.chain_ne_nil) ?_
        rw [← hchain, length_chain hle]
        omega

/-! Between two actions. -/

/-- The questions so far had their grounds. A review that is under way goes on with them; where none
is, none is under way for the provider either. -/
structure Grounded (log : List Exchange) (state : State) (session : Option Session) : Prop where
  founded : Founded log
  closed : state = .idle → ∀ count, ¬Counted log count
  talks : ∀ s, session = some s → ∃ path, Talks s path log state session

variable {t : Sitting Engine (Recorded σ)}

/-- A review is the one that its session belongs to. -/
theorem Talks.rebase (h : Talks s₀ path log st (some s)) : Talks s path log st (some s) where
  founded := h.founded
  awake := h.awake
  counted := h.resumes.itemCount ▸ h.counted
  spans := by
    have hspans := h.spans
    have hs := h.resumes
    rw [Session.leading, ← hs.intro, ← hs.itemCount, ← hs.screens] at hspans
    exact hspans
  granted := h.granted
  inspecting := h.inspecting
  session s' hs' := by
    cases hs'
    exact ⟨rfl, rfl, rfl, h.resumes.chain⟩

theorem Talks.grounded (h : Talks s₀ path log st session) : Grounded log st session where
  founded := h.founded
  closed hstate := absurd hstate h.awake
  talks s hs := by
    subst hs
    exact ⟨path, h.rebase⟩

theorem Grounded.error (h : Grounded log st session) : Grounded log .error none where
  founded := h.founded
  closed hstate := by cases hstate
  talks s hs := by cases hs

theorem Grounded.conclude (h : Grounded log st session) (outcome : Outcome) (answer : Answer) :
    Grounded (⟨.conclude outcome, answer⟩ :: log) .idle none where
  founded := h.founded.cons trivial
  closed _ count hcounted := by
    obtain ⟨_ | ⟨y, later⟩, earlier, hlog, hlater⟩ := hcounted
    · cases hlog
    · cases hlog
      exact hlater _ List.mem_cons_self
  talks s hs := by cases hs

/-- An operation of a running review, which does nothing where there is none. -/
theorem upholds_of_keeps {op : Operation Engine (Recorded σ) α} (he : Sound C t.machine)
    (hkeeps : ∀ s₀ path, Keeps (Talks s₀ path) op)
    (hnone : t.machine.state = .idle ∨ t.machine.state = .error →
      op.Upholds t fun _ t' => t' = t)
    (h : Invariant.At Grounded t) : op.Upholds t fun _ t' => Invariant.At Grounded t' := by
  cases hs : t.machine.session with
  | none =>
    refine (hnone ?_).mono fun r t' ht' => by rwa [ht']
    refine Decidable.byContradiction fun hstate => ?_
    obtain ⟨s, hs'⟩ := he.exists_session (fun h => hstate (Or.inl h)) fun h => hstate (Or.inr h)
    cases hs.symm.trans hs'
  | some s =>
    obtain ⟨path, htalks⟩ := h.talks s hs
    exact (hkeeps s path t htalks).mono fun r t' ht' => ht'.grounded

theorem advance_grounded (he : Sound C t.machine) (h : Invariant.At Grounded t) :
    (advance p.recorded).Upholds t fun _ t' => Invariant.At Grounded t' := by
  refine upholds_of_keeps he (fun _ _ => keeps_advance p) (fun hstate => ?_) h
  rcases hstate with hstate | hstate
  · simp [advance, Loader.advance, hstate]
  · simp [advance, Loader.advance, hstate]

theorem retreat_grounded (he : Sound C t.machine) (h : Invariant.At Grounded t) :
    (retreat p.recorded).Upholds t fun _ t' => Invariant.At Grounded t' := by
  refine upholds_of_keeps he (fun _ _ => keeps_retreat p) (fun hstate => ?_) h
  rcases hstate with hstate | hstate
  · simp [retreat, Loader.retreat, hstate]
  · simp [retreat, Loader.retreat, hstate]

theorem skipToApprove_grounded (he : Sound C t.machine) (h : Invariant.At Grounded t) :
    (skipToApprove p.recorded).Upholds t fun _ t' => Invariant.At Grounded t' := by
  refine upholds_of_keeps he (fun _ _ => keeps_skipToApprove p) (fun hstate => ?_) h
  simp [skipToApprove, Loader.skipToApprove, upholds_getSession, he.session_eq_none hstate]

theorem canDescend_grounded (he : Sound C t.machine) (h : Invariant.At Grounded t) :
    (canDescend p.recorded).Upholds t fun _ t' => Invariant.At Grounded t' := by
  refine upholds_of_keeps he (fun _ _ => keeps_canDescend p) (fun hstate => ?_) h
  simp [canDescend, he.session_eq_none hstate]

theorem Talks.inspect (h : Talks s₀ path log st session) (hgranted : Granted log i.chain)
    {state : State} (hstate : state = .inspect) :
    Talks s₀ i.chain log state (session.map fun s => { s with inspection := some i }) where
  founded := h.founded
  awake := by simp [hstate]
  counted := h.counted
  spans := h.spans
  granted _ := hgranted
  inspecting _ := Or.inl hstate
  session s' hs' := by
    obtain ⟨s, hs, rfl⟩ := Option.map_eq_some_iff.1 hs'
    exact (h.session s hs).withInspection rfl

theorem loadChild_grounded {out : Output}
    (h : ∃ s₀ path, Talks s₀ path t.content.exchanges t.machine.state t.machine.session) :
    (do
      let _ ← loadChild p.recorded .forward
      return out : Operation Engine (Recorded σ) Output).Upholds t
      fun _ t' => Invariant.At Grounded t' := by
  obtain ⟨s₀, path, h⟩ := h
  exact ((keeps_loadChild p .forward).seq (keeps_pure out) t h).mono fun _ _ h => h.grounded

theorem load_grounded {out : Output}
    (h : ∃ s₀, Talks s₀ [] t.content.exchanges t.machine.state t.machine.session) :
    (do
      let _ ← load p.recorded .forward
      return out : Operation Engine (Recorded σ) Output).Upholds t
      fun _ t' => Invariant.At Grounded t' := by
  obtain ⟨s₀, h⟩ := h
  exact ((keeps_load p .forward).seq (keeps_pure out) t h).mono fun _ _ h => h.grounded

theorem enterInspect_grounded (he : Sound C t.machine) (h : Invariant.At Grounded t) :
    (enterInspect p.recorded).Upholds t fun _ t' => Invariant.At Grounded t' := by
  rw [enterInspect, Loader.enterInspect]
  simp only [upholds_bind, upholds_machine]
  by_cases hstate : t.machine.state = .review
  · obtain ⟨s, hs, -, -, hruns, -⟩ := he.review hstate
    obtain ⟨path, htalks⟩ := h.talks s hs
    obtain rfl := htalks.path_eq_nil (by simp [hstate]) (by simp [hstate])
    simp only [hstate, ne_eq, not_true_eq_false, ↓reduceIte, upholds_getSession, hs, upholds_bind]
    cases hindex : s.itemIndex? with
    | none =>
      simp only [upholds_throw]
      exact h
    | some index =>
      have hat := hruns.itemIndex?_eq_some_iff.1 hindex
      have hasked (answer : Answer) :
          Talks s [] (⟨.canInspect [] index, answer⟩ :: t.content.exchanges) t.machine.state
            t.machine.session :=
        htalks.ask ⟨_, htalks.counted, UInt8.lt_iff_toNat_lt.2 hat.2⟩ trivial
          fun hne => absurd rfl hne
      simp only [upholds_bind, upholds_ask]
      cases hcan : (p.recorded.canInspect [] index t.content).1 with
      | false =>
        simp only [Bool.false_eq_true, ↓reduceIte, upholds_throw]
        exact (hasked _).grounded
      | true =>
        have hgranted : Granted (⟨.canInspect [] index,
            .flag (p.recorded.canInspect [] index t.content).1⟩ :: t.content.exchanges)
            (Inspection.start index t.machine.config.inspectLayout).chain := by
          rw [hcan]
          exact .start
        simp only [↓reduceIte, upholds_bind, upholds_note, upholds_setInspection, upholds_setState]
        exact upholds_bind.1 (loadChild_grounded ⟨_, _, (hasked _).inspect hgranted rfl⟩)
  · simp only [ne_eq, hstate, not_false_eq_true, ↓reduceIte, upholds_bind, upholds_throw]
    exact h

theorem descend_grounded (he : Sound C t.machine) (h : Invariant.At Grounded t) :
    (descend p.recorded).Upholds t fun _ t' => Invariant.At Grounded t' := by
  rw [descend, Loader.descend]
  simp only [upholds_bind, upholds_machine]
  by_cases hstate : t.machine.state = .inspect
  · obtain ⟨s, i, root, f, hins, -, -, -, hstands⟩ := he.inspect hstate
    obtain ⟨path, htalks⟩ := h.talks s hins.session
    have hchain := (htalks.session s hins.session).chain i hins.inspection
    simp only [hstate, ne_eq, not_true_eq_false, ↓reduceIte, upholds_bind, upholds_getInspection,
      hins.session, Option.bind_some, hins.inspection]
    cases hchild : i.childIndex with
    | none =>
      simp only [upholds_throw]
      exact h
    | some child =>
      simp only [upholds_bind, Inspection.descend]
      by_cases hdepth : maxDepth ≤ i.depth.toNat
      · simp only [if_pos hdepth, upholds_bind, upholds_throw]
        exact h
      · have hlength : path.length ≤ maxDepth := by
          rw [← hchain, length_chain hstands.fits.depth]
          omega
        have hne : path ≠ [] := hchain ▸ i.chain_ne_nil
        have hasked := htalks.askLeave hne hlength child
        simp only [if_neg hdepth, upholds_bind, upholds_liftM, hstands.fits.trace, Except.ok.injEq,
          forall_eq', hchain, upholds_ask]
        cases hcan : (p.recorded.canInspect path child t.content).1 with
        | false =>
          simp only [Bool.false_eq_true, ↓reduceIte, upholds_throw]
          exact (hasked _).grounded
        | true =>
          simp only [↓reduceIte, upholds_liftM]
          intro i' henter
          have hgranted : Granted (⟨.canInspect path child,
              .flag (p.recorded.canInspect path child t.content).1⟩ :: t.content.exchanges)
              i'.chain := by
            rw [hcan, chain_of_enter henter, hchain]
            exact (htalks.granted hne).enter hlength
          simp only [upholds_setInspection, upholds_note]
          intro path' _
          exact upholds_bind.1 (loadChild_grounded ⟨_, _, (hasked _).inspect hgranted hstate⟩)
  · simp only [ne_eq, hstate, not_false_eq_true, ↓reduceIte, upholds_bind, upholds_throw]
    exact h

theorem Talks.leave (h : Talks s₀ path log st (some s)) {c : Cursor}
    (hc : c.itemCount = s.cursor.itemCount) :
    Talks s₀ [] log .review (some { s with inspection := none, cursor := c }) where
  founded := h.founded
  awake := by decide
  counted := h.counted
  spans := h.spans
  granted hne := absurd rfl hne
  inspecting hne := absurd rfl hne
  session s' hs' := by
    cases hs'
    exact h.resumes.withoutInspection.withCursor hc

theorem exitToRoot_grounded (he : Sound C t.machine) (h : Invariant.At Grounded t) :
    (exitToRoot p.recorded).Upholds t fun _ t' => Invariant.At Grounded t' := by
  rw [exitToRoot, Loader.exitToRoot]
  simp only [upholds_bind, upholds_machine]
  by_cases hstate : t.machine.state = .inspect
  · obtain ⟨s, i, root, f, hins, -⟩ := he.inspect hstate
    obtain ⟨path, htalks⟩ := h.talks s hins.session
    rw [hins.session] at htalks
    simp only [hstate, ne_eq, not_true_eq_false, ↓reduceIte, upholds_bind, upholds_getSession,
      upholds_getInspection, hins.session, Option.bind_some, hins.inspection, upholds_note,
      upholds_liftM, upholds_setSession, upholds_setState]
    intro item _
    exact upholds_bind.1 (load_grounded ⟨_, htalks.leave (by rfl)⟩)
  · simp only [ne_eq, hstate, not_false_eq_true, ↓reduceIte, upholds_bind, upholds_throw]
    exact h

theorem exitLevel_grounded (he : Sound C t.machine) (h : Invariant.At Grounded t) :
    (exitLevel p.recorded).Upholds t fun _ t' => Invariant.At Grounded t' := by
  rw [exitLevel, Loader.exitLevel]
  simp only [upholds_bind, upholds_machine]
  by_cases hstate : t.machine.state = .inspect
  · obtain ⟨s, i, root, f, hins, -, -, -, hstands⟩ := he.inspect hstate
    obtain ⟨path, htalks⟩ := h.talks s hins.session
    have hchain := (htalks.session s hins.session).chain i hins.inspection
    simp only [hstate, ne_eq, not_true_eq_false, ↓reduceIte, upholds_bind,
      upholds_getInspection, hins.session, Option.bind_some, hins.inspection, upholds_liftM]
    intro above hascend
    cases above with
    | none => exact exitToRoot_grounded he h
    | some i' =>
      obtain ⟨child, hparent, -⟩ := of_ascend hascend
      have hgranted : Granted t.content.exchanges i'.chain := by
        refine (htalks.granted (hchain ▸ i.chain_ne_nil)).of_isPrefix ?_ i'.chain_ne_nil
        rw [← hchain, hparent]
        exact List.prefix_append _ _
      simp only [upholds_bind, upholds_setInspection, upholds_liftM, upholds_note]
      intro path' _
      exact upholds_bind.1 (loadChild_grounded ⟨_, _, htalks.inspect hgranted hstate⟩)
  · simp only [ne_eq, hstate, not_false_eq_true, ↓reduceIte, upholds_bind, upholds_throw]
    exact h

theorem Talks.begin (e : Engine) (kind : Kind) (confirmation : Bool) (intent : Option String)
    (hfounded : Founded log) (hcounted : Counted log count) :
    Talks (e.newSession kind confirmation intent count) [] log .review
      (some (e.newSession kind confirmation intent count)) := by
  obtain ⟨text, -, hnew⟩ := e.newSession_eq kind confirmation intent count
  rw [hnew]
  refine ⟨hfounded, by decide, hcounted, ?_, fun hne => absurd rfl hne, fun hne => absurd rfl hne,
    fun s hs => ?_⟩
  · simp only [Session.start, Cursor.start, saturate8_toNat, Session.leading]
    omega
  · cases hs
    exact ⟨rfl, rfl, rfl, fun i hi => by cases hi⟩

theorem fail_grounded (cause : Error) (h : Founded t.content.exchanges) :
    (fail cause : Operation Engine (Recorded σ) α).Upholds t
      fun _ t' => Invariant.At Grounded t' := by
  simp only [fail, showErrorScreen, upholds_bind, upholds_note, upholds_modifyMachine,
    upholds_throw]
  exact ⟨h, fun hstate => (by cases hstate), fun s hs => by cases hs⟩

theorem begin_grounded {kind : Kind} {confirmation : Bool} {intent : Option String}
    (h : Invariant.At Grounded t) :
    (begin p.recorded kind confirmation intent).Upholds t
      fun _ t' => Invariant.At Grounded t' := by
  rw [Engine.begin, Loader.begin]
  simp only [upholds_bind, upholds_machine, upholds_note]
  by_cases hstate : t.machine.state = .idle
  · have hfounded (answer : Answer) : Founded (⟨.itemCount, answer⟩ :: t.content.exchanges) :=
      h.founded.cons (h.closed hstate)
    simp only [hstate, ne_eq, not_true_eq_false, ↓reduceIte, upholds_bind, upholds_modifyField,
      upholds_ask]
    cases hreply : (p.recorded.itemCount t.content).1 with
    | error cause => exact fail_grounded cause (hfounded _)
    | ok count =>
      have hcounted : Counted (⟨.itemCount, .count (p.recorded.itemCount t.content).1⟩ ::
          t.content.exchanges) count := by
        rw [hreply]
        exact since_self
      simp only
      split
      · exact fail_grounded _ (hfounded _)
      · simp only [upholds_bind, upholds_setSession, upholds_setState]
        exact upholds_bind.1 (load_grounded ⟨_, .begin _ kind confirmation intent (hfounded _)
          hcounted⟩)
  · simp only [ne_eq, hstate, not_false_eq_true, ↓reduceIte, upholds_bind, upholds_throw]
    exact h

theorem finish_grounded (p : Provider σ) (approved : Bool) (h : Invariant.At Grounded t) :
    (finish p.recorded approved).Upholds t fun _ t' => Invariant.At Grounded t' := by
  cases approved with
  | true =>
    simp only [finish, ↓reduceIte, upholds_bind, upholds_note, upholds_modifyMachine,
      upholds_conclude, upholds_pure]
    exact Grounded.conclude h .accepted .done
  | false =>
    simp only [finish, Bool.false_eq_true, ↓reduceIte, upholds_bind, upholds_note,
      upholds_modifyMachine, upholds_conclude, upholds_pure]
    exact Grounded.conclude h .rejected .done

theorem approve_grounded (p : Provider σ) (h : Invariant.At Grounded t) :
    (approve p.recorded).Upholds t fun _ t' => Invariant.At Grounded t' := by
  simp only [approve, upholds_bind, upholds_machine]
  split
  · exact finish_grounded p true h
  · exact upholds_throw.2 h

theorem reject_grounded (p : Provider σ) (h : Invariant.At Grounded t) :
    (reject p.recorded).Upholds t fun _ t' => Invariant.At Grounded t' := by
  simp only [reject, upholds_bind, upholds_machine]
  split
  · exact upholds_throw.2 h
  · exact upholds_throw.2 h
  · exact finish_grounded p false h

theorem acknowledge_grounded (p : Provider σ) (he : Sound C t.machine)
    (h : Invariant.At Grounded t) :
    (acknowledge p.recorded).Upholds t fun _ t' => Invariant.At Grounded t' := by
  simp only [acknowledge, upholds_bind, upholds_machine]
  by_cases hstate : t.machine.state = .error
  · simp only [hstate, ne_eq, not_true_eq_false, ↓reduceIte, upholds_bind, upholds_modifyMachine,
      upholds_conclude, upholds_pure, Invariant.At, he.session_eq_none (Or.inr hstate)]
    exact Grounded.conclude h .error .done
  · simp only [ne_eq, hstate, not_false_eq_true, ↓reduceIte, upholds_bind, upholds_throw]
    exact h

theorem showErrorScreen_grounded (upper lower : String) (h : Invariant.At Grounded t) :
    (do showErrorScreen upper lower; return .redraw :
      Operation Engine (Recorded σ) Output).Upholds t fun _ t' => Invariant.At Grounded t' := by
  simp only [showErrorScreen, upholds_bind, upholds_modifyMachine, upholds_pure]
  exact Grounded.error h

theorem orNothing_grounded {causes : List Error} {op : Operation Engine (Recorded σ) Output}
    (h : op.Upholds t fun _ t' => Invariant.At Grounded t') :
    (orNothing causes op).Upholds t fun _ t' => Invariant.At Grounded t' := by
  simp only [orNothing, upholds_bind, upholds_attempt]
  refine h.mono fun r t' hr => ?_
  cases r with
  | ok out => exact upholds_pure.2 hr
  | error cause =>
    simp only
    split
    · exact upholds_pure.2 hr
    · exact upholds_throw.2 hr

theorem select_grounded (he : Sound C t.machine) (h : Invariant.At Grounded t) :
    (select p.recorded).Upholds t fun _ t' => Invariant.At Grounded t' := by
  rw [select, Loader.select, upholds_bind]
  refine upholds_machine.2 ?_
  cases hpos : t.machine.position with
  | intro screen =>
    cases screen with
    | shortcut =>
      simp only [hpos]
      exact skipToApprove_grounded he h
    | _ =>
      simp only [hpos, upholds_pure]
      exact h
  | interstitial =>
    simp only [hpos]
    exact skipToApprove_grounded he h
  | approve =>
    simp only [hpos]
    exact approve_grounded p h
  | reject =>
    simp only [hpos]
    exact reject_grounded p h
  | item =>
    simp only [hpos]
    exact orNothing_grounded (enterInspect_grounded he h)
  | goToRoot =>
    simp only [hpos]
    exact exitToRoot_grounded he h
  | back =>
    simp only [hpos]
    exact exitLevel_grounded he h
  | child =>
    simp only [hpos]
    exact orNothing_grounded (descend_grounded he h)
  | idle =>
    simp only [hpos, upholds_pure]
    exact h
  | error =>
    simp only [hpos, upholds_pure]
    exact h

theorem update_grounded (he : Sound C t.machine) (h : Invariant.At Grounded t) (event : Event) :
    (update p.recorded event).Upholds t fun _ t' => Invariant.At Grounded t' := by
  simp only [update, Loader.update, upholds_bind, upholds_machine, upholds_note]
  split
  · exact upholds_pure.2 h
  · exact begin_grounded h
  · exact acknowledge_grounded p he h
  · exact acknowledge_grounded p he h
  · exact upholds_throw.2 h
  · exact upholds_throw.2 h
  · exact upholds_throw.2 h
  · exact upholds_throw.2 h
  · exact advance_grounded he h
  · exact retreat_grounded he h
  · exact select_grounded he h
  · exact approve_grounded p h
  · exact reject_grounded p h
  · exact skipToApprove_grounded he h
  · exact exitToRoot_grounded he h
  · exact exitLevel_grounded he h
  · exact upholds_throw.2 h

theorem press_grounded (he : Sound C t.machine) (h : Invariant.At Grounded t) (button : Button) :
    (button.press p.recorded).Upholds t fun _ t' => Invariant.At Grounded t' := by
  simp only [Button.press, Button.pressWith, upholds_bind, upholds_machine, upholds_attempt]
  refine (update_grounded he h (button.event t.machine.position)).mono fun r t' hr => ?_
  cases r with
  | error cause =>
    simp only [upholds_bind, upholds_machine, upholds_pure]
    exact hr
  | ok out =>
    cases out
    all_goals exact upholds_pure.2 hr

/-- Every action puts only questions that have their grounds. -/
theorem perform_grounded (he : Sound C t.machine) (h : Invariant.At Grounded t) (action : Action) :
    (action.perform p.recorded).Upholds t fun _ t' => Invariant.At Grounded t' := by
  cases action with
  | begin => exact upholds_map.2 (begin_grounded h)
  | take event => exact upholds_map.2 (update_grounded he h event)
  | press button => exact upholds_map.2 (press_grounded he h button)
  | advance => exact upholds_map.2 (advance_grounded he h)
  | retreat => exact upholds_map.2 (retreat_grounded he h)
  | skipToApprove => exact upholds_map.2 (skipToApprove_grounded he h)
  | approve => exact upholds_map.2 (approve_grounded p h)
  | reject => exact upholds_map.2 (reject_grounded p h)
  | enterInspect => exact upholds_map.2 (enterInspect_grounded he h)
  | canDescend => exact upholds_map.2 (canDescend_grounded he h)
  | descend => exact upholds_map.2 (descend_grounded he h)
  | exitLevel => exact upholds_map.2 (exitLevel_grounded he h)
  | exitToRoot => exact upholds_map.2 (exitToRoot_grounded he h)
  | acknowledge => exact upholds_map.2 (acknowledge_grounded p he h)
  | showError => exact upholds_map.2 (showErrorScreen_grounded _ _ h)
  | showBlindSignError => exact upholds_map.2 (showErrorScreen_grounded _ _ h)
  | showCustomError upper lower => exact upholds_map.2 (showErrorScreen_grounded upper lower h)
  | setModes modes =>
    simp only [Action.perform, Loader.perform, setModes, upholds_bind, upholds_modifyMachine,
      upholds_pure]
    exact h

theorem RecordedRun.grounded {steps : List Step} (h : RecordedRun p config steps t) :
    Invariant.At Grounded t := by
  induction h with
  | start content =>
    refine ⟨founded_nil, fun _ count hcounted => ?_, fun s hs => by cases hs⟩
    obtain ⟨later, earlier, hlog, -⟩ := hcounted
    simp at hlog
  | act action hrun hact ih =>
    have he := hrun.run.sound (Contract.honours_any p.recorded config) trivial
    exact perform_grounded he ih action _ _ hact
  | meddle content _ ih => exact ih

/-- Whatever a provider answers, it is asked only what its answers before give grounds for. A page
is asked for of an item or child that there is by the latest count, and a path is gone down by leave
of the provider for each of its levels, and no deeper than there are levels. The review under way
goes by the count that it began with, and what it inspects lies at the end of a path with leave. -/
theorem founded_of_run {steps : List Step} (h : RecordedRun p config steps t) :
    Founded t.content.exchanges ∧
      (∀ s, t.machine.session = some s → Counted t.content.exchanges s.itemCount) ∧
      ∀ s i, t.machine.Inspects s i → Granted t.content.exchanges i.chain := by
  have hgrounded := h.grounded
  refine ⟨hgrounded.founded, fun s hs => ?_, fun s i hi => ?_⟩
  · obtain ⟨path, htalks⟩ := hgrounded.talks s hs
    exact htalks.counted
  · obtain ⟨path, htalks⟩ := hgrounded.talks s hi.session
    have hchain := (htalks.session s hi.session).chain i hi.inspection
    rw [hchain]
    exact htalks.granted (hchain ▸ i.chain_ne_nil)

theorem founded_of_run_inspecting : ∃ steps t, RecordedRun Fixture.provider .stax steps t ∧
    t.content.queries =
      [.itemCount, .item 0 0, .canInspect [] 0, .childCount [0], .child [0] 0 0] ∧
    Founded t.content.exchanges ∧
    ∃ s i, t.machine.Inspects s i ∧ Granted t.content.exchanges i.chain := by
  have h : ∃ steps t, RecordedRun Fixture.provider .stax steps t ∧
      t.content.queries =
        [.itemCount, .item 0 0, .canInspect [] 0, .childCount [0], .child [0] 0 0] ∧
      ∃ s i, t.machine.Inspects s i :=
    ⟨_, _, .act .enterInspect (.act (.begin .transaction false none)
      (.start { items := [Fixture.chain 1] }) rfl) rfl, rfl, _, _, rfl, rfl, rfl⟩
  obtain ⟨steps, t, hrun, hqueries, s, i, hi⟩ := h
  obtain ⟨hfounded, -, hgranted⟩ := founded_of_run hrun
  exact ⟨steps, t, hrun, hqueries, hfounded, s, i, hi, hgranted s i hi⟩

end Engine
end WalletReview
