import WalletReview.Proofs.Decisions

/-! Reviews in front of two providers that answer alike, on two engines that are the same but for
the mode flags. As long as the states of the providers are related, every operation that does not
begin a review comes to the same result on both sides, leaves engines that are again the same but
for the mode flags, and leaves states that are related again. With the same mode flags a review
begins alike as well. -/
namespace WalletReview

variable {σ τ α β μ : Type}

def SameReply (R : σ → τ → Prop) (x : α × σ) (y : α × τ) : Prop := x.1 = y.1 ∧ R x.2 y.2

def SameWriting (R : σ → τ → Prop) (x : α × Field × σ) (y : α × Field × τ) : Prop :=
  x.1 = y.1 ∧ SameReply R x.2 y.2

/-- In related states two providers answer every question alike, and stay related. -/
structure Provider.Matches (R : σ → τ → Prop) (p : Provider σ) (q : Provider τ) : Prop where
  itemCount : ∀ a b, R a b → SameReply R (p.itemCount a) (q.itemCount b)
  item : ∀ index page f a b, R a b → SameWriting R (p.item index page f a) (q.item index page f b)
  title : ∀ f a b, R a b → SameWriting R (p.title f a) (q.title f b)
  childCount : ∀ path a b, R a b → SameReply R (p.childCount path a) (q.childCount path b)
  child : ∀ path child page f a b, R a b →
    SameWriting R (p.child path child page f a) (q.child path child page f b)
  canInspect : ∀ path child a b, R a b →
    SameReply R (p.canInspect path child a) (q.canInspect path child b)
  conclude : ∀ outcome a b, R a b → R (p.conclude outcome a) (q.conclude outcome b)

theorem Provider.Matches.flip {R : σ → τ → Prop} {p : Provider σ} {q : Provider τ}
    (h : p.Matches R q) : q.Matches (fun b a => R a b) p where
  itemCount b a hab := ⟨(h.itemCount a b hab).1.symm, (h.itemCount a b hab).2⟩
  item index page f b a hab :=
    let ⟨hreply, hfield, hstate⟩ := h.item index page f a b hab
    ⟨hreply.symm, hfield.symm, hstate⟩
  title f b a hab :=
    let ⟨hreply, hfield, hstate⟩ := h.title f a b hab
    ⟨hreply.symm, hfield.symm, hstate⟩
  childCount path b a hab := ⟨(h.childCount path a b hab).1.symm, (h.childCount path a b hab).2⟩
  child path child page f b a hab :=
    let ⟨hreply, hfield, hstate⟩ := h.child path child page f a b hab
    ⟨hreply.symm, hfield.symm, hstate⟩
  canInspect path child b a hab :=
    ⟨(h.canInspect path child a b hab).1.symm, (h.canInspect path child a b hab).2⟩
  conclude outcome b a hab := h.conclude outcome a b hab

/-- The same machine in front of related states. -/
structure Sitting.Alike (R : σ → τ → Prop) (s : Sitting μ σ) (t : Sitting μ τ) : Prop where
  machine : s.machine = t.machine
  content : R s.content t.content

theorem Sitting.Alike.flip {R : σ → τ → Prop} {s : Sitting μ σ} {t : Sitting μ τ}
    (h : s.Alike R t) : t.Alike (fun b a => R a b) s :=
  ⟨h.machine.symm, h.content⟩

/-- Engines that are the same but for the mode flags, which are related as well, in front of related
states. -/
structure Sitting.Resembles (N : Modes → Modes → Prop) (R : σ → τ → Prop) (s : Sitting Engine σ)
    (t : Sitting Engine τ) : Prop where
  machine : t.machine = { s.machine with modes := t.machine.modes }
  modes : N s.machine.modes t.machine.modes
  content : R s.content t.content

theorem Sitting.resembles_eq_iff {R : σ → τ → Prop} {s : Sitting Engine σ} {t : Sitting Engine τ} :
    s.Resembles Eq R t ↔ s.Alike R t := by
  constructor
  · rintro ⟨hmachine, hmodes, hcontent⟩
    rw [← hmodes] at hmachine
    exact ⟨hmachine.symm, hcontent⟩
  · rintro ⟨hmachine, hcontent⟩
    exact ⟨by rw [← hmachine], by rw [hmachine], hcontent⟩

namespace Operation

/-- From alike sittings, the second operation comes to each result of the first one. -/
def Mirrors (R : σ → τ → Prop) (op : Operation μ σ α) (op' : Operation μ τ α) : Prop :=
  ∀ s t, s.Alike R t → ∀ r s', op s = .ok (r, s') →
    ∃ t', op' t = .ok (r, t') ∧ Sitting.Alike R s' t'

variable {N : Modes → Modes → Prop} {R : σ → τ → Prop} {op : Operation Engine σ α}
  {op' : Operation Engine τ α}

/-- From sittings that resemble each other, the second operation comes to each result of the first
one. -/
def Follows (N : Modes → Modes → Prop) (R : σ → τ → Prop) (op : Operation Engine σ α)
    (op' : Operation Engine τ α) : Prop :=
  ∀ s t, s.Resembles N R t → ∀ r s', op s = .ok (r, s') →
    ∃ t', op' t = .ok (r, t') ∧ Sitting.Resembles N R s' t'

theorem Follows.mirrors (h : Follows Eq R op op') : Mirrors R op op' := by
  intro s t hst r s' hs
  obtain ⟨t', ht, hst'⟩ := h s t (Sitting.resembles_eq_iff.2 hst) r s' hs
  exact ⟨t', ht, Sitting.resembles_eq_iff.1 hst'⟩

theorem Follows.of_step (r : Sitting Engine σ → Except Error α)
    (g : Sitting Engine σ → Sitting Engine σ) (hop : ∀ s, op s = .ok (r s, g s))
    (hop' : ∀ s t, s.Resembles N R t →
      ∃ t', op' t = .ok (r s, t') ∧ (g s).Resembles N R t') :
    Follows N R op op' := by
  intro s t h r' s' hs
  rw [hop] at hs
  cases hs
  exact hop' s t h

theorem follows_pure (a : α) : Follows N R (pure a : Operation Engine σ α) (pure a) :=
  .of_step (fun _ => .ok a) id (fun _ => rfl) fun _ t h => ⟨t, rfl, h⟩

theorem follows_throw (cause : Error) :
    Follows N R (throw cause : Operation Engine σ α) (throw cause) :=
  .of_step (fun _ => .error cause) id (fun _ => rfl) fun _ t h => ⟨t, rfl, h⟩

theorem Follows.bind {f : α → Operation Engine σ β} {f' : α → Operation Engine τ β}
    (h : Follows N R op op') (hf : ∀ a, Follows N R (f a) (f' a)) :
    Follows N R (op >>= f) (op' >>= f') := by
  intro s t hst r s' hs
  rcases bind_eq_ok_iff.1 hs with ⟨a, s₁, hop, hrest⟩ | ⟨cause, hop, rfl⟩
  · obtain ⟨t₁, hop', h₁⟩ := h s t hst _ s₁ hop
    obtain ⟨t', hrest', h'⟩ := hf a s₁ t₁ h₁ r s' hrest
    exact ⟨t', bind_eq_ok_iff.2 (Or.inl ⟨a, t₁, hop', hrest'⟩), h'⟩
  · obtain ⟨t', hop', h'⟩ := h s t hst _ s' hop
    exact ⟨t', bind_eq_ok_iff.2 (Or.inr ⟨cause, hop', rfl⟩), h'⟩

theorem Follows.seq {next : Operation Engine σ β} {next' : Operation Engine τ β}
    (h : Follows N R op op') (hnext : Follows N R next next') :
    Follows N R (do let _ ← op; next) (do let _ ← op'; next') :=
  h.bind fun _ => hnext

theorem Follows.loop {round : Operation Engine σ (Option α)}
    {round' : Operation Engine τ (Option α)} (h : Follows N R round round')
    (hafter : Follows N R op op') (rounds : Nat) :
    Follows N R (Operation.loop round op rounds) (Operation.loop round' op' rounds) := by
  induction rounds with
  | zero => exact hafter
  | succ rounds ih =>
    apply h.bind
    rintro (_ | a)
    · exact ih
    · exact follows_pure a

theorem Follows.ite {cond : Prop} [Decidable cond] {other : Operation Engine σ α}
    {other' : Operation Engine τ α} (h : Follows N R op op') (hother : Follows N R other other') :
    Follows N R (if cond then op else other) (if cond then op' else other') := by
  by_cases hcond : cond
  · rwa [if_pos hcond, if_pos hcond]
  · rwa [if_neg hcond, if_neg hcond]

theorem Follows.unless {cond : Prop} [Decidable cond] {cause : Error} (h : Follows N R op op') :
    Follows N R (if cond then (do let _ : Unit ← throw cause; op) else op)
      (if cond then (do let _ : Unit ← throw cause; op') else op') :=
  .ite ((follows_throw cause).seq h) h

theorem Follows.map (g : α → β) (h : Follows N R op op') : Follows N R (g <$> op) (g <$> op') := by
  rw [map_eq_pure_bind, map_eq_pure_bind]
  exact h.bind fun a => follows_pure (g a)

theorem Follows.attempt (h : Follows N R op op') : Follows N R op.attempt op'.attempt := by
  intro s t hst r s' hs
  have hattempt : op.attempt s = (op s >>= fun x => .ok (.ok x.1, x.2)) := rfl
  rw [hattempt] at hs
  cases hop : op s with
  | error fault =>
    rw [hop] at hs
    cases hs
  | ok result =>
    obtain ⟨reply, s₁⟩ := result
    rw [hop] at hs
    cases hs
    obtain ⟨t', hop', h'⟩ := h s t hst reply s₁ hop
    refine ⟨t', ?_, h'⟩
    have hattempt' : op'.attempt t = (op' t >>= fun x => .ok (.ok x.1, x.2)) := rfl
    rw [hattempt', hop']
    rfl

theorem follows_machine_bind {f : Engine → Operation Engine σ α}
    {f' : Engine → Operation Engine τ α}
    (h : ∀ e modes, N e.modes modes → Follows N R (f e) (f' { e with modes })) :
    Follows N R (machine >>= f) (machine >>= f') := by
  intro s t hst r s' hs
  obtain ⟨t', ht, hst'⟩ := h s.machine t.machine.modes hst.modes s t hst r s' hs
  rw [← hst.machine] at ht
  exact ⟨t', ht, hst'⟩

theorem follows_modifyMachine (f : Engine → Engine)
    (hf : ∀ e modes, f { e with modes } = { f e with modes }) :
    Follows N R (modifyMachine f : Operation Engine σ Unit) (modifyMachine f) := by
  have hmodes (e : Engine) : (f e).modes = e.modes := congrArg (·.modes) (hf e e.modes)
  refine .of_step (fun _ => .ok ()) (fun s => { s with machine := f s.machine }) (fun _ => rfl)
    fun s t h => ⟨{ t with machine := f t.machine }, rfl, ?_, ?_, h.content⟩
  · change f t.machine = { f s.machine with modes := (f t.machine).modes }
    rw [hmodes, ← hf, ← h.machine]
  · change N (f s.machine).modes (f t.machine).modes
    rw [hmodes, hmodes]
    exact h.modes

theorem follows_note (notice : Notice) :
    Follows N R (note notice : Operation Engine σ Unit) (note notice) :=
  .of_step (fun _ => .ok ()) (fun s => { s with journal := notice :: s.journal }) (fun _ => rfl)
    fun _ t h => ⟨{ t with journal := notice :: t.journal }, rfl, h.machine, h.modes, h.content⟩

theorem follows_settle (reply : Except Error α) :
    Follows N R (settle reply : Operation Engine σ α) (settle reply) := by
  cases reply with
  | ok a => exact follows_pure a
  | error cause => exact follows_throw cause

theorem follows_liftM (x : Checked α) :
    Follows N R (liftM x : Operation Engine σ α) (liftM x : Operation Engine τ α) := by
  cases x with
  | ok a => exact follows_pure a
  | error fault =>
    intro s t h r s' hs
    cases hs

theorem follows_ask {question : σ → α × σ} {question' : τ → α × τ}
    (h : ∀ a b, R a b → SameReply R (question a) (question' b)) :
    Follows N R (ask question : Operation Engine σ α) (ask question') :=
  .of_step (fun s => .ok (question s.content).1)
    (fun s => { s with content := (question s.content).2 }) (fun _ => rfl) fun s t hst => by
      obtain ⟨hreply, hstate⟩ := h _ _ hst.content
      refine ⟨{ t with content := (question' t.content).2 }, ?_, hst.machine, hst.modes, hstate⟩
      rw [hreply]
      rfl

theorem follows_conclude {p : Provider σ} {q : Provider τ} (h : p.Matches R q)
    (outcome : Outcome) :
    Follows N R (conclude p outcome : Operation Engine σ Unit) (conclude q outcome) :=
  .of_step (fun _ => .ok ())
    (fun s => { s with
      content := p.conclude outcome s.content
      journal := (p.remarks outcome).reverse ++ s.journal }) (fun _ => rfl)
    fun _ _ hst => ⟨_, rfl, hst.machine, hst.modes, h.conclude outcome _ _ hst.content⟩

end Operation

namespace Engine

open Operation

variable {N : Modes → Modes → Prop} {R : σ → τ → Prop} {op : Operation Engine σ α}
  {op' : Operation Engine τ α} {p : Provider σ} {q : Provider τ} {dir : Direction}

theorem follows_getSession : Follows N R (getSession : Operation Engine σ Session) getSession := by
  refine follows_machine_bind fun e modes _ => ?_
  cases e.session with
  | none => apply follows_throw
  | some s => apply follows_pure

theorem follows_getInspection :
    Follows N R (getInspection : Operation Engine σ Inspection) getInspection := by
  apply follows_getSession.bind
  intro s
  cases s.inspection with
  | none => apply follows_throw
  | some i => apply follows_pure

theorem follows_setSession (s : Session) :
    Follows N R (setSession s : Operation Engine σ Unit) (setSession s) :=
  follows_modifyMachine _ fun _ _ => rfl

theorem follows_setInspection (i : Inspection) :
    Follows N R (setInspection i : Operation Engine σ Unit) (setInspection i) :=
  follows_modifyMachine _ fun _ _ => rfl

theorem follows_setState (state : State) :
    Follows N R (setState state : Operation Engine σ Unit) (setState state) :=
  follows_modifyMachine _ fun _ _ => rfl

theorem follows_modifyField (f : Field → Field) :
    Follows N R (modifyField f : Operation Engine σ Unit) (modifyField f) :=
  follows_modifyMachine _ fun _ _ => rfl

theorem follows_setText (text : String × String) :
    Follows N R (setText text : Operation Engine σ Unit) (setText text) :=
  follows_modifyField _

theorem follows_askField {question : Field → σ → Except Error α × Field × σ}
    {question' : Field → τ → Except Error α × Field × τ}
    (h : ∀ f a b, R a b → SameWriting R (question f a) (question' f b)) :
    Follows N R (askField question) (askField question') := by
  refine follows_machine_bind fun e modes _ => ?_
  have hask : Follows N R
      (Operation.askField (question e.field) : Operation Engine σ (Except Error α × Field))
      (Operation.askField (question' e.field)) :=
    follows_ask fun a b hab => by
      obtain ⟨hreply, hfield, hstate⟩ := h e.field a b hab
      exact ⟨Prod.ext hreply hfield, hstate⟩
  apply hask.bind
  intro answer
  exact (follows_modifyField _).seq (follows_settle _)

theorem follows_showErrorScreen (upper lower : String) :
    Follows N R (showErrorScreen upper lower : Operation Engine σ Unit)
      (showErrorScreen upper lower) :=
  follows_modifyMachine _ fun _ _ => rfl

theorem follows_setModes {modes : Modes} (hmodes : N modes modes) :
    Follows N R (setModes modes : Operation Engine σ Unit) (setModes modes) :=
  .of_step (fun _ => .ok ()) (fun s => { s with machine := { s.machine with modes } })
    (fun _ => rfl) fun _ t h => by
      refine ⟨{ t with machine := { t.machine with modes } }, rfl, ?_, hmodes, h.content⟩
      rw [h.machine]

theorem follows_fail (cause : Error) :
    Follows N R (fail cause : Operation Engine σ α) (fail cause) :=
  (follows_note _).seq ((follows_showErrorScreen _ _).seq (follows_throw cause))

theorem follows_loading {body : Operation Engine σ Bool} {body' : Operation Engine τ Bool}
    (h : Follows N R body body') : Follows N R (loading body) (loading body') := by
  apply h.attempt.bind
  intro reply
  cases reply with
  | ok found => exact (follows_modifyField _).seq (follows_pure found)
  | error cause => apply follows_fail

theorem follows_loadPage {cursor : Cursor} {pages : UInt8}
    {setCursor : Cursor → Operation Engine σ Unit} {setCursor' : Cursor → Operation Engine τ Unit}
    {query : UInt8 → Operation Engine σ UInt8} {query' : UInt8 → Operation Engine τ UInt8}
    (hset : ∀ c, Follows N R (setCursor c) (setCursor' c))
    (hquery : ∀ page, Follows N R (query page) (query' page)) :
    Follows N R (loadPage cursor pages setCursor query)
      (loadPage cursor pages setCursor' query') := by
  unfold loadPage
  generalize cursor.clamp pages = clamped
  obtain ⟨c, beyond⟩ := clamped
  apply (hset c).seq
  refine follows_machine_bind fun e modes _ => ?_
  apply Follows.ite
  · apply (follows_modifyField _).seq
    apply (hquery _).bind
    intro last
    apply Follows.unless
    exact (hset _).seq (follows_modifyField _)
  · apply follows_modifyField

theorem follows_offerSkip (s : Session) :
    Follows N R (offerSkip s : Operation Engine σ Output) (offerSkip s) :=
  (follows_note _).seq ((follows_setState _).seq ((follows_modifyField _).seq (follows_pure _)))

theorem follows_orNothing {op : Operation Engine σ Output} {op' : Operation Engine τ Output}
    (causes : List Error) (h : Follows N R op op') :
    Follows N R (orNothing causes op) (orNothing causes op') := by
  apply h.attempt.bind
  intro reply
  cases reply with
  | ok out => apply follows_pure
  | error cause => exact .ite (follows_pure _) (follows_throw _)

section

variable (h : p.Matches R q)

include h

theorem follows_loadProviderTitle : Follows N R (loadProviderTitle p) (loadProviderTitle q) := by
  apply (follows_askField h.title).attempt.bind
  intro reply
  cases reply with
  | ok => apply follows_pure
  | error cause =>
    cases cause with
    | noData => exact (follows_modifyField _).seq (follows_pure _)
    | _ => apply follows_throw

theorem follows_loadIntro (s : Session) (screen : IntroScreen) :
    Follows N R (loadIntro p s screen) (loadIntro q s screen) := by
  simp only [loadIntro]
  apply Follows.ite
  · apply Follows.ite
    · exact (follows_setText _).seq (follows_pure _)
    · apply Follows.ite
      · apply (follows_loadProviderTitle h).bind
        intro found
        exact .ite (follows_pure _) (follows_setText _)
      · apply follows_setText
  · apply follows_setText

theorem follows_topRound : Follows N R (topRound p dir) (topRound q dir) := by
  apply follows_getSession.bind
  intro s
  apply (follows_modifyField _).seq
  cases s.introScreen? with
  | some screen =>
    exact (follows_loadIntro h s screen).seq ((follows_setSession _).seq (follows_pure _))
  | none =>
    have hdecision : Follows N R (do
        setText (terminalText s (← Operation.machine).config)
        setSession { s with cursor := (s.cursor.clamp 1).1 }
        return some true : Operation Engine σ (Option Bool)) (do
        setText (terminalText s (← Operation.machine).config)
        setSession { s with cursor := (s.cursor.clamp 1).1 }
        return some true : Operation Engine τ (Option Bool)) :=
      follows_machine_bind fun _ _ _ => (follows_setText _).seq
        ((follows_setSession _).seq (follows_pure _))
    apply Follows.ite
    · exact .ite ((follows_setState _).seq hdecision) hdecision
    · apply (follows_liftM _).bind
      intro index
      apply (follows_askField (h.item index s.cursor.page)).bind
      intro pages
      apply Follows.ite
      · apply (follows_note _).seq
        cases dir with
        | forward =>
          apply (follows_liftM _).bind
          intro item
          exact (follows_setSession _).seq (follows_pure _)
        | backward =>
          simp only
          split
          · exact (follows_setSession _).seq (follows_pure _)
          · apply follows_pure
      · have hpage : Follows N R (loadPage s.cursor pages
            (fun cursor => setSession { s with cursor }) (fun page => askField (p.item index page)))
            (loadPage s.cursor pages
            (fun cursor => setSession { s with cursor })
            (fun page => askField (q.item index page))) :=
          follows_loadPage (fun _ => follows_setSession _) fun page =>
            follows_askField (h.item index page)
        exact hpage.seq (follows_pure _)

theorem follows_load : Follows N R (load p dir) (load q dir) := by
  apply follows_loading
  apply follows_getSession.bind
  intro s
  exact (follows_topRound h).loop (follows_throw _) _

theorem follows_childRound : Follows N R (childRound p dir) (childRound q dir) := by
  apply follows_getInspection.bind
  intro i
  apply (follows_modifyField _).seq
  apply Follows.ite
  · exact (follows_modifyField _).seq ((follows_setInspection _).seq (follows_pure _))
  · cases i.childIndex with
    | none => exact (follows_setInspection _).seq (follows_pure _)
    | some child =>
      apply (follows_liftM _).bind
      intro path
      apply (follows_askField (h.child path child i.cursor.page)).bind
      intro pages
      apply Follows.ite
      · cases dir with
        | forward =>
          apply Follows.ite
          · apply (follows_liftM _).bind
            intro item
            exact (follows_setInspection _).seq (follows_pure _)
          · apply follows_pure
        | backward =>
          simp only
          split
          · exact (follows_setInspection _).seq (follows_pure _)
          · apply follows_pure
      · have hpage : Follows N R (loadPage i.cursor pages
            (fun cursor => setInspection { i with cursor })
            (fun page => askField (p.child path child page)))
            (loadPage i.cursor pages
            (fun cursor => setInspection { i with cursor })
            (fun page => askField (q.child path child page))) :=
          follows_loadPage (fun _ => follows_setInspection _) fun page =>
            follows_askField (h.child path child page)
        exact hpage.seq (follows_pure _)

theorem follows_loadChild : Follows N R (loadChild p dir) (loadChild q dir) := by
  apply follows_loading
  apply follows_getInspection.bind
  intro i
  apply (follows_liftM _).bind
  intro path
  apply (follows_ask (h.childCount path)).bind
  intro reply
  apply (follows_settle reply).bind
  intro count
  exact (follows_setInspection _).seq ((follows_childRound h).loop (follows_throw _) _)

theorem follows_enterInspect : Follows N R (enterInspect p) (enterInspect q) := by
  refine follows_machine_bind fun e modes _ => ?_
  apply Follows.unless
  apply follows_getSession.bind
  intro s
  cases s.itemIndex? with
  | none => apply follows_throw
  | some index =>
    apply (follows_ask (h.canInspect [] index)).bind
    intro allowed
    apply Follows.ite
    · exact (follows_note _).seq ((follows_setInspection _).seq ((follows_setState _).seq
        ((follows_loadChild h).seq (follows_pure _))))
    · apply follows_throw

theorem follows_canDescend : Follows N R (canDescend p) (canDescend q) := by
  refine follows_machine_bind fun e modes _ => ?_
  cases e.session.bind (·.inspection) with
  | none => apply follows_pure
  | some i =>
    simp only
    cases i.childIndex with
    | none => apply follows_pure
    | some child =>
      unfold Inspection.canDescend
      apply Follows.ite
      · apply follows_pure
      · apply (follows_liftM _).bind
        intro path
        exact follows_ask (h.canInspect path child)

theorem follows_descendInto (i : Inspection) (child : UInt8) :
    Follows N R (i.descend p child : Operation Engine σ Inspection) (i.descend q child) := by
  apply Follows.unless
  apply (follows_liftM _).bind
  intro path
  apply (follows_ask (h.canInspect path child)).bind
  intro allowed
  exact .ite (follows_liftM _) (follows_throw _)

theorem follows_descend : Follows N R (descend p) (descend q) := by
  refine follows_machine_bind fun e modes _ => ?_
  apply Follows.unless
  apply follows_getInspection.bind
  intro i
  cases i.childIndex with
  | none => apply follows_throw
  | some child =>
    apply (follows_descendInto h i child).bind
    intro j
    apply (follows_setInspection _).seq
    apply (follows_liftM _).bind
    intro path
    exact (follows_note _).seq ((follows_loadChild h).seq (follows_pure _))

theorem follows_exitToRoot : Follows N R (exitToRoot p) (exitToRoot q) := by
  refine follows_machine_bind fun e modes _ => ?_
  apply Follows.unless
  apply follows_getSession.bind
  intro s
  apply follows_getInspection.bind
  intro i
  apply (follows_note _).seq
  apply (follows_liftM _).bind
  intro item
  exact (follows_setSession _).seq ((follows_setState _).seq
    ((follows_load h).seq (follows_pure _)))

theorem follows_exitLevel : Follows N R (exitLevel p) (exitLevel q) := by
  refine follows_machine_bind fun e modes _ => ?_
  apply Follows.unless
  apply follows_getInspection.bind
  intro i
  apply (follows_liftM _).bind
  intro above
  cases above with
  | none => exact follows_exitToRoot h
  | some j =>
    apply (follows_setInspection _).seq
    apply (follows_liftM _).bind
    intro path
    exact (follows_note _).seq ((follows_loadChild h).seq (follows_pure _))

theorem follows_inspectStep : Follows N R (inspectStep p dir) (inspectStep q dir) := by
  apply follows_getInspection.bind
  intro i
  apply (follows_liftM _).bind
  intro next
  cases next with
  | none => apply follows_pure
  | some cursor =>
    apply (follows_setInspection _).seq
    apply (follows_loadChild h).bind
    intro found
    apply Follows.ite
    · apply follows_pure
    · apply follows_getInspection.bind
      intro j
      exact (follows_setInspection _).seq ((follows_loadChild h).seq (follows_pure _))

theorem follows_step : Follows N R (step p dir) (step q dir) := by
  apply follows_getSession.bind
  intro s
  apply (follows_liftM _).bind
  intro next
  cases next with
  | none => apply follows_pure
  | some cursor =>
    apply (follows_setSession _).seq
    apply (follows_load h).bind
    intro found
    apply Follows.ite
    · apply follows_pure
    · apply follows_getSession.bind
      intro s'
      exact (follows_setSession _).seq ((follows_load h).seq (follows_pure _))

theorem follows_advanceReview : Follows N R (advanceReview p) (advanceReview q) := by
  apply follows_getSession.bind
  intro s
  refine follows_machine_bind fun e modes _ => ?_
  apply (follows_liftM _).bind
  intro skips
  apply Follows.ite
  · apply follows_offerSkip
  · apply Follows.ite
    · exact (follows_setSession _).seq ((follows_load h).seq (follows_pure _))
    · exact follows_step h

theorem follows_advance : Follows N R (advance p) (advance q) := by
  refine follows_machine_bind fun e modes _ => ?_
  cases e.state with
  | review => exact follows_advanceReview h
  | interstitial => exact (follows_setState _).seq (follows_step h)
  | inspect => exact follows_inspectStep h
  | confirm => apply follows_pure
  | _ => apply follows_throw

theorem follows_retreat : Follows N R (retreat p) (retreat q) := by
  refine follows_machine_bind fun e modes _ => ?_
  cases e.state with
  | review => exact follows_step h
  | interstitial => exact (follows_setState _).seq ((follows_load h).seq (follows_pure _))
  | inspect => exact follows_inspectStep h
  | confirm =>
    apply (follows_setState _).seq
    apply (follows_step h).bind
    intro output
    apply follows_getSession.bind
    intro s
    exact .ite ((follows_setState _).seq (follows_pure _)) (follows_pure _)
  | _ => apply follows_throw

theorem follows_skipToApprove : Follows N R (skipToApprove p) (skipToApprove q) := by
  refine follows_machine_bind fun e modes _ => ?_
  apply follows_getSession.bind
  intro s
  apply Follows.unless
  exact (follows_note _).seq ((follows_setSession _).seq ((follows_setState _).seq
    ((follows_load h).seq (follows_pure _))))

theorem follows_begin (hN : ∀ a b, N a b → a = b) (kind : Kind) (confirmation : Bool)
    (intent : Option String) :
    Follows N R (begin p kind confirmation intent) (begin q kind confirmation intent) := by
  refine follows_machine_bind fun e modes hmodes => ?_
  cases hN _ _ hmodes
  apply (follows_note _).seq
  apply Follows.unless
  apply (follows_modifyField _).seq
  apply (follows_ask h.itemCount).bind
  intro reply
  cases reply with
  | error cause => apply follows_fail
  | ok count =>
    apply Follows.ite
    · apply follows_fail
    · exact (follows_setSession _).seq ((follows_setState _).seq
        ((follows_load h).seq (follows_pure _)))

theorem follows_finish (approved : Bool) : Follows N R (finish p approved) (finish q approved) := by
  apply (follows_note _).seq
  apply (follows_modifyMachine _ fun _ _ => rfl).seq
  exact .ite ((follows_conclude h _).seq (follows_pure _))
    ((follows_conclude h _).seq (follows_pure _))

theorem follows_approve : Follows N R (approve p) (approve q) := by
  refine follows_machine_bind fun e modes _ => ?_
  exact .ite (follows_finish h true) (follows_throw _)

theorem follows_reject : Follows N R (reject p) (reject q) := by
  refine follows_machine_bind fun e modes _ => ?_
  cases e.state with
  | idle => apply follows_throw
  | error => apply follows_throw
  | _ => exact follows_finish h false

theorem follows_acknowledge : Follows N R (acknowledge p) (acknowledge q) := by
  refine follows_machine_bind fun e modes _ => ?_
  apply Follows.unless
  exact (follows_modifyMachine _ fun _ _ => rfl).seq ((follows_conclude h _).seq (follows_pure _))

theorem follows_select : Follows N R (select p) (select q) := by
  refine follows_machine_bind fun e modes _ => ?_
  rw [show ({ e with modes } : Engine).position = e.position from rfl]
  cases e.position with
  | intro screen =>
    cases screen with
    | shortcut => exact follows_skipToApprove h
    | _ => apply follows_pure
  | interstitial => exact follows_skipToApprove h
  | approve => exact follows_approve h
  | reject => exact follows_reject h
  | item => exact follows_orNothing _ (follows_enterInspect h)
  | goToRoot => exact follows_exitToRoot h
  | back => exact follows_exitLevel h
  | child => exact follows_orNothing _ (follows_descend h)
  | _ => apply follows_pure

theorem follows_update (event : Event)
    (hbegins : (Action.take event).begins = true → ∀ a b, N a b → a = b) :
    Follows N R (update p event) (update q event) := by
  refine follows_machine_bind fun e modes _ => ?_
  apply (follows_note _).seq
  cases event with
  | none => cases e.state <;> apply follows_pure
  | begin kind confirmation =>
    cases e.state with
    | idle => exact follows_begin h (hbegins rfl) kind confirmation none
    | _ => apply follows_throw
  | acknowledge =>
    cases e.state with
    | error => exact follows_acknowledge h
    | _ => apply follows_throw
  | select =>
    cases e.state with
    | idle => apply follows_throw
    | error => exact follows_acknowledge h
    | _ => exact follows_select h
  | inspectRoot =>
    cases e.state with
    | inspect => exact follows_exitToRoot h
    | _ => apply follows_throw
  | inspectBack =>
    cases e.state with
    | inspect => exact follows_exitLevel h
    | _ => apply follows_throw
  | next =>
    cases e.state with
    | idle | error => apply follows_throw
    | _ => exact follows_advance h
  | previous =>
    cases e.state with
    | idle | error => apply follows_throw
    | _ => exact follows_retreat h
  | approve =>
    cases e.state with
    | idle | error => apply follows_throw
    | _ => exact follows_approve h
  | reject =>
    cases e.state with
    | idle | error => apply follows_throw
    | _ => exact follows_reject h
  | skipToApprove =>
    cases e.state with
    | idle | error => apply follows_throw
    | _ => exact follows_skipToApprove h

theorem follows_press (button : Button) : Follows N R (button.press p) (button.press q) := by
  refine follows_machine_bind fun e modes _ => ?_
  have hupdate : Follows N R (update p (button.event e.position))
      (update q (button.event e.position)) :=
    follows_update h _ fun hbegins => by cases (begins_event button e.position).symm.trans hbegins
  apply hupdate.attempt.bind
  intro reply
  cases reply with
  | ok out => cases out <;> apply follows_pure
  | error cause => exact follows_machine_bind fun _ _ _ => follows_pure _

/-- An action goes alike in front of both providers, as far as the mode flags do not matter to it.
-/
theorem follows_perform (action : Action)
    (hbegins : action.begins = true → ∀ a b, N a b → a = b)
    (hsets : ∀ modes, action = .setModes modes → N modes modes) :
    Follows N R (action.perform p) (action.perform q) := by
  cases action with
  | begin kind confirmation intent =>
    exact (follows_begin h (hbegins rfl) kind confirmation intent).map _
  | take event => exact (follows_update h event hbegins).map _
  | press button => exact (follows_press h button).map _
  | advance => exact (follows_advance h).map _
  | retreat => exact (follows_retreat h).map _
  | skipToApprove => exact (follows_skipToApprove h).map _
  | approve => exact (follows_approve h).map _
  | reject => exact (follows_reject h).map _
  | enterInspect => exact (follows_enterInspect h).map _
  | canDescend => exact (follows_canDescend h).map _
  | descend => exact (follows_descend h).map _
  | exitLevel => exact (follows_exitLevel h).map _
  | exitToRoot => exact (follows_exitToRoot h).map _
  | acknowledge => exact (follows_acknowledge h).map _
  | setModes modes => exact (follows_setModes (hsets modes rfl)).seq (follows_pure _)
  | _ => exact ((follows_showErrorScreen _ _).seq (follows_pure _)).map _

theorem mirrors_advance : Mirrors R (advance p) (advance q) := (follows_advance h).mirrors

theorem mirrors_begin (kind : Kind) (confirmation : Bool) (intent : Option String) :
    Mirrors R (begin p kind confirmation intent) (begin q kind confirmation intent) :=
  (follows_begin h (fun _ _ => id) kind confirmation intent).mirrors

theorem mirrors_perform (action : Action) : Mirrors R (action.perform p) (action.perform q) :=
  (follows_perform h action (fun _ _ _ => id) fun _ _ => rfl).mirrors

end

end Engine
end WalletReview
