import WalletReview.Engine.Load

/-! What an operation ensures, computed backwards through its steps. `Ensures` is total: it says
that there is a result, be it a refusal, and never a `Fault`. Each step of an operation has a law
below that replaces what is to hold after the step by what has to hold before it. -/
namespace WalletReview

variable {μ σ α β : Type}

namespace Operation

/-- The operation has a result from `s`, and `post` holds of it and of what it leaves behind. -/
def Ensures (op : Operation μ σ α) (s : Sitting μ σ)
    (post : Except Error α → Sitting μ σ → Prop) : Prop :=
  ∃ r s', op s = .ok (r, s') ∧ post r s'

variable {op : Operation μ σ α} {s s' : Sitting μ σ} {r : Except Error α}
  {post post' : Except Error α → Sitting μ σ → Prop}

theorem Ensures.mono (h : op.Ensures s post) (hp : ∀ r s', post r s' → post' r s') :
    op.Ensures s post' := by
  obtain ⟨r, s', hr, hq⟩ := h
  exact ⟨r, s', hr, hp r s' hq⟩

theorem ensures_congr (h : ∀ r s', post r s' ↔ post' r s') :
    op.Ensures s post ↔ op.Ensures s post' :=
  ⟨fun hpost => hpost.mono fun r s' => (h r s').1, fun hpost => hpost.mono fun r s' => (h r s').2⟩

/-- An operation has one result only, so that what it ensures holds of the one it has. -/
theorem Ensures.of_eq (h : op.Ensures s post) (hr : op s = .ok (r, s')) : post r s' := by
  obtain ⟨r', t, ht, hq⟩ := h
  rw [hr] at ht
  cases ht
  exact hq

theorem ensures_iff_of_eq (hr : op s = .ok (r, s')) : op.Ensures s post ↔ post r s' :=
  ⟨fun h => h.of_eq hr, fun h => ⟨r, s', hr, h⟩⟩

instance decidableEnsures [∀ r s', Decidable (post r s')] : Decidable (op.Ensures s post) :=
  match h : op s with
  | .ok (r, s') => decidable_of_iff (post r s') (ensures_iff_of_eq h).symm
  | .error _ => isFalse fun ⟨_, _, hop, _⟩ => nomatch h.symm.trans hop

@[simp] theorem ensures_pure {a : α} : (pure a : Operation μ σ α).Ensures s post ↔ post (.ok a) s :=
  ensures_iff_of_eq rfl

@[simp] theorem ensures_throw {cause : Error} :
    (throw cause : Operation μ σ α).Ensures s post ↔ post (.error cause) s :=
  ensures_iff_of_eq rfl

theorem bind_apply (op : Operation μ σ α) (f : α → Operation μ σ β) (s : Sitting μ σ) :
    (op >>= f) s = (op s >>= fun r => match r.1 with
      | .ok a => f a r.2
      | .error cause => .ok (.error cause, r.2)) := by
  change (op s >>= _) = _
  congr 1
  funext ⟨r, s'⟩
  cases r <;> rfl

@[simp] theorem ensures_bind {f : α → Operation μ σ β}
    {post : Except Error β → Sitting μ σ → Prop} :
    (op >>= f).Ensures s post ↔ op.Ensures s fun r s' =>
      match r with
      | .ok a => (f a).Ensures s' post
      | .error cause => post (.error cause) s' := by
  have hb := bind_apply op f s
  cases h : op s with
  | error fault =>
    rw [h] at hb
    constructor
    · rintro ⟨r, s', hr, -⟩
      rw [hb] at hr
      cases hr
    · rintro ⟨r, s', hr, -⟩
      rw [h] at hr
      cases hr
  | ok p =>
    obtain ⟨r, s'⟩ := p
    rw [h] at hb
    rw [ensures_iff_of_eq h]
    cases r with
    | error cause => exact ensures_iff_of_eq hb
    | ok a =>
      have hf : (op >>= f) s = f a s' := hb
      unfold Ensures
      rw [hf]

@[simp] theorem ensures_map {f : α → β} {post : Except Error β → Sitting μ σ → Prop} :
    (f <$> op).Ensures s post ↔ op.Ensures s fun r s' => post (r.map f) s' := by
  have h : f <$> op = op >>= fun a => pure (f a) := by
    funext t
    rw [bind_apply]
    change (op t >>= _) = _
    congr 1
    funext ⟨r, s'⟩
    cases r <;> rfl
  rw [h, ensures_bind]
  constructor
  all_goals
    intro h
    refine h.mono fun r s' hr => ?_
    cases r <;> simpa [Except.map] using hr

@[simp] theorem ensures_machine {post : Except Error μ → Sitting μ σ → Prop} :
    (machine : Operation μ σ μ).Ensures s post ↔ post (.ok s.machine) s :=
  ensures_iff_of_eq rfl

@[simp] theorem ensures_modifyMachine {f : μ → μ} {post : Except Error Unit → Sitting μ σ → Prop} :
    (modifyMachine f : Operation μ σ Unit).Ensures s post ↔
      post (.ok ()) { s with machine := f s.machine } :=
  ensures_iff_of_eq rfl

@[simp] theorem ensures_note {notice : Notice} {post : Except Error Unit → Sitting μ σ → Prop} :
    (note notice : Operation μ σ Unit).Ensures s post ↔
      post (.ok ()) { s with journal := notice :: s.journal } :=
  ensures_iff_of_eq rfl

@[simp] theorem ensures_settle {reply : Except Error α} :
    (settle reply : Operation μ σ α).Ensures s post ↔ post reply s := by
  cases reply <;> exact ensures_iff_of_eq rfl

@[simp] theorem ensures_attempt {post : Except Error (Except Error α) → Sitting μ σ → Prop} :
    op.attempt.Ensures s post ↔ op.Ensures s fun r s' => post (.ok r) s' := by
  constructor
  · rintro ⟨r, s', hr, hq⟩
    change (op s >>= _) = _ at hr
    cases h : op s with
    | error fault =>
      rw [h] at hr
      cases hr
    | ok p =>
      rw [h] at hr
      cases hr
      exact ⟨_, _, h, hq⟩
  · rintro ⟨r, s', hr, hq⟩
    refine ⟨.ok r, s', ?_, hq⟩
    change (op s >>= _) = _
    rw [hr]
    rfl

@[simp] theorem ensures_ask {question : σ → α × σ} :
    (ask question : Operation μ σ α).Ensures s post ↔
      post (.ok (question s.content).1) { s with content := (question s.content).2 } :=
  ensures_iff_of_eq rfl

/-- A loop is its next round, and what the rounds left do where that one has no answer. -/
theorem ensures_loop_succ {round : Operation μ σ (Option α)} {after : Operation μ σ α}
    {rounds : Nat} :
    (loop round after (rounds + 1)).Ensures s post ↔ round.Ensures s fun r s' =>
      match r with
      | .ok (some a) => post (.ok a) s'
      | .ok none => (loop round after rounds).Ensures s' post
      | .error cause => post (.error cause) s' := by
  rw [loop, ensures_bind]
  refine ensures_congr fun r s' => ?_
  rcases r with cause | _ | a
  · rfl
  · rfl
  · exact ensures_pure

@[simp] theorem ensures_conclude {p : Provider σ} {outcome : Outcome}
    {post : Except Error Unit → Sitting μ σ → Prop} :
    (conclude p outcome : Operation μ σ Unit).Ensures s post ↔
      post (.ok ()) { s with
        content := p.conclude outcome s.content
        journal := (p.remarks outcome).reverse ++ s.journal } :=
  ensures_iff_of_eq rfl

@[simp] theorem ensures_liftM {x : Checked α} :
    (liftM x : Operation μ σ α).Ensures s post ↔ ∃ a, x = .ok a ∧ post (.ok a) s := by
  cases x with
  | error fault =>
    constructor
    · rintro ⟨r, s', hr, -⟩
      cases hr
    · rintro ⟨a, ha, -⟩
      cases ha
  | ok a =>
    have hresult : (liftM (.ok a : Checked α) : Operation μ σ α) s = .ok (.ok a, s) := rfl
    rw [ensures_iff_of_eq hresult]
    simp

end Operation

namespace Engine

variable {s : Sitting Engine σ} {postUnit : Except Error Unit → Sitting Engine σ → Prop}

@[simp] theorem ensures_getSession {post : Except Error Session → Sitting Engine σ → Prop}
    {review : Session} (h : s.machine.session = some review) :
    (getSession : Operation Engine σ Session).Ensures s post ↔ post (.ok review) s := by
  simp [getSession, h]

theorem ensures_getSession_none {post : Except Error Session → Sitting Engine σ → Prop}
    (h : s.machine.session = none) :
    (getSession : Operation Engine σ Session).Ensures s post ↔ post (.error .invalidState) s := by
  simp [getSession, h]

@[simp] theorem ensures_setSession {review : Session} :
    (setSession review : Operation Engine σ Unit).Ensures s postUnit ↔
      postUnit (.ok ()) { s with machine := { s.machine with session := some review } } :=
  Operation.ensures_modifyMachine

@[simp] theorem ensures_setState {state : State} :
    (setState state : Operation Engine σ Unit).Ensures s postUnit ↔
      postUnit (.ok ()) { s with machine := { s.machine with state } } :=
  Operation.ensures_modifyMachine

@[simp] theorem ensures_modifyField {f : Field → Field} :
    (modifyField f : Operation Engine σ Unit).Ensures s postUnit ↔
      postUnit (.ok ()) { s with machine := { s.machine with field := f s.machine.field } } :=
  Operation.ensures_modifyMachine

@[simp] theorem ensures_setText {text : String × String} :
    (setText text : Operation Engine σ Unit).Ensures s postUnit ↔
      postUnit (.ok ()) { s with
        machine := { s.machine with
          field := (s.machine.field.setKey text.1).setValue text.2 } } :=
  ensures_modifyField

theorem ensures_getInspection {post : Except Error Inspection → Sitting Engine σ → Prop}
    {review : Session} {i : Inspection} (h : s.machine.session = some review)
    (hi : review.inspection = some i) :
    (getInspection : Operation Engine σ Inspection).Ensures s post ↔ post (.ok i) s := by
  simp [getInspection, h, hi]

@[simp] theorem ensures_setInspection {i : Inspection} :
    (setInspection i : Operation Engine σ Unit).Ensures s postUnit ↔
      postUnit (.ok ()) { s with
        machine := { s.machine with
          session := s.machine.session.map fun review => { review with inspection := some i } } } :=
  Operation.ensures_modifyMachine

@[simp] theorem ensures_askField {question : Field → σ → Except Error α × Field × σ}
    {post : Except Error α → Sitting Engine σ → Prop} :
    (askField question).Ensures s post ↔
      post (question s.machine.field s.content).1 { s with
        machine := { s.machine with field := (question s.machine.field s.content).2.1 }
        content := (question s.machine.field s.content).2.2 } := by
  simp [askField, Operation.askField]

end Engine
end WalletReview
