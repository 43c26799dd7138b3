import WalletReview.Proofs.Ensures

/-! What holds of any result that an operation comes to. `Upholds` is the partial counterpart of
`Ensures`: a `Fault` is no result, so that nothing has to be known of the bounds that faults guard.
Each step of an operation has a law below, in the same form as there. -/
namespace WalletReview

variable {μ σ α β : Type}

namespace Operation

/-- If the operation has a result from `s`, `post` holds of it and of what it leaves behind. -/
def Upholds (op : Operation μ σ α) (s : Sitting μ σ)
    (post : Except Error α → Sitting μ σ → Prop) : Prop :=
  ∀ r s', op s = .ok (r, s') → post r s'

variable {op : Operation μ σ α} {s s' : Sitting μ σ} {r : Except Error α}
  {post post' : Except Error α → Sitting μ σ → Prop}

theorem Upholds.mono (h : op.Upholds s post) (hp : ∀ r s', post r s' → post' r s') :
    op.Upholds s post' :=
  fun r s' hr => hp r s' (h r s' hr)

theorem Ensures.upholds (h : op.Ensures s post) : op.Upholds s post :=
  fun _ _ hr => h.of_eq hr

theorem upholds_iff_of_eq (hr : op s = .ok (r, s')) : op.Upholds s post ↔ post r s' := by
  constructor
  · intro h
    exact h r s' hr
  · intro h r' t ht
    rw [hr] at ht
    cases ht
    exact h

@[simp] theorem upholds_pure {a : α} : (pure a : Operation μ σ α).Upholds s post ↔ post (.ok a) s :=
  upholds_iff_of_eq rfl

@[simp] theorem upholds_throw {cause : Error} :
    (throw cause : Operation μ σ α).Upholds s post ↔ post (.error cause) s :=
  upholds_iff_of_eq rfl

@[simp] theorem upholds_bind {f : α → Operation μ σ β}
    {post : Except Error β → Sitting μ σ → Prop} :
    (op >>= f).Upholds s post ↔ op.Upholds s fun r s' =>
      match r with
      | .ok a => (f a).Upholds s' post
      | .error cause => post (.error cause) s' := by
  have hb := bind_apply op f s
  cases h : op s with
  | error fault =>
    rw [h] at hb
    constructor
    · intro _ r s' hr
      rw [h] at hr
      cases hr
    · intro _ r s' hr
      rw [hb] at hr
      cases hr
  | ok result =>
    obtain ⟨r, s'⟩ := result
    rw [h] at hb
    rw [upholds_iff_of_eq h]
    cases r with
    | error cause => exact upholds_iff_of_eq hb
    | ok a =>
      have hf : (op >>= f) s = f a s' := hb
      unfold Upholds
      rw [hf]

@[simp] theorem upholds_map {f : α → β} {post : Except Error β → Sitting μ σ → Prop} :
    (f <$> op).Upholds s post ↔ op.Upholds s fun r s' => post (r.map f) s' := by
  have h : (f <$> op) s = (op s >>= fun r => .ok (r.1.map f, r.2)) := by
    change (op s >>= _) = _
    congr 1
    funext ⟨r, s'⟩
    cases r <;> rfl
  cases hop : op s with
  | error fault =>
    rw [hop] at h
    constructor
    · intro _ r s' hr
      rw [hop] at hr
      cases hr
    · intro _ r s' hr
      rw [h] at hr
      cases hr
  | ok result =>
    obtain ⟨r, s'⟩ := result
    rw [hop] at h
    rw [upholds_iff_of_eq h, upholds_iff_of_eq hop]

@[simp] theorem upholds_machine {post : Except Error μ → Sitting μ σ → Prop} :
    (machine : Operation μ σ μ).Upholds s post ↔ post (.ok s.machine) s :=
  upholds_iff_of_eq rfl

@[simp] theorem upholds_modifyMachine {f : μ → μ} {post : Except Error Unit → Sitting μ σ → Prop} :
    (modifyMachine f : Operation μ σ Unit).Upholds s post ↔
      post (.ok ()) { s with machine := f s.machine } :=
  upholds_iff_of_eq rfl

@[simp] theorem upholds_note {notice : Notice} {post : Except Error Unit → Sitting μ σ → Prop} :
    (note notice : Operation μ σ Unit).Upholds s post ↔
      post (.ok ()) { s with journal := notice :: s.journal } :=
  upholds_iff_of_eq rfl

@[simp] theorem upholds_settle {reply : Except Error α} :
    (settle reply : Operation μ σ α).Upholds s post ↔ post reply s := by
  cases reply <;> exact upholds_iff_of_eq rfl

@[simp] theorem upholds_attempt {post : Except Error (Except Error α) → Sitting μ σ → Prop} :
    op.attempt.Upholds s post ↔ op.Upholds s fun r s' => post (.ok r) s' := by
  have h : op.attempt s = (op s >>= fun r => .ok (.ok r.1, r.2)) := rfl
  cases hop : op s with
  | error fault =>
    rw [hop] at h
    constructor
    · intro _ r s' hr
      rw [hop] at hr
      cases hr
    · intro _ r s' hr
      rw [h] at hr
      cases hr
  | ok result =>
    obtain ⟨r, s'⟩ := result
    rw [hop] at h
    rw [upholds_iff_of_eq h, upholds_iff_of_eq hop]

@[simp] theorem upholds_ask {question : σ → α × σ} :
    (ask question : Operation μ σ α).Upholds s post ↔
      post (.ok (question s.content).1) { s with content := (question s.content).2 } :=
  upholds_iff_of_eq rfl

@[simp] theorem upholds_conclude {p : Provider σ} {outcome : Outcome}
    {post : Except Error Unit → Sitting μ σ → Prop} :
    (conclude p outcome : Operation μ σ Unit).Upholds s post ↔
      post (.ok ()) { s with
        content := p.conclude outcome s.content
        journal := (p.remarks outcome).reverse ++ s.journal } :=
  upholds_iff_of_eq rfl

@[simp] theorem upholds_liftM {x : Checked α} :
    (liftM x : Operation μ σ α).Upholds s post ↔ ∀ a, x = .ok a → post (.ok a) s := by
  cases x with
  | error fault =>
    constructor
    · intro _ a ha
      cases ha
    · intro _ r s' hr
      cases hr
  | ok a =>
    have hresult : (liftM (.ok a : Checked α) : Operation μ σ α) s = .ok (.ok a, s) := rfl
    rw [upholds_iff_of_eq hresult]
    simp

end Operation

namespace Engine

variable {s : Sitting Engine σ} {postUnit : Except Error Unit → Sitting Engine σ → Prop}

theorem upholds_getSession {post : Except Error Session → Sitting Engine σ → Prop} :
    (getSession : Operation Engine σ Session).Upholds s post ↔
      match s.machine.session with
      | some review => post (.ok review) s
      | none => post (.error .invalidState) s := by
  simp only [getSession, Operation.upholds_bind, Operation.upholds_machine]
  cases s.machine.session <;> simp

theorem upholds_getInspection {post : Except Error Inspection → Sitting Engine σ → Prop} :
    (getInspection : Operation Engine σ Inspection).Upholds s post ↔
      match s.machine.session.bind (·.inspection) with
      | some i => post (.ok i) s
      | none => post (.error .invalidState) s := by
  simp only [getInspection, Operation.upholds_bind, upholds_getSession]
  cases s.machine.session with
  | none => simp
  | some review =>
    simp only [Option.bind_some]
    cases review.inspection <;> simp

@[simp] theorem upholds_setSession {review : Session} :
    (setSession review : Operation Engine σ Unit).Upholds s postUnit ↔
      postUnit (.ok ()) { s with machine := { s.machine with session := some review } } :=
  Operation.upholds_modifyMachine

@[simp] theorem upholds_setState {state : State} :
    (setState state : Operation Engine σ Unit).Upholds s postUnit ↔
      postUnit (.ok ()) { s with machine := { s.machine with state } } :=
  Operation.upholds_modifyMachine

@[simp] theorem upholds_modifyField {f : Field → Field} :
    (modifyField f : Operation Engine σ Unit).Upholds s postUnit ↔
      postUnit (.ok ()) { s with machine := { s.machine with field := f s.machine.field } } :=
  Operation.upholds_modifyMachine

@[simp] theorem upholds_setInspection {i : Inspection} :
    (setInspection i : Operation Engine σ Unit).Upholds s postUnit ↔
      postUnit (.ok ()) { s with
        machine := { s.machine with
          session := s.machine.session.map fun review => { review with inspection := some i } } } :=
  Operation.upholds_modifyMachine

@[simp] theorem upholds_askField {question : Field → σ → Except Error α × Field × σ}
    {post : Except Error α → Sitting Engine σ → Prop} :
    (askField question).Upholds s post ↔
      post (question s.machine.field s.content).1 { s with
        machine := { s.machine with field := (question s.machine.field s.content).2.1 }
        content := (question s.machine.field s.content).2.2 } := by
  simp [askField, Operation.askField]

end Engine
end WalletReview
