import WalletReview.Proofs.Moves

/-! What an action means to the review at hand: it begins the review, continues it, or ends it. -/
namespace WalletReview

variable {config : Config} {C : Contract config}

/-- A review differs in its cursor and its inspection from what it was, and in nothing else. -/
def Session.Continues (s s' : Session) : Prop :=
  ∃ c i, s' = { s with cursor := c, inspection := i }

namespace Engine

variable {e e' : Engine} {s : Session} {skips : Bool} {dir : Direction} {out : Output}

theorem continues_of_visits (h : Visits C e out e') (hs : e.session = some s) :
    ∃ s', e'.session = some s' ∧ s.Continues s' := by
  cases h with
  | enter _ hs' => cases hs.symm.trans hs'; exact ⟨_, rfl, _, _, rfl⟩
  | descend hi => cases hs.symm.trans hi.session; exact ⟨_, rfl, _, _, rfl⟩
  | ascend hi => cases hs.symm.trans hi.session; exact ⟨_, rfl, _, _, rfl⟩
  | leave hi => cases hs.symm.trans hi.session; exact ⟨_, rfl, _, _, rfl⟩
  | stay hi => exact ⟨_, hs, _, _, rfl⟩
  | move hi => cases hs.symm.trans hi.session; exact ⟨_, rfl, _, _, rfl⟩
  | miss hi => cases hs.symm.trans hi.session; exact ⟨_, rfl, _, _, rfl⟩

theorem continues_of_goes (h : Goes C e dir out e') (hs : e.session = some s) :
    ∃ s', e'.session = some s' ∧ s.Continues s' := by
  cases h with
  | offer => exact ⟨_, hs, _, _, rfl⟩
  | step hs' _ _ _ hstep =>
    cases hs.symm.trans hs'
    cases hstep with
    | stay => exact ⟨_, hs, _, _, rfl⟩
    | move => exact ⟨_, rfl, _, _, rfl⟩
    | miss => exact ⟨_, rfl, _, _, rfl⟩
  | resume _ hs' => cases hs.symm.trans hs'; exact ⟨_, rfl, _, _, rfl⟩
  | visit _ h => exact continues_of_visits h hs

/-- A review that an action does not end continues. -/
theorem continues_of_moves {r : Except Error Output} (he : Sound C e) (h : Moves C skips e r e')
    (hs : e.session = some s) :
    e'.session = none ∨ ∃ s', e'.session = some s' ∧ s.Continues s' := by
  cases h with
  | refused => exact Or.inr ⟨_, hs, _, _, rfl⟩
  | nothing => exact Or.inr ⟨_, hs, _, _, rfl⟩
  | aborted h =>
    obtain ⟨g, -, rfl⟩ := h
    exact Or.inl rfl
  | lost h =>
    obtain ⟨g, -, rfl⟩ := h
    exact Or.inl rfl
  | begins _ h =>
    cases h with
    | begin hidle => exact absurd hs (by simp [he.session_eq_none (Or.inl hidle)])
  | goes _ h => exact Or.inr (continues_of_goes h hs)
  | jumps _ h =>
    cases h with
    | skip hs' => cases hs.symm.trans hs'; exact Or.inr ⟨_, rfl, _, _, rfl⟩
  | visits _ h => exact Or.inr (continues_of_visits h hs)
  | ends h =>
    left
    cases h with
    | acknowledge hstate => exact he.session_eq_none (Or.inr hstate)
    | _ => rfl

theorem continues_of_acts {action : Action} {r : Except Error Reply} (he : Sound C e)
    (h : Acts C e action r e') (hs : e.session = some s) :
    e'.session = none ∨ ∃ s', e'.session = some s' ∧ s.Continues s' := by
  cases h with
  | output h => exact continues_of_moves he h hs
  | press h => exact continues_of_moves he h hs
  | shows => exact Or.inl rfl
  | canDescend => exact Or.inr ⟨_, hs, _, _, rfl⟩
  | setModes => exact Or.inr ⟨_, hs, _, _, rfl⟩

theorem Visits.exists_session (h : Visits C e out e') : ∃ s, e.session = some s := by
  cases h with
  | enter _ hs => exact ⟨_, hs⟩
  | descend hi => exact ⟨_, hi.session⟩
  | ascend hi => exact ⟨_, hi.session⟩
  | leave hi => exact ⟨_, hi.session⟩
  | stay hi => exact ⟨_, hi.session⟩
  | move hi => exact ⟨_, hi.session⟩
  | miss hi => exact ⟨_, hi.session⟩

theorem Goes.exists_session (h : Goes C e dir out e') : ∃ s, e.session = some s := by
  cases h with
  | offer _ hs => exact ⟨_, hs⟩
  | step hs => exact ⟨_, hs⟩
  | resume _ hs => exact ⟨_, hs⟩
  | visit _ h => exact h.exists_session

theorem begins_of_moves {r : Except Error Output} (h : Moves C skips e r e')
    (hs : e.session = none) (hs' : e'.session = some s) :
    skips = false ∧ ∃ kind confirmation intent out, Begins C e kind confirmation intent out e' := by
  have hnot : ¬∃ s, e.session = some s := by simp [hs]
  have hsame (h : e'.session = e.session) : False := by simp [h, hs] at hs'
  cases h with
  | refused => exact (hsame rfl).elim
  | nothing => exact (hsame rfl).elim
  | aborted h =>
    obtain ⟨g, -, rfl⟩ := h
    cases hs'
  | lost h =>
    obtain ⟨g, -, rfl⟩ := h
    cases hs'
  | begins hskips h => exact ⟨hskips, _, _, _, _, h⟩
  | goes _ h => exact absurd h.exists_session hnot
  | jumps _ h =>
    cases h with
    | skip hses => exact absurd ⟨_, hses⟩ hnot
  | visits _ h => exact absurd h.exists_session hnot
  | ends h =>
    cases h with
    | approve => cases hs'
    | reject => cases hs'
    | acknowledge => exact (hsame rfl).elim

/-- Nothing but a beginning brings a review about. -/
theorem begins_of_acts {action : Action} {r : Except Error Reply} (h : Acts C e action r e')
    (hs : e.session = none) (hs' : e'.session = some s) :
    action.skips e = false ∧
      ∃ kind confirmation intent out, Begins C e kind confirmation intent out e' := by
  cases h with
  | output h => exact begins_of_moves h hs hs'
  | press h => exact begins_of_moves h hs hs'
  | shows => cases hs'
  | canDescend => cases hs.symm.trans hs'
  | setModes => cases hs.symm.trans hs'

theorem canApprove_of_moves (h : Moves C skips e (.ok .approved) e') : e.canApprove = true := by
  cases h with
  | begins _ h => cases h
  | goes _ h =>
    cases h with
    | step _ _ _ _ h => cases h
    | visit _ h => cases h
  | jumps _ h => cases h
  | visits _ h => cases h
  | ends h =>
    cases h with
    | approve hcan => exact hcan

theorem canApprove_of_acts {action : Action} {r : Except Error Reply} (h : Acts C e action r e')
    (hr : r = .ok (.output .approved) ∨ r = .ok (.response (.exit true))) :
    e.canApprove = true := by
  cases h with
  | @output a r e' hmoves =>
    have hout : r = .ok .approved := by
      cases r <;> simp [Except.map] at hr ⊢
      exact hr
    rw [hout] at hmoves
    exact canApprove_of_moves hmoves
  | @press button r e' hmoves =>
    have hout : r = .ok .approved := by
      rcases r with cause | _ | _ | _ | _ | _ <;> simp [buttonResponse] at hr ⊢
      split at hr <;> cases hr
    rw [hout] at hmoves
    exact canApprove_of_moves hmoves
  | shows => simp at hr
  | canDescend => simp at hr
  | setModes => simp at hr

end Engine
end WalletReview
