import WalletReview.Proofs.Ensures
import WalletReview.Engine.Inspect

/-! Loading a screen as a loop. Each of its rounds looks at one place and has an answer, or goes on
to the next place. What stands after the loop is a parameter here, so that it can be said of a loop
that it never comes to it. -/
namespace WalletReview

variable {μ σ α β γ : Type}

namespace Operation

/-- The loop in `body` returns from one of its rounds: the result is the same whatever stands after
the loop, and `post` holds of it. -/
def Returns (body : Operation μ σ α → Operation μ σ β) (s : Sitting μ σ)
    (post : Except Error β → Sitting μ σ → Prop) : Prop :=
  ∃ r s', (∀ after, body after s = .ok (r, s')) ∧ post r s'

variable {s : Sitting μ σ} {post post' : Except Error β → Sitting μ σ → Prop}

theorem Returns.mono {body : Operation μ σ α → Operation μ σ β} (h : Returns body s post)
    (hpost : ∀ r s', post r s' → post' r s') : Returns body s post' := by
  obtain ⟨r, s', hbody, hr⟩ := h
  exact ⟨r, s', hbody, hpost r s' hr⟩

/-- What comes before a loop is not affected by what stands after it. -/
theorem returns_bind {op : Operation μ σ γ} {f : γ → Operation μ σ α → Operation μ σ β}
    (h : op.Ensures s fun r s' => match r with
      | .ok c => Returns (f c) s' post
      | .error cause => post (.error cause) s') :
    Returns (fun after => op >>= fun c => f c after) s post := by
  obtain ⟨r, s₁, hop, hr⟩ := h
  have hbind (after : Operation μ σ α) := bind_apply op (fun c => f c after) s
  simp only [hop] at hbind
  cases r with
  | ok c =>
    obtain ⟨r', s', hf, hpost⟩ := hr
    exact ⟨r', s', fun after => (hbind after).trans (hf after), hpost⟩
  | error cause => exact ⟨_, s₁, hbind, hr⟩

theorem returns_loop_succ {round : Operation μ σ (Option β)} {rounds : Nat}
    (h : round.Ensures s fun r s' => match r with
      | .ok (some b) => post (.ok b) s'
      | .ok none => Returns (fun after => loop round after rounds) s' post
      | .error cause => post (.error cause) s') :
    Returns (fun after => loop round after (rounds + 1)) s post := by
  refine returns_bind (h.mono fun r s' hr => ?_)
  match r with
  | .ok (some b) => exact ⟨_, s', fun _ => rfl, hr⟩
  | .ok none => exact hr
  | .error _ => exact hr

end Operation
end WalletReview
