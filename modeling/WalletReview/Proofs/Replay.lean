import WalletReview.Proofs.Correspondence
import WalletReview.Proofs.Content
import WalletReview.Proofs.Runs

/-! Courses of actions, and what becomes of them when they are taken once more. In front of a
provider whose answers do not depend on its state, the same engine goes the same way again: with the
same replies, over the same engines, and with the same questions to the provider. -/
namespace WalletReview

variable {σ τ : Type} {config : Config}

/-- The answers of the provider depend on the questions only. -/
def Provider.Steady (p : Provider σ) : Prop := p.Matches (fun _ _ => True) p

/-- On two records that began as given, the same exchanges have come since. -/
def Recorded.Grown (a₀ : Recorded σ) (b₀ : Recorded τ) (a : Recorded σ) (b : Recorded τ) : Prop :=
  ∃ new, a.exchanges = new ++ a₀.exchanges ∧ b.exchanges = new ++ b₀.exchanges

theorem Recorded.Grown.refl (a₀ : Recorded σ) (b₀ : Recorded τ) : Grown a₀ b₀ a₀ b₀ :=
  ⟨[], rfl, rfl⟩

theorem Recorded.Grown.cons {a₀ a : Recorded σ} {b₀ b : Recorded τ} (h : Grown a₀ b₀ a b)
    (x : Exchange) (c : σ) (d : τ) :
    Grown a₀ b₀ ⟨c, x :: a.exchanges⟩ ⟨d, x :: b.exchanges⟩ := by
  obtain ⟨new, ha, hb⟩ := h
  exact ⟨x :: new, congrArg (x :: ·) ha, congrArg (x :: ·) hb⟩

/-- Whatever has been recorded before, providers that answer alike are told the same from then on.
-/
theorem Provider.Matches.grown {R : σ → τ → Prop} {p : Provider σ} {q : Provider τ}
    (h : p.Matches R q) (a₀ : Recorded σ) (b₀ : Recorded τ) :
    p.recorded.Matches (fun a b => R a.content b.content ∧ Recorded.Grown a₀ b₀ a b)
      q.recorded where
  itemCount a b hab := by
    obtain ⟨hreply, hstate⟩ := h.itemCount a.content b.content hab.1
    refine ⟨hreply, hstate, ?_⟩
    simp only [Provider.recorded, hreply]
    exact hab.2.cons ..
  item index page f a b hab := by
    obtain ⟨hreply, hfield, hstate⟩ := h.item index page f a.content b.content hab.1
    refine ⟨hreply, hfield, hstate, ?_⟩
    simp only [Provider.recorded, hreply]
    exact hab.2.cons ..
  title f a b hab := by
    obtain ⟨hreply, hfield, hstate⟩ := h.title f a.content b.content hab.1
    refine ⟨hreply, hfield, hstate, ?_⟩
    simp only [Provider.recorded, hreply]
    exact hab.2.cons ..
  childCount path a b hab := by
    obtain ⟨hreply, hstate⟩ := h.childCount path a.content b.content hab.1
    refine ⟨hreply, hstate, ?_⟩
    simp only [Provider.recorded, hreply]
    exact hab.2.cons ..
  child path child page f a b hab := by
    obtain ⟨hreply, hfield, hstate⟩ := h.child path child page f a.content b.content hab.1
    refine ⟨hreply, hfield, hstate, ?_⟩
    simp only [Provider.recorded, hreply]
    exact hab.2.cons ..
  canInspect path child a b hab := by
    obtain ⟨hreply, hstate⟩ := h.canInspect path child a.content b.content hab.1
    refine ⟨hreply, hstate, ?_⟩
    simp only [Provider.recorded, hreply]
    exact hab.2.cons ..
  conclude outcome a b hab := ⟨h.conclude outcome a.content b.content hab.1, hab.2.cons ..⟩

theorem Provider.matches_self (p : Provider σ) : p.Matches Eq p where
  itemCount _ _ h := h ▸ ⟨rfl, rfl⟩
  item _ _ _ _ _ h := h ▸ ⟨rfl, rfl, rfl⟩
  title _ _ _ h := h ▸ ⟨rfl, rfl, rfl⟩
  childCount _ _ _ h := h ▸ ⟨rfl, rfl⟩
  child _ _ _ _ _ _ h := h ▸ ⟨rfl, rfl, rfl⟩
  canInspect _ _ _ _ h := h ▸ ⟨rfl, rfl⟩
  conclude _ _ _ h := h ▸ rfl

theorem Provider.fixed_steady (p : Provider σ) (st : σ) : (p.fixed st).Steady where
  itemCount _ _ _ := ⟨rfl, trivial⟩
  item _ _ _ _ _ _ := ⟨rfl, rfl, trivial⟩
  title _ _ _ _ := ⟨rfl, rfl, trivial⟩
  childCount _ _ _ _ := ⟨rfl, trivial⟩
  child _ _ _ _ _ _ _ := ⟨rfl, rfl, trivial⟩
  canInspect _ _ _ _ _ := ⟨rfl, trivial⟩
  conclude _ _ _ _ := trivial

namespace Engine

variable {R : σ → τ → Prop} {p : Provider σ} {q : Provider τ}

/-- Actions carried out one after the other, the earliest first. -/
inductive Course (p : Provider σ) : Sitting Engine σ → List Step → Sitting Engine σ → Prop
  | nil {t : Sitting Engine σ} : Course p t [] t
  | cons {t t' t'' : Sitting Engine σ} {reply : Except Error Reply} {steps : List Step}
    (action : Action) : action.perform p t = .ok (reply, t') → Course p t' steps t'' →
    Course p t (⟨action, t.machine, reply, t'.machine⟩ :: steps) t''

namespace Course

variable {s t : Sitting Engine σ} {steps : List Step}

theorem run (h : Course p s steps t) {before : List Step} (hrun : Run p config before s) :
    Run p config (steps.reverse ++ before) t := by
  induction h generalizing before with
  | nil => exact hrun
  | cons action hact _ ih =>
    rw [List.reverse_cons, List.append_assoc]
    exact ih (.act action hrun hact)

theorem append {u : Sitting Engine σ} {steps' : List Step} (h : Course p s steps t)
    (h' : Course p t steps' u) : Course p s (steps ++ steps') u := by
  induction h with
  | nil => exact h'
  | cons action hact _ ih => exact .cons action hact (ih h')

theorem mirrors (h : Course p s steps t) (hmatches : p.Matches R q) {s' : Sitting Engine τ}
    (halike : s.Alike R s') : ∃ t', Course q s' steps t' ∧ t.Alike R t' := by
  induction h generalizing s' with
  | nil => exact ⟨s', .nil, halike⟩
  | cons action hact _ ih =>
    obtain ⟨u, hact', hnext⟩ := mirrors_perform hmatches action _ s' halike _ _ hact
    obtain ⟨t', hrest, hlast⟩ := ih hnext
    refine ⟨t', ?_, hlast⟩
    rw [halike.machine, hnext.machine]
    exact .cons action hact' hrest

end Course

def Reachable (p : Provider σ) (s t : Sitting Engine σ) : Prop := ∃ steps, Course p s steps t

namespace Reachable

variable {s t u : Sitting Engine σ}

theorem refl (t : Sitting Engine σ) : Reachable p t t := ⟨[], .nil⟩

theorem trans (h : Reachable p s t) (h' : Reachable p t u) : Reachable p s u := by
  obtain ⟨steps, hcourse⟩ := h
  obtain ⟨steps', hcourse'⟩ := h'
  exact ⟨_, hcourse.append hcourse'⟩

theorem run (h : Reachable p s t) {before : List Step} (hrun : Run p config before s) :
    ∃ steps, Run p config steps t := by
  obtain ⟨steps, hcourse⟩ := h
  exact ⟨_, hcourse.run hrun⟩

theorem mirrors (h : Reachable p s t) (hmatches : p.Matches R q) {s' : Sitting Engine τ}
    (halike : s.Alike R s') : ∃ t', Reachable q s' t' ∧ t.Alike R t' := by
  obtain ⟨steps, hcourse⟩ := h
  obtain ⟨t', hcourse', halike'⟩ := hcourse.mirrors hmatches halike
  exact ⟨t', ⟨steps, hcourse'⟩, halike'⟩

end Reachable

/-- Whatever can be done with the one engine can be done with the other, step by step the same, and
with the same questions to the provider. -/
def Repeats (p : Provider σ) (t u : Sitting Engine (Recorded σ)) : Prop :=
  ∀ steps t', Course p.recorded t steps t' → ∃ u' new, Course p.recorded u steps u' ∧
    u'.machine = t'.machine ∧ t'.content.exchanges = new ++ t.content.exchanges ∧
    u'.content.exchanges = new ++ u.content.exchanges

theorem repeats_of_matches {R : σ → σ → Prop} (hp : p.Matches R p)
    {t u : Sitting Engine (Recorded σ)} (h : u.machine = t.machine)
    (hcontent : R t.content.content u.content.content) : Repeats p t u := by
  intro steps t' hcourse
  obtain ⟨u', hcourse', hmachine, -, new, ht, hu⟩ :=
    hcourse.mirrors (hp.grown t.content u.content) ⟨h.symm, hcontent, .refl _ _⟩
  exact ⟨u', new, hcourse', hmachine.symm, ht, hu⟩

theorem repeats_of_eq (hp : p.Steady) {t u : Sitting Engine (Recorded σ)}
    (h : u.machine = t.machine) : Repeats p t u :=
  repeats_of_matches hp h trivial

end Engine
end WalletReview
