import Mathlib.Control.Monad.Basic
import WalletReview.Proofs.FrontEnds
import WalletReview.Proofs.Replay

/-! Settings of the mode flags that are woven into a course of actions. A review keeps the flags
that it began under, so that they change nothing about the course until a review begins, and that
one is the first to go by them. -/
namespace WalletReview.Engine

variable {σ : Type} {config : Config} {C : Contract config} {p : Provider σ} {e e' : Engine}
  {action : Action} {reply : Except Error Reply} {actions : List Action}
  {before steps : List Step} {s t t' u : Sitting Engine σ}

/-- The same but for the mode flags and the journal. -/
def SameButModes (t u : Sitting Engine σ) : Prop := t.Resembles (fun _ _ => True) Eq u

namespace SameButModes

theorem refl (t : Sitting Engine σ) : SameButModes t t := ⟨rfl, trivial, rfl⟩

theorem state (h : SameButModes t u) : u.machine.state = t.machine.state := by rw [h.machine]

theorem display (h : SameButModes t u) : u.machine.display = t.machine.display := by
  rw [h.machine]
  rfl

theorem withModes (h : SameButModes t u) (modes : Modes) :
    SameButModes t { u with machine := { u.machine with modes } } :=
  ⟨by rw [h.machine], trivial, h.content⟩

end SameButModes

def Action.modesAfter (modes : Modes) : Action → Modes
  | setModes modes' => modes'
  | _ => modes

/-- The second list is the first one with settings of the mode flags in between. -/
inductive Woven : List Action → List Action → Prop
  | nil : Woven [] []
  | cons {as bs : List Action} (action : Action) : Woven as bs → Woven (action :: as) (action :: bs)
  | set {as bs : List Action} (modes : Modes) : Woven as bs → Woven as (.setModes modes :: bs)

/-- Two courses side by side, from the first two sittings to the last two. But for settings of the
mode flags in the second, they take the same actions and have the same replies, and at any time they
are the same but for the mode flags. -/
inductive Lockstep (p : Provider σ) : Sitting Engine σ → Sitting Engine σ → List Step → List Step →
    Sitting Engine σ → Sitting Engine σ → Prop
  | nil {t u : Sitting Engine σ} : SameButModes t u → Lockstep p t u [] [] t u
  | cons {t t₁ t' u u₁ u' : Sitting Engine σ} {reply : Except Error Reply} {xs ys : List Step}
    (action : Action) : SameButModes t u → action.perform p t = .ok (reply, t₁) →
    action.perform p u = .ok (reply, u₁) → Lockstep p t₁ u₁ xs ys t' u' →
    Lockstep p t u (⟨action, t.machine, reply, t₁.machine⟩ :: xs)
      (⟨action, u.machine, reply, u₁.machine⟩ :: ys) t' u'
  | set {t t' u u' : Sitting Engine σ} {xs ys : List Step} (modes : Modes) : SameButModes t u →
    Lockstep p t { u with machine := { u.machine with modes } } xs ys t' u' →
    Lockstep p t u xs
      (⟨.setModes modes, u.machine, .ok .done, { u.machine with modes }⟩ :: ys) t' u'

namespace Lockstep

variable {xs ys : List Step} {u' : Sitting Engine σ}

theorem course (h : Lockstep p t u xs ys t' u') : Course p u ys u' := by
  induction h with
  | nil => exact .nil
  | cons action _ _ hact _ ih => exact .cons action hact ih
  | set modes _ _ ih => exact .cons (.setModes modes) rfl ih

theorem ends (h : Lockstep p t u xs ys t' u') : SameButModes t' u' := by
  induction h with
  | nil hsame => exact hsame
  | cons _ _ _ _ _ ih => exact ih
  | set _ _ _ ih => exact ih

end Lockstep

theorem perform_begins (haction : action.begins = true) : ∃ cause, ∀ t : Sitting Engine σ,
    t.machine.state ≠ .idle → (action.perform p).Ensures t fun r t' =>
      r = .error cause ∧ t'.machine = t.machine ∧ t'.content = t.content := by
  cases action with
  | begin kind confirmation intent =>
    refine ⟨.invalidState, fun t hstate => ?_⟩
    simp [Action.perform, Loader.perform, Loader.begin, hstate, Except.map]
  | take event =>
    cases event with
    | begin kind confirmation =>
      refine ⟨.unexpectedEvent, fun t hstate => ?_⟩
      simp only [Action.perform, Loader.perform, Loader.update, Operation.ensures_map,
        Operation.ensures_bind, Operation.ensures_machine, Operation.ensures_note]
      cases hcase : t.machine.state with
      | idle => exact absurd hcase hstate
      | _ => exact Operation.ensures_throw.2 ⟨rfl, rfl, rfl⟩
    | _ => cases haction
  | _ => cases haction

/-- An action that does not begin a review goes alike whatever the mode flags. -/
theorem SameButModes.perform (hst : SameButModes s t)
    (hbegins : action.begins = true → s.machine.state ≠ .idle) {s' : Sitting Engine σ}
    (hact : action.perform p s = .ok (reply, s')) :
    ∃ t', action.perform p t = .ok (reply, t') ∧ SameButModes s' t' := by
  cases haction : action.begins with
  | false =>
    have hfollows := follows_perform (N := fun _ _ => True) p.matches_self action
      (fun h => by cases haction.symm.trans h) fun _ _ => trivial
    exact hfollows s t hst reply s' hact
  | true =>
    obtain ⟨cause, hrefused⟩ := perform_begins (p := p) haction
    have hidle : t.machine.state ≠ .idle := by
      rw [hst.state]
      exact hbegins haction
    obtain ⟨rfl, hmachine, hcontent⟩ := (hrefused s (hbegins haction)).of_eq hact
    obtain ⟨r, t', hact', rfl, hmachine', hcontent'⟩ := hrefused t hidle
    refine ⟨t', hact', ?_, trivial, ?_⟩
    · rw [hmachine', hmachine]
      exact hst.machine
    · rw [hcontent', hcontent]
      exact hst.content

theorem modes_of_perform (hact : action.perform p t = .ok (reply, t')) :
    t'.machine.modes = action.modesAfter t.machine.modes := by
  have hkept (hsets : ∀ modes, action ≠ .setModes modes) : t'.machine.modes = t.machine.modes := by
    have hself : t.Resembles (fun a b => a = t.machine.modes ∧ b = t.machine.modes) Eq t :=
      ⟨rfl, ⟨rfl, rfl⟩, rfl⟩
    obtain ⟨_, -, hst⟩ := follows_perform p.matches_self action
      (fun _ a b hab => hab.1.trans hab.2.symm) (fun modes h => absurd h (hsets modes))
      t t hself reply t' hact
    exact hst.modes.1
  cases action with
  | setModes modes =>
    cases hact
    rfl
  | _ => exact hkept fun _ h => by cases h

theorem Course.modes (h : Course p t steps t') :
    t'.machine.modes = (steps.map (·.action)).foldl Action.modesAfter t.machine.modes := by
  induction h with
  | nil => rfl
  | cons action hact _ ih => rw [ih, modes_of_perform hact, List.map_cons, List.foldl_cons]

/-- Whatever settings of the mode flags are woven into a course, it goes in lockstep with it. -/
theorem Course.lockstep (h : Course p t steps t')
    (hbegins : ∀ x ∈ steps, x.action.begins = true → x.before.state ≠ .idle)
    (hwoven : Woven (steps.map (·.action)) actions) (htu : SameButModes t u) :
    ∃ steps' u', Lockstep p t u steps steps' t' u' ∧ steps'.map (·.action) = actions := by
  generalize hacts : steps.map (·.action) = as at hwoven
  -- A setting woven in is a step of the second course only, from which the first stays as it was.
  induction hwoven generalizing steps t u with
  | nil =>
    rw [List.map_eq_nil_iff] at hacts
    subst hacts
    cases h
    exact ⟨[], u, .nil htu, rfl⟩
  | cons action _ ih =>
    cases h with
    | nil => cases hacts
    | cons action' hact hrest =>
      obtain ⟨hfirst, hlater⟩ := List.forall_mem_cons.1 hbegins
      rw [List.map_cons, List.cons.injEq] at hacts
      obtain ⟨rfl, hacts⟩ := hacts
      obtain ⟨u₁, hact', htu₁⟩ := htu.perform hfirst hact
      obtain ⟨steps', u', hlock, hmap⟩ := ih hrest hlater htu₁ hacts
      exact ⟨_, u', .cons _ htu hact hact' hlock, by rw [List.map_cons, hmap]⟩
  | set modes _ ih =>
    obtain ⟨steps', u', hlock, hmap⟩ := ih h hbegins (htu.withModes modes) hacts
    exact ⟨_, u', .set modes htu hlock, by rw [List.map_cons, hmap]⟩

theorem begin_modes {kind : Kind} {confirmation : Bool} {intent : Option String} {out : Output}
    (h : Run p config before t) (hbegin : begin p kind confirmation intent t = .ok (.ok out, t')) :
    ∃ s, t'.machine.session = some s ∧ s.modes = t.machine.modes ∧
      s.intro = introScreens kind t.machine.modes config.titleScreen := by
  have hp := Contract.honours_any p config
  have hyields := (begin_ensures hp (h.sound hp trivial)).of_eq hbegin
  obtain ⟨-, s, hs, hkind, hmodes, -⟩ := Begins.session hyields
  obtain ⟨_, hrun⟩ := h.exists_act (.begin kind confirmation intent) rfl hbegin
  obtain ⟨hruns, -⟩ := (hrun.sound hp trivial).runs hs
  refine ⟨s, hs, hmodes, ?_⟩
  rw [hruns.fits.intro, hkind, hmodes]

/-- Settings of the mode flags in the course of a review change nothing about it, as far as it goes:
neither replies nor engines, but for the flags themselves, nor what the provider is asked. The next
review to begin goes by the flags that were set last. -/
theorem snapshot_of_run {t t' : Sitting Engine (Recorded σ)} (h : Run p.recorded config before t)
    (hcourse : Course p.recorded t steps t')
    (hbegins : ∀ x ∈ steps, x.action.begins = true → x.before.state ≠ .idle)
    (hwoven : Woven (steps.map (·.action)) actions) :
    ∃ steps' u, Course p.recorded t steps' u ∧ steps'.map (·.action) = actions ∧
      Lockstep p.recorded t t steps steps' t' u ∧ SameButModes t' u ∧
      u.machine.modes = actions.foldl Action.modesAfter t.machine.modes ∧
      ∀ kind confirmation intent out w,
        begin p.recorded kind confirmation intent u = .ok (.ok out, w) →
          ∃ s, w.machine.session = some s ∧ s.modes = u.machine.modes ∧
            s.intro = introScreens kind u.machine.modes config.titleScreen := by
  obtain ⟨steps', u, hlock, hmap⟩ := hcourse.lockstep hbegins hwoven (.refl t)
  refine ⟨steps', u, hlock.course, hmap, hlock, hlock.ends, ?_,
    fun _ _ _ _ _ hbegin => begin_modes (hlock.course.run h) hbegin⟩
  rw [hlock.course.modes, hmap]

/-- Flags set before and after the screen that offers to approve. -/
theorem snapshot_of_run_approved : ∃ before t t₁ t' steps' u,
    Run (Fixture.provider.fixed (.ofPages [1])).recorded .stax before t ∧
      Action.advance.perform (Fixture.provider.fixed (.ofPages [1])).recorded t =
        .ok (.ok (.output .redraw), t₁) ∧
      Action.approve.perform (Fixture.provider.fixed (.ofPages [1])).recorded t₁ =
        .ok (.ok (.output .approved), t') ∧
      steps'.map (·.action) =
        [.setModes { blindSignRequired := true }, .advance, .setModes { shortcut := true },
          .approve] ∧
      Lockstep (Fixture.provider.fixed (.ofPages [1])).recorded t t
        [⟨.advance, t.machine, .ok (.output .redraw), t₁.machine⟩,
          ⟨.approve, t₁.machine, .ok (.output .approved), t'.machine⟩] steps' t' u ∧
      u.machine.modes = { shortcut := true } := by
  generalize hprovider : (Fixture.provider.fixed (.ofPages [1])) = p
  have hacts : ((Action.begin .transaction false none).perform p.recorded).Ensures
      ⟨.start .stax, ⟨(), []⟩, []⟩ fun _ t => (Action.advance.perform p.recorded).Ensures t
      fun r t₁ => r = .ok (.output .redraw) ∧ (Action.approve.perform p.recorded).Ensures t₁
      fun r _ => r = .ok (.output .approved) := by
    rw [← hprovider]
    decide +kernel
  obtain ⟨_, t, hbegin, _, t₁, hadvance, rfl, _, t', happrove, rfl⟩ := hacts
  have hrun := Run.act _ (.start _) hbegin
  have hcourse : Course p.recorded t _ t' := .cons .advance hadvance (.cons .approve happrove .nil)
  have hwoven : Woven [.advance, .approve] [.setModes { blindSignRequired := true }, .advance,
      .setModes { shortcut := true }, .approve] := .set _ (.cons _ (.set _ (.cons _ .nil)))
  obtain ⟨steps', u, -, hmap, hlock, -, hmodes, -⟩ := snapshot_of_run hrun hcourse
    (List.forall_mem_cons.2 ⟨nofun, List.forall_mem_singleton.2 nofun⟩) hwoven
  exact ⟨_, t, t₁, t', steps', u, hrun, hadvance, happrove, hmap, hlock, hmodes⟩

end WalletReview.Engine
