import WalletReview.Proofs.Standstill

/-! A review of a document, by the three events and the buttons that a user has at hand. The engine
becomes idle exactly by an end of the review that the document's reading learns of, and what answers
a user by nothing, or by a refusal, leaves it as it is. -/
namespace WalletReview

variable {config : Config} {C : Contract config}

theorem Operation.exists_of_map_eq_ok {μ σ α β : Type} {op : Operation μ σ α} {f : α → β}
    {s s' : Sitting μ σ} {reply : Except Error β} (h : (f <$> op) s = .ok (reply, s')) :
    ∃ r, op s = .ok (r, s') ∧ r.map f = reply := by
  have hmap : (f <$> op).Ensures s fun r t => r = reply ∧ t = s' := ⟨reply, s', h, rfl, rfl⟩
  obtain ⟨r, t, hop, hr, rfl⟩ := Operation.ensures_map.1 hmap
  exact ⟨r, hop, hr⟩

theorem Button.upholds_press {σ : Type} {p : Provider σ} (button : Button) (t : Sitting Engine σ) :
    (button.press p).Upholds t fun r _ => ∃ response, r = .ok response := by
  simp only [Button.press, Button.pressWith, Operation.upholds_bind, Operation.upholds_machine,
    Operation.upholds_attempt]
  intro r t' _
  cases r with
  | ok out => cases out <;> exact Operation.upholds_pure.2 ⟨_, rfl⟩
  | error cause => simp [Except.map]

namespace Engine

variable {e e' : Engine} {skips : Bool} {r : Except Error Output} {action : Action}
  {reply : Except Error Reply}

theorem Moves.idle_iff (hstate : e.state ≠ .idle) (h : Moves C skips e r e') (he' : Sound C e') :
    e'.state = .idle ↔ outcomesOf r ≠ [] := by
  constructor
  · intro hidle
    have hsome {s : Session} (hs : e'.session = some s) : outcomesOf r ≠ [] := by
      cases hs.symm.trans (he'.session_eq_none (Or.inl hidle))
    cases h with
    | refused => exact absurd hidle hstate
    | nothing => exact absurd hidle hstate
    | aborted h => cases hidle.symm.trans h.state
    | lost h => cases hidle.symm.trans h.state
    | begins _ h => exact absurd h.idle hstate
    | goes _ h =>
      obtain ⟨s, hs⟩ := h.exists_session
      obtain ⟨s', hs', -⟩ := continues_of_goes h hs
      exact hsome hs'
    | jumps _ h =>
      cases h with
      | skip => exact hsome rfl
    | visits _ h =>
      obtain ⟨s, hs⟩ := h.exists_session
      obtain ⟨s', hs', -⟩ := continues_of_visits h hs
      exact hsome hs'
    | ends h => cases h <;> simp [outcomesOf, Output.outcomes]
  · intro hout
    cases r with
    | error cause => exact absurd rfl hout
    | ok out => cases ends_of_moves h hout <;> rfl

theorem Sound.position_eq_idle_iff (he : Sound C e) : e.position = .idle ↔ e.state = .idle := by
  have htop (s : Session) : topPosition s ≠ .idle := by
    unfold topPosition
    repeat' split
    all_goals simp
  have hinspect (i : Inspection) : inspectPosition i ≠ .idle := by
    unfold inspectPosition
    repeat' split
    all_goals simp
  cases he.standing with
  | idle hstate => simp [position, hstate]
  | error hstate => simp [position, hstate]
  | review hstate hs => simp [position, hstate, hs, htop]
  | confirm hstate hs => simp [position, hstate, hs]
  | interstitial hstate hs => simp [position, hstate, hs]
  | inspect hi => simp [hi.position, hi.state, hinspect]

/-- An action has an engine at work become idle exactly if it tells the provider of an end. -/
theorem Acts.idle_iff (he : Sound C e) (hstate : e.state ≠ .idle) (h : Acts C e action reply e') :
    e'.state = .idle ↔ replyOutcomes e reply ≠ [] := by
  have he' := sound_of_acts he h
  cases h with
  | @output _ r _ h =>
    have hiff := h.idle_iff hstate he'
    cases r <;> exact hiff
  | press h =>
    rw [replyOutcomes, h.buttonResponse_outcomes he]
    exact h.idle_iff hstate he'
  | shows => simp [errorScreen, replyOutcomes, Reply.outcomes, Output.outcomes]
  | canDescend => simp [hstate, replyOutcomes, Reply.outcomes]
  | setModes => simp [hstate, replyOutcomes, Reply.outcomes]

theorem length_replyOutcomes_le (e : Engine) (reply : Except Error Reply) :
    (replyOutcomes e reply).length ≤ 1 := by
  unfold replyOutcomes
  split
  · unfold Reply.outcomes
    split
    · rename_i out
      cases out <;> decide
    · decide
    · split <;> decide
    · decide
  · decide

theorem Acts.position_of_accepted (he : Sound C e) (h : Acts C e action reply e')
    (haccepted : .accepted ∈ replyOutcomes e reply) : e.position = .approve := by
  have hmoves {r : Except Error Output} (h : Moves C (action.skips e) e r e')
      (hr : .accepted ∈ outcomesOf r) : e.position = .approve := by
    cases r with
    | error cause => simp [outcomesOf] at hr
    | ok out =>
      cases ends_of_moves h (List.ne_nil_of_mem hr) with
      | approve hcan =>
        rw [he.canApprove_eq] at hcan
        simpa [isAtApprove] using hcan
      | reject => simp [outcomesOf, Output.outcomes] at hr
      | acknowledge => simp [outcomesOf, Output.outcomes] at hr
  cases h with
  | @output _ r _ h => exact hmoves h (by cases r <;> exact haccepted)
  | press h =>
    rw [replyOutcomes, h.buttonResponse_outcomes he] at haccepted
    exact hmoves h haccepted
  | shows => simp [replyOutcomes, Reply.outcomes, Output.outcomes] at haccepted
  | canDescend => simp [replyOutcomes, Reply.outcomes] at haccepted
  | setModes => simp [replyOutcomes, Reply.outcomes] at haccepted

end Engine

namespace Document

open Engine (Action Acts Sound Reply replyOutcomes)

theorem recorded_matches (before : Option Outcome) :
    provider.recorded.Matches
      (fun a r => a.content = r ∧ r.outcome = a.conclusions.head?.or before) provider where
  itemCount a _ := by
    rintro ⟨rfl, h⟩
    exact ⟨rfl, rfl, h⟩
  item index page f a _ := by
    rintro ⟨rfl, h⟩
    exact ⟨rfl, rfl, rfl, h⟩
  title f a _ := by
    rintro ⟨rfl, h⟩
    refine ⟨rfl, rfl, rfl, ?_⟩
    simp only [provider]
    split <;> exact h
  childCount path a _ := by
    rintro ⟨rfl, h⟩
    refine ⟨rfl, rfl, ?_⟩
    simp only [provider]
    split <;> exact h
  child path child page f a _ := by
    rintro ⟨rfl, h⟩
    exact ⟨rfl, rfl, rfl, h⟩
  canInspect path child a _ := by
    rintro ⟨rfl, h⟩
    refine ⟨rfl, rfl, ?_⟩
    simp only [provider]
    split <;> exact h
  conclude outcome a _ := by
    rintro ⟨rfl, h⟩
    exact ⟨rfl, rfl⟩

/-- The ends of a review that the provider learns of by an action, the latest first. -/
def told (action : Engine.Action) (s : Sitting Engine Reading) : List Outcome :=
  match action.perform provider.recorded ⟨s.machine, ⟨s.content, []⟩, []⟩ with
  | .ok (_, t) => t.content.conclusions
  | .error _ => []

/-- What an action does in front of a document as it stands, it does in front of its reading. -/
theorem exists_perform (action : Engine.Action) (s : Sitting Engine Reading)
    {post : Except Error Engine.Reply → Sitting Engine (Recorded Unit) → Prop}
    (h : (action.perform (provider.fixed ⟨s.content.document, none⟩).recorded).Ensures
      ⟨s.machine, ⟨(), []⟩, []⟩ post) :
    ∃ reply u t, post reply u ∧ action.perform provider s = .ok (reply, t) ∧
      t.machine = u.machine ∧ t.content.document = s.content.document ∧
      t.content.outcome = u.content.conclusions.head?.or s.content.outcome ∧
      told action s = u.content.conclusions := by
  obtain ⟨reply, u, hu, hpost⟩ := h
  have hgrown := (fixed_matches s.content.document).grown ⟨(), []⟩ ⟨s.content, []⟩
  obtain ⟨w, hw, hmachine, hdocument, new, hnew, hnew'⟩ := Engine.mirrors_perform hgrown action _
    ⟨s.machine, ⟨s.content, []⟩, []⟩ ⟨rfl, rfl, .refl _ _⟩ _ _ hu
  obtain ⟨t, ht, hmachine', hcontent, houtcome⟩ := Engine.mirrors_perform
    (recorded_matches s.content.outcome) action _ s ⟨rfl, rfl, rfl⟩ _ _ hw
  have hsame : w.content.conclusions = u.content.conclusions := by
    rw [Recorded.conclusions, Recorded.conclusions, hnew, hnew']
  refine ⟨reply, u, t, hpost, ht, (hmachine.trans hmachine').symm, hcontent ▸ hdocument,
    hsame ▸ houtcome, ?_⟩
  rw [← hsame, told, hw]

variable {d : Document} {e e' : Engine} {action : Action} {reply : Except Error Reply}

/-- An engine in front of a document, with a review at hand or an error on screen. -/
structure Busy (d : Document) (config : Config) (e : Engine) : Prop where
  sound : Sound (d.contract config) e
  counted : e.Counted (d.contract config)
  state : e.state ≠ .idle

theorem Busy.of_acts (he : Busy d config e) (h : Acts (d.contract config) e action reply e')
    (hstate : e'.state ≠ .idle) : Busy d config e' :=
  ⟨Engine.sound_of_acts he.sound h,
    Engine.inspected_of_acts (P := fun i => (d.contract config).Counted i.chain) h he.counted
      fun _ => Engine.counted_of_visits he.counted, hstate⟩

/-- What the simulator relies on when it has an action carried out. -/
structure Obeys (d : Document) (config : Config) (e : Engine) (action : Action)
    (reply : Except Error Reply) (e' : Engine) : Prop where
  acts : Acts (d.contract config) e action reply e'
  unchanged : reply = .ok (.response .none) ∨ (∃ cause, reply = .error cause) → e' = e
  accepted : .accepted ∈ replyOutcomes e reply → action = .press .both ∧ e.position = .approve

variable {u : Sitting Engine (Recorded Unit)}

theorem Busy.obeys_press (he : Busy d config u.machine) (button : Button) :
    ((Action.press button).perform (Document.provider.fixed ⟨d, none⟩).recorded).Ensures u
      fun reply u' => Obeys d config u.machine (.press button) reply u'.machine := by
  have hp := d.honours_contract config
  have hacts := Engine.perform_ensures hp he.sound (.press button)
  simp only [Action.perform, Engine.Loader.perform, Operation.ensures_map] at hacts ⊢
  have htold := Engine.press_told hp he.sound button
  have hquiet : (button.press (Document.provider.fixed ⟨d, none⟩).recorded).Ensures u fun _ u' =>
      button ≠ .both → u'.content.conclusions = u.content.conclusions := by
    by_cases hboth : button = .both
    · exact htold.mono fun _ _ _ h => absurd hboth h
    · exact (Engine.press_quiet hp he.sound hboth).mono fun _ _ h _ => h
  have hstands := Engine.press_stands hp he.sound (d.determined_contract config)
    (Document.plain.fixed ⟨d, none⟩) button
  refine ((hacts.and htold).and (hquiet.and hstands)).mono fun r u' hr => ?_
  obtain ⟨⟨hacts, response, rfl, htold⟩, hquiet, response', heq, hnone⟩ := hr
  cases heq
  refine ⟨hacts, ?_, fun haccepted => ⟨?_, hacts.position_of_accepted he.sound haccepted⟩⟩
  · rintro (hreply | ⟨cause, hreply⟩)
    · cases hreply
      exact hnone rfl
    · cases hreply
  · by_cases hboth : button = .both
    · rw [hboth]
    · rw [hquiet hboth, List.self_eq_append_left] at htold
      exact absurd haccepted (by simp [replyOutcomes, Except.map, htold])

theorem Busy.obeys_take (he : Busy d config u.machine) {event : Event}
    (hevent : event = .reject ∨ event = .inspectBack ∨ event = .inspectRoot) :
    ((Action.take event).perform (Document.provider.fixed ⟨d, none⟩).recorded).Ensures u
      fun reply u' => Obeys d config u.machine (.take event) reply u'.machine := by
  have hp := d.honours_contract config
  have hacts := Engine.perform_ensures hp he.sound (.take event)
  simp only [Action.perform, Engine.Loader.perform, Operation.ensures_map] at hacts ⊢
  have hsafe := Engine.update_safe hp he.sound (d.reliable_contract config) he.counted hevent
  refine (hacts.and hsafe).mono fun r u' hr => ?_
  obtain ⟨hacts, hunchanged, haccepted⟩ := hr
  refine ⟨hacts, ?_, fun h => absurd ?_ haccepted⟩
  · cases r with
    | ok out => simp [Except.map]
    | error cause => exact fun _ => hunchanged cause rfl
  · cases r <;> exact h

theorem busy_of_begin (d : Document) (config : Config) (modes : Modes) (kind : Kind)
    (confirmation : Bool) (intent : Option String) :
    ((Action.begin kind confirmation intent).perform
      (Document.provider.fixed ⟨d, none⟩).recorded).Ensures
      ⟨Engine.startWith config modes, ⟨(), []⟩, []⟩
      fun _ u => Busy d config u.machine ∧ u.content.conclusions = [] := by
  have hp := d.honours_contract config
  have he : Sound (d.contract config) (Engine.startWith config modes) :=
    (Engine.sound_start Field.clean_blank).withModes modes
  simp only [Action.perform, Engine.Loader.perform, Operation.ensures_map]
  have hbegin : (Engine.begin (Document.provider.fixed ⟨d, none⟩).recorded kind confirmation
      intent).Ensures ⟨Engine.startWith config modes, ⟨(), []⟩, []⟩ _ := Engine.begin_ensures hp he
  obtain ⟨r, u, hu, hyields⟩ := hbegin
  refine ⟨r, u, hu, ?_, (Engine.silent_begin _ _ _ _ _ _ _ hu).conclusions⟩
  cases r with
  | ok out =>
    have hstate := Engine.Begins.state hyields
    exact ⟨Engine.sound_of_begins he hyields,
      Engine.inspected_of_state (by rcases hstate with h | h <;> simp [h]),
      by rcases hstate with h | h <;> simp [h]⟩
  | error cause =>
    rcases hyields with ⟨-, hnot, -⟩ | ⟨haborted, -⟩
    · exact absurd rfl hnot
    · exact ⟨Engine.sound_of_aborted haborted he.config,
        Engine.inspected_of_state (by simp [haborted.state]), by simp [haborted.state]⟩

end Document
end WalletReview
