import WalletReview.Proofs.Busy
import WalletReview.Simulator.Run

/-! Runs of the simulator over what the user types. The simulator tells no end of a review apart by
itself: it stops because of what a button answers, or because it finds the engine idle, and draws
the screen anew where it is told to. All the same it stops exactly at the end of the review, and
what it has drawn last is what the engine shows. -/
namespace WalletReview

namespace Simulator

open Engine (Action Reply replyOutcomes)

variable {config : Config}

theorem Command.event_of_parse? {line : String} {event : Event}
    (h : Command.parse? line = some (.event event)) :
    event = .reject ∨ event = .inspectBack ∨ event = .inspectRoot := by
  unfold Command.parse? at h
  split at h <;> cases h <;> simp

def Command.action? : Command → Option Action
  | .button b => some (.press b)
  | .event e => some (.take e)
  | .quit => none

def Shown.isScreen : Shown → Bool
  | .screen _ _ => true
  | _ => false

namespace Simulation

def screen (t : Simulation) : Shown :=
  .screen t.sitting.machine.config.lineLength t.sitting.machine.display

def lastScreen? (t : Simulation) : Option Shown := t.shown.find? (·.isScreen)

def told (t : Simulation) (c : Command) : List Outcome :=
  match c.action? with
  | some action => Document.told action t.sitting
  | none => []

/-- The simulation after an operation, with the notices that have come of it. -/
def past (t : Simulation) (s : Sitting Engine Document.Reading) : Simulation :=
  ⟨{ s with journal := [] }, s.journal.map .notice ++ t.shown⟩

def putting (t : Simulation) (s : Shown) : Simulation := { t with shown := s :: t.shown }

theorem lastScreen?_putting (t : Simulation) {s : Shown} (h : s.isScreen = false) :
    (t.putting s).lastScreen? = t.lastScreen? := by
  simp [lastScreen?, putting, h]

theorem lastScreen?_screen (t : Simulation) :
    (t.putting t.screen).lastScreen? = some t.screen := rfl

theorem lastScreen?_past (t : Simulation) (s : Sitting Engine Document.Reading) :
    (t.past s).lastScreen? = t.lastScreen? := by
  have hnotices : (s.journal.map Shown.notice).find? (·.isScreen) = none := by
    simp [List.find?_eq_none, Shown.isScreen]
  simp [lastScreen?, past, List.find?_append, hnotices]

end Simulation

variable {t : Simulation} {s : Sitting Engine Document.Reading}

theorem bind_eq {α β : Type} {step : Step α} {next : α → Step β} {a : α} {t' : Simulation}
    (h : step t = .ok (a, t')) : (step >>= next) t = next a t' := by
  change (step t >>= fun r => next r.1 r.2) = _
  rw [h]
  rfl

theorem perform_eq {α : Type} {op : Operation Engine Document.Reading α} {r : Except Error α}
    (h : op t.sitting = .ok (r, s)) : perform op t = .ok (r, t.past s) := by
  simp only [perform, h]
  rfl

theorem handle_button {button : Button} {response : Response Bool}
    (h : button.press Document.provider t.sitting = .ok (.ok response, s)) :
    handle (.button button) t = .ok (match response with
      | .none => (s.machine.position == .idle, t.past s)
      | .update => (s.machine.position == .idle, (t.past s).putting (t.past s).screen)
      | .exit approved => (true, (t.past s).putting
        (.notice (.remark .info (if approved then "review approved" else "review closed"))))) := by
  rw [handle, bind_eq (perform_eq h)]
  cases response <;> rfl

theorem handle_event {event : Event} {r : Except Error Output}
    (h : Engine.update Document.provider event t.sitting = .ok (r, s)) :
    handle (.event event) t = .ok (s.machine.position == .idle, match r with
      | .ok _ => (t.past s).putting (t.past s).screen
      | .error cause => (t.past s).putting
        (.notice (.remark .warn ("event rejected: " ++ cause.message)))) := by
  rw [handle, bind_eq (perform_eq h)]
  cases r <;> rfl

variable {c : Command} {action : Action} {reply : Except Error Reply} {stop : Bool}
  {t' : Simulation}

structure Performed (config : Config) (t : Simulation) (c : Command) (action : Action)
    (reply : Except Error Reply) (s : Sitting Engine Document.Reading) : Prop where
  perform : action.perform Document.provider t.sitting = .ok (reply, s)
  obeys : t.sitting.content.document.Obeys config t.sitting.machine action reply s.machine
  told : t.told c = replyOutcomes t.sitting.machine reply
  document : s.content.document = t.sitting.content.document
  outcome : s.content.outcome = (t.told c).head?.or t.sitting.content.outcome

theorem exists_performed
    (he : t.sitting.content.document.Busy config t.sitting.machine) (hc : c.action? = some action)
    (h : (action.perform
        (Document.provider.fixed ⟨t.sitting.content.document, none⟩).recorded).Ensures
      ⟨t.sitting.machine, ⟨(), []⟩, []⟩ fun reply u =>
        t.sitting.content.document.Obeys config t.sitting.machine action reply u.machine) :
    ∃ reply s, Performed config t c action reply s := by
  have htold := Engine.perform_told (t := ⟨t.sitting.machine, ⟨(), []⟩, []⟩)
    (t.sitting.content.document.honours_contract config) he.sound action
  obtain ⟨reply, u, s, ⟨hobeys, hconclusions, -⟩, hs, hmachine, hdocument, houtcome, heard⟩ :=
    Document.exists_perform action t.sitting (h.and htold)
  have htold : t.told c = u.content.conclusions := by
    rw [← heard, Simulation.told, hc]
  refine ⟨reply, s, hs, hmachine ▸ hobeys, ?_, hdocument, htold ▸ houtcome⟩
  rw [htold, hconclusions]
  exact List.append_nil _

/-- What a command does. The simulator stops exactly at the end of a review, or where the user
leaves. -/
structure Handled (t : Simulation) (c : Command) (stop : Bool) (t' : Simulation) : Prop where
  stops : stop = true ↔ c = .quit ∨ t.told c ≠ []
  once : (t.told c).length ≤ 1
  outcome : t'.sitting.content.outcome = (t.told c).head?.or t.sitting.content.outcome
  accepted : .accepted ∈ t.told c → c = .button .both ∧ t.sitting.machine.position = .approve
  shown : stop = false → t'.lastScreen? = some t'.screen

structure Waits (config : Config) (t : Simulation) : Prop where
  busy : t.sitting.content.document.Busy config t.sitting.machine
  outcome : t.sitting.content.outcome = none
  shown : t.lastScreen? = some t.screen

theorem Performed.idle_iff (h : Performed config t c action reply s) (ht : Waits config t) :
    s.machine.state = .idle ↔ t.told c ≠ [] := by
  rw [h.told]
  exact h.obeys.acts.idle_iff ht.busy.sound ht.busy.state

theorem Performed.stops_iff (h : Performed config t c action reply s) (ht : Waits config t) :
    (s.machine.position == .idle) = true ↔ t.told c ≠ [] := by
  rw [beq_iff_eq, (Engine.sound_of_acts ht.busy.sound h.obeys.acts).position_eq_idle_iff]
  exact h.idle_iff ht

theorem Performed.handled (h : Performed config t c action reply s) (ht : Waits config t)
    (hc : c.action? = some action) (hmachine : t'.sitting.machine = s.machine)
    (hcontent : t'.sitting.content = s.content) (hstop : stop = true ↔ t.told c ≠ [])
    (hshown : stop = false → t'.lastScreen? = some t'.screen) :
    Handled t c stop t' ∧ (stop = false → Waits config t') := by
  have hquit : c ≠ .quit := fun hquit => by
    rw [hquit] at hc
    cases hc
  refine ⟨⟨by simp [hstop, hquit], ?_, hcontent ▸ h.outcome, fun haccepted => ?_, hshown⟩,
    fun hgo => ?_⟩
  · rw [h.told]
    exact Engine.length_replyOutcomes_le _ _
  · rw [h.told] at haccepted
    obtain ⟨rfl, hposition⟩ := h.obeys.accepted haccepted
    refine ⟨?_, hposition⟩
    cases c <;> cases hc
    rfl
  · have htold : t.told c = [] := by
      simpa [hgo] using hstop
    have hbusy : t.sitting.content.document.Busy config s.machine :=
      ht.busy.of_acts h.obeys.acts fun hidle => (h.idle_iff ht).1 hidle htold
    refine ⟨?_, ?_, hshown hgo⟩
    · rw [hmachine, hcontent, h.document]
      exact hbusy
    · rw [hcontent, h.outcome, htold, ht.outcome]
      rfl

theorem Simulation.shown_past (ht : Waits config t) (hs : s.machine = t.sitting.machine) :
    (t.past s).lastScreen? = some (t.past s).screen := by
  have hscreen : (t.past s).screen = t.screen := by
    simp [screen, past, hs]
  rw [lastScreen?_past, hscreen, ht.shown]

theorem handle_ensures {line : String} {c : Command} (ht : Waits config t)
    (hc : Command.parse? line = some c) : ∃ stop t', handle c t = .ok (stop, t') ∧
      Handled t c stop t' ∧ (stop = false → Waits config t') := by
  cases c with
  | quit =>
    exact ⟨true, t, rfl, ⟨by simp, Nat.zero_le _, rfl, nofun, nofun⟩, nofun⟩
  | button b =>
    obtain ⟨reply, s, h⟩ := exists_performed (c := .button b) ht.busy rfl (ht.busy.obeys_press b)
    obtain ⟨r, hpress, rfl⟩ := Operation.exists_of_map_eq_ok h.perform
    obtain ⟨response, rfl⟩ := Button.upholds_press b t.sitting r s hpress
    refine ⟨_, _, handle_button hpress, ?_⟩
    cases response with
    | none =>
      exact h.handled ht rfl rfl rfl (h.stops_iff ht)
        fun _ => Simulation.shown_past ht (h.obeys.unchanged (Or.inl rfl))
    | update =>
      exact h.handled ht rfl rfl rfl (h.stops_iff ht)
        fun _ => Simulation.lastScreen?_screen (t.past s)
    | exit approved =>
      refine h.handled ht rfl rfl rfl ?_ nofun
      have hsome : t.told (.button b) ≠ [] := by
        rw [h.told]
        cases approved with
        | true => exact List.cons_ne_nil _ _
        | false =>
          simp only [Except.map, replyOutcomes, Reply.outcomes]
          split <;> exact List.cons_ne_nil _ _
      simp [hsome]
  | event e =>
    have hevent := Command.event_of_parse? hc
    obtain ⟨reply, s, h⟩ := exists_performed (c := .event e) ht.busy rfl (ht.busy.obeys_take hevent)
    obtain ⟨r, hupdate, rfl⟩ := Operation.exists_of_map_eq_ok h.perform
    refine ⟨_, _, handle_event hupdate, ?_⟩
    cases r with
    | ok out =>
      exact h.handled ht rfl rfl rfl (h.stops_iff ht)
        fun _ => Simulation.lastScreen?_screen (t.past s)
    | error cause =>
      exact h.handled ht rfl rfl rfl (h.stops_iff ht)
        fun _ => Simulation.shown_past ht (h.obeys.unchanged (Or.inr ⟨cause, rfl⟩))

theorem openReview_eq (o : Options) (config : Config) (d : Document) {r : Except Error Output}
    (h : Engine.begin Document.provider o.kind o.confirm o.intent
      ⟨Engine.startWith config (modes o), { document := d }, []⟩ = .ok (r, s)) :
    ∃ t, openReview o (.start config d) = .ok ((), t) ∧ t.sitting = { s with journal := [] } ∧
      t.lastScreen? = some t.screen := by
  let t₁ : Simulation := ⟨⟨Engine.startWith config (modes o), { document := d }, []⟩,
    [.notice (.remark .info ("Reviewing " ++ toString d.items.length ++ " item(s) on " ++
      o.device.name ++ " (" ++ config.terminal.name ++ ")"))]⟩
  change ∃ t, (perform _ t₁ >>= _) = _ ∧ _
  rw [perform_eq (t := t₁) h]
  cases r with
  | ok out => exact ⟨((t₁.past s).putting (t₁.past s).screen).putting .help, rfl, rfl, rfl⟩
  | error cause =>
    exact ⟨(((t₁.past s).putting (.notice (.remark .warn
      ("review failed to start: " ++ cause.message)))).putting (t₁.past s).screen).putting .help,
      rfl, rfl, rfl⟩

theorem openReview_ensures (o : Options) (config : Config) (d : Document) :
    ∃ t, openReview o (.start config d) = .ok ((), t) ∧ Waits config t := by
  obtain ⟨reply, u, s, ⟨hbusy, hconclusions⟩, hs, hmachine, hdocument, houtcome, -⟩ :=
    Document.exists_perform (.begin o.kind o.confirm o.intent)
      ⟨Engine.startWith config (modes o), { document := d }, []⟩
      (d.busy_of_begin config (modes o) o.kind o.confirm o.intent)
  obtain ⟨r, hbegin, -⟩ := Operation.exists_of_map_eq_ok hs
  obtain ⟨t, hopen, hsitting, hshown⟩ := openReview_eq o config d hbegin
  refine ⟨t, hopen, ?_, ?_, hshown⟩
  · rw [hsitting]
    simp only [hdocument, hmachine]
    exact hbusy
  · rw [hsitting]
    simp only [houtcome, hconclusions]
    rfl

structure Turn where
  line : String
  before : Simulation
  stop : Bool
  after : Simulation

def Turn.told (y : Turn) : List Outcome :=
  match Command.parse? y.line with
  | some c => y.before.told c
  | none => []

/-- What comes of a line. One that is no command has the help shown, and nothing else. -/
structure Turn.Accounted (y : Turn) : Prop where
  handled (c : Command) : Command.parse? y.line = some c →
    handle c y.before = .ok (y.stop, y.after) ∧ Handled y.before c y.stop y.after
  unknown : Command.parse? y.line = none → y.stop = false ∧ y.after.sitting = y.before.sitting ∧
    y.after.lastScreen? = some y.after.screen

theorem Turn.Accounted.told_eq {y : Turn} (h : y.Accounted) (hgo : y.stop = false) :
    y.told = [] := by
  cases hc : Command.parse? y.line with
  | none => rw [Turn.told, hc]
  | some c =>
    obtain ⟨-, hstops, -⟩ := h.handled c hc
    rw [hgo] at hstops
    simp only [Turn.told, hc]
    simpa using fun htold => hstops.2 (Or.inr htold)

/-- Where there was no end of a review before, what the provider learns of is what it keeps. -/
theorem Turn.Accounted.told_eq_toList {y : Turn} (h : y.Accounted)
    (hnone : y.before.sitting.content.outcome = none) :
    y.told = y.after.sitting.content.outcome.toList := by
  cases hc : Command.parse? y.line with
  | none =>
    obtain ⟨-, hsitting, -⟩ := h.unknown hc
    rw [Turn.told, hc, hsitting, hnone]
    rfl
  | some c =>
    obtain ⟨-, hhandled⟩ := h.handled c hc
    have hlist (told : List Outcome) (honce : told.length ≤ 1) : told = told.head?.toList := by
      match told, honce with
      | [], _ => rfl
      | [outcome], _ => rfl
    simp only [Turn.told, hc, hhandled.outcome, hnone, Option.or_none]
    exact hlist _ hhandled.once

theorem Turn.Accounted.of_accepted {y : Turn} (h : y.Accounted) (haccepted : .accepted ∈ y.told) :
    Command.parse? y.line = some (.button .both) ∧
      y.before.sitting.machine.position = .approve := by
  cases hc : Command.parse? y.line with
  | none => simp [Turn.told, hc] at haccepted
  | some c =>
    obtain ⟨-, hhandled⟩ := h.handled c hc
    simp only [Turn.told, hc] at haccepted
    obtain ⟨rfl, hposition⟩ := hhandled.accepted haccepted
    exact ⟨rfl, hposition⟩

/-- The turns of the simulator over lines, the earliest first, up to one that stops it or to the
last line. -/
inductive Course : Simulation → List String → List Turn → Simulation → Prop
  | done (t : Simulation) : Course t [] [] t
  | stop {t t' : Simulation} {line : String} (rest : List String) :
    takeLine line t = .ok (true, t') →
    Course t (line :: rest) [⟨line, t, true, t'⟩] t'
  | next {t t' t'' : Simulation} {line : String} {rest : List String} {turns : List Turn} :
    takeLine line t = .ok (false, t') → Course t' rest turns t'' →
    Course t (line :: rest) (⟨line, t, false, t'⟩ :: turns) t''

theorem Course.takeLines {lines : List String} {turns : List Turn} (h : Course t lines turns t') :
    takeLines lines t = .ok ((), t') := by
  induction h with
  | done => rfl
  | stop rest htake =>
    rw [Simulator.takeLines, bind_eq htake]
    rfl
  | next htake _ ih =>
    rw [Simulator.takeLines, bind_eq htake]
    exact ih

theorem takeLine_ensures (ht : Waits config t) (line : String) :
    ∃ stop t', takeLine line t = .ok (stop, t') ∧ Turn.Accounted ⟨line, t, stop, t'⟩ ∧
      (stop = false → Waits config t') := by
  cases hc : Command.parse? line with
  | none =>
    have hshown : (t.putting .help).lastScreen? = some (t.putting .help).screen :=
      (t.lastScreen?_putting rfl).trans ht.shown
    have htake : takeLine line t = .ok (false, t.putting .help) := by
      simp only [takeLine, hc]
      rfl
    exact ⟨false, t.putting .help, htake, ⟨by simp [hc], fun _ => ⟨rfl, rfl, hshown⟩⟩,
      fun _ => ⟨ht.busy, ht.outcome, hshown⟩⟩
  | some c =>
    obtain ⟨stop, t', hhandle, hhandled, hwaits⟩ := handle_ensures ht hc
    have htake : takeLine line t = .ok (stop, t') := by
      simp only [takeLine, hc]
      exact hhandle
    refine ⟨stop, t', htake, ⟨fun c' hc' => ?_, by simp [hc]⟩, hwaits⟩
    cases hc.symm.trans hc'
    exact ⟨hhandle, hhandled⟩

/-- What the turns of a run add up to. The provider learns of one end of a review at most, which is
the one that it keeps, and of an approval only from the last line. -/
structure Accounted (turns : List Turn) (t : Simulation) : Prop where
  turn : ∀ y ∈ turns, y.Accounted
  told : turns.flatMap Turn.told = t.sitting.content.outcome.toList
  accepted : t.sitting.content.outcome = some .accepted → ∃ y, turns.getLast? = some y ∧
    Command.parse? y.line = some (.button .both) ∧ y.before.sitting.machine.position = .approve

theorem exists_course (ht : Waits config t) (lines : List String) :
    ∃ turns t', Course t lines turns t' ∧ Accounted turns t' := by
  -- A line that does not stop the simulator leaves it waiting for the next one.
  induction lines generalizing t with
  | nil =>
    refine ⟨[], t, .done t, List.forall_mem_nil _, ?_, fun h => ?_⟩
    · rw [ht.outcome]
      rfl
    · cases ht.outcome.symm.trans h
  | cons line rest ih =>
    obtain ⟨stop, t', htake, hturn, hwaits⟩ := takeLine_ensures ht line
    cases stop with
    | true =>
      refine ⟨_, t', .stop rest htake, List.forall_mem_singleton.2 hturn, ?_, fun haccepted => ?_⟩
      · rw [List.flatMap_singleton]
        exact hturn.told_eq_toList ht.outcome
      · refine ⟨_, rfl, hturn.of_accepted ?_⟩
        rw [hturn.told_eq_toList ht.outcome]
        simp [haccepted]
    | false =>
      obtain ⟨turns, t'', hcourse, haccounted⟩ := ih (hwaits rfl)
      refine ⟨_, t'', .next htake hcourse, List.forall_mem_cons.2 ⟨hturn, haccounted.turn⟩, ?_,
        fun haccepted => ?_⟩
      · rw [List.flatMap_cons, hturn.told_eq rfl, List.nil_append, haccounted.told]
      · obtain ⟨y, hlast, hy⟩ := haccounted.accepted haccepted
        exact ⟨y, by rw [List.getLast?_cons, hlast]; rfl, hy⟩

/-- Over any lines, the simulator stops at the end of the review, if it comes to one, and learns of
no other; wherever it goes on, the screen that was shown last is that of the engine. -/
theorem accounted_of_lines (o : Options) (config : Config) (d : Document) (lines : List String) :
    ∃ t turns t', openReview o (.start config d) = .ok ((), t) ∧
      t.sitting.content.outcome = none ∧ t.lastScreen? = some t.screen ∧
      takeLines lines t = .ok ((), t') ∧ Course t lines turns t' ∧ Accounted turns t' := by
  obtain ⟨t, hopen, hwaits⟩ := openReview_ensures o config d
  obtain ⟨turns, t', hcourse, haccounted⟩ := exists_course hwaits lines
  exact ⟨t, turns, t', hopen, hwaits.outcome, hwaits.shown, hcourse.takeLines, hcourse, haccounted⟩

/-- An item is read, and its review approved with both buttons; the last line is not taken. -/
theorem accounted_of_lines_approved : ∃ o d t turns t',
    openReview o (.start .stax d) = .ok ((), t) ∧ Course t ["", " b ", "l"] turns t' ∧
      turns.flatMap Turn.told = [.accepted] ∧ ∃ y, turns.getLast? = some y ∧
        Command.parse? y.line = some (.button .both) ∧
          y.before.sitting.machine.position = .approve := by
  let o : Options := ⟨"document", .stax, none, .transaction, false, false, false, none, none⟩
  let d : Document := ⟨none, [.leaf ⟨"To", "bob"⟩]⟩
  have houtcome : ((openReview o >>= fun _ => takeLines ["", " b ", "l"])
      (.start .stax d)).toOption.map (·.2.sitting.content.outcome) = some (some .accepted) := by
    decide +kernel
  obtain ⟨t, turns, t', hopen, -, -, htake, hcourse, haccounted⟩ :=
    accounted_of_lines o .stax d ["", " b ", "l"]
  rw [bind_eq hopen, htake] at houtcome
  have haccepted : t'.sitting.content.outcome = some .accepted := Option.some.inj houtcome
  exact ⟨o, d, t, turns, t', hopen, hcourse, by rw [haccounted.told, haccepted]; rfl,
    haccounted.accepted haccepted⟩

/-- All that is printed of such a review. -/
example : (run none (fun _ => some "\x7b\"items\":[\x7b\"key\":\"To\",\"value\":\"bob\"\x7d]\x7d")
    ["document", "--device", "stax", "--log-level", "info"] "r\n b \r\n").output = unlines
      ["[INFO] Reviewing 1 item(s) on stax (Dedicated)",
        "+----------------------------------+",
        "| To                               |",
        "| bob                              |",
        "+----------------------------------+",
        "[l]eft, [r]ight, [b]oth, reject [x], inspect [u]p / [t]op, [q]uit",
        "+----------------------------------+",
        "| Sign transaction?                |",
        "|                                  |",
        "+----------------------------------+",
        "[INFO] review accepted",
        "[INFO] review approved",
        "[INFO] Review complete: Accepted"] := by
  decide +kernel

end Simulator
end WalletReview
