import WalletReview.Proofs.Browsing
import WalletReview.Proofs.Documents
import WalletReview.Proofs.Residue

/-! Reviews of documents are not given up. Every question that a review comes to is one that the
document has an answer to, so that an error screen comes up only if it is asked for. -/
namespace WalletReview

variable {σ : Type} {config : Config} {pages : List UInt8} {x : Content} {p : Provider σ}
  {leave : List UInt8 → UInt8 → Bool} {path : List UInt8}

inductive Tree.Narrow {α : Type} : Tree α → Prop
  | node {value : α} {children : List (Tree α)} : children.length ≤ 255 →
    (∀ child ∈ children, Narrow child) → Narrow (.node value children)

namespace Tree

variable {α : Type} {trees : List (Tree α)} {tree : Tree α}

theorem Narrow.length_le (h : tree.Narrow) : tree.children.length ≤ 255 := by
  cases h
  assumption

theorem narrow_leaf (value : α) : (leaf value).Narrow := .node (Nat.zero_le _) nofun

theorem Narrow.find (h : ∀ tree ∈ trees, tree.Narrow) (hfind : find? path trees = some tree) :
    tree.Narrow := by
  induction path generalizing trees with
  | nil => cases hfind
  | cons index rest ih =>
    cases rest with
    | nil => exact h tree (List.mem_of_getElem? hfind)
    | cons child rest =>
      simp only [find?] at hfind
      split at hfind
      · rename_i above habove
        cases h above (List.mem_of_getElem? habove) with
        | node _ hchildren => exact ih hchildren hfind
      · cases hfind

end Tree

namespace Document

/-- A byte can count the children of every item, down to the last level. -/
def Narrow (d : Document) : Prop := ∀ item ∈ d.items, item.Narrow

def inspectable (d : Document) (path : List UInt8) (child : UInt8) : Bool :=
  match Tree.find? (path ++ [child]) d.items with
  | some item => !item.children.isEmpty
  | none => false

theorem exists_of_inspectable {d : Document} {child : UInt8} (h : d.inspectable path child = true) :
    ∃ item, Tree.find? (path ++ [child]) d.items = some item := by
  unfold inspectable at h
  split at h
  · exact ⟨_, ‹_›⟩
  · cases h

theorem nested (d : Document) (h : d.Narrow) (config : Config) :
    (provider.fixed ⟨d, none⟩).Nested config (d.content config) d.inspectable where
  presents := d.presents config
  canInspect path child _ := by
    simp only [Provider.fixed, provider, inspectable]
    cases Tree.find? (path ++ [child]) d.items <;> rfl
  childCount path _ hpath := by
    obtain ⟨item, hitem⟩ := hpath.exists_find fun _ _ => exists_of_inspectable
    have hcount := (Tree.Narrow.find h hitem).length_le
    simp only [Provider.fixed, provider, content, hitem, Option.map_some, Option.getD_some]
    exact if_pos (Nat.lt_succ_of_le hcount)
  child path child page _ hpath hlt := by
    obtain ⟨item, hitem⟩ := hpath.exists_find fun _ _ => exists_of_inspectable
    have hchild : child.toNat < item.children.length := by
      simp only [content, hitem, Option.map_some, Option.getD_some, UInt8.lt_iff_toNat_lt,
        UInt8.toNat_ofNat'] at hlt
      exact Nat.lt_of_lt_of_le hlt (Nat.mod_le _ _)
    have hbelow : Tree.childBelow? path child d.items = some item.children[child.toNat] := by
      simp [Tree.childBelow?, hitem, hchild]
    simp only [Provider.fixed, provider, content, hbelow, writeItem, Option.map_some,
      Option.getD_some]
    rfl

def call : Document := ⟨none, [.node ⟨"Call", "transfer"⟩ [.leaf ⟨"To", "Alice"⟩]]⟩

theorem narrow_call : call.Narrow := by
  refine List.forall_mem_singleton.2 (.node (by decide) ?_)
  exact List.forall_mem_singleton.2 (Tree.narrow_leaf _)

end Document

def Contract.whole (config : Config) (pages : List UInt8) (x : Content)
    (leave : List UInt8 → UInt8 → Bool) : Contract config :=
  { Contract.constant config pages x with
    childCount := (Contract.nested config x leave).childCount
    child := (Contract.nested config x leave).child
    canInspect := (Contract.nested config x leave).canInspect }

theorem Provider.Constant.honours_whole (h : p.Constant config pages x)
    (hnested : p.Nested config x leave) : p.Honours (Contract.whole config pages x leave) :=
  { h.honours with
    childCount := hnested.honours.childCount
    child := hnested.honours.child
    canInspect := hnested.honours.canInspect }

namespace Contract

theorem whole_refines :
    (Contract.whole config pages x leave).Refines (Contract.constant config pages x) where
  field _ h := h
  itemCount _ h := h
  item _ _ _ _ h := h
  title _ _ h := h

theorem not_fails_whole : ¬(Contract.whole config pages x leave).Fails :=
  fun h => not_fails_constant (h.mono whole_refines)

theorem not_failsBelow_whole (hpath : Validated leave path) :
    ¬Engine.FailsBelow (Contract.whole config pages x leave) path := by
  intro h
  have hnested : ¬Engine.FailsBelow (Contract.nested config x leave) path :=
    not_failsBelow_nested hpath
  cases h with
  | childCount h => exact hnested (.childCount h)
  | child hcount hlt h => exact hnested (.child hcount hlt h)

end Contract

namespace Engine

variable {e e' : Engine} {action : Action} {reply : Except Error Reply}

theorem OnCourse.not_hazards (hcourse : e.OnCourse x leave) (hidle : e.state ≠ .idle) :
    ¬Hazards (Contract.whole config pages x leave) e := by
  rintro (⟨hstate, -⟩ | h)
  · exact hidle hstate
  have hvalid {s : Session} {i : Inspection} (hi : e.Inspects s i) : Validated leave i.chain :=
    (hcourse s i hi).reached.validated
  cases h with
  | list _ h => exact Contract.not_fails_whole h
  | enter _ _ _ hleave h => exact Contract.not_failsBelow_whole (.item hleave.symm) h
  | descend hi hleave henter h =>
    refine Contract.not_failsBelow_whole ?_ h
    rw [Inspection.chain_of_enter henter]
    exact .child (hvalid hi) hleave.symm
  | @ascend s i i' hi hascend h =>
    obtain ⟨child, hchain, -⟩ := Inspection.of_ascend hascend
    have hreached := (hcourse s i hi).reached
    rw [hchain] at hreached
    exact Contract.not_failsBelow_whole (hreached.of_append i'.chain_ne_nil).1.validated h
  | within hi h => exact Contract.not_failsBelow_whole (hvalid hi) h

/-- An action that does not ask for an error screen does not bring one up, if there is no danger. -/
theorem Acts.state_ne_error {C : Contract config} (h : Acts C e action reply e') (he : Sound C e)
    (haction : action.errorText? = none) (hsafe : ¬Hazards C e) (hstate : e.state ≠ .error) :
    e'.state ≠ .error := by
  intro herror
  have hs := (sound_of_acts he h).session_eq_none (Or.inr herror)
  cases clears_of_acts h hs with
  | same => exact hstate herror
  | aborted _ hwhy => exact hsafe hwhy
  | ended h => cases h <;> cases herror
  | shown htext => cases haction.symm.trans htext

theorem Course.unfailing (hp : p.Constant config pages x) (hnested : p.Nested config x leave)
    {s t : Sitting Engine σ} {before steps : List Step} (h : Course p s steps t)
    (hrun : Run p config before s) (hstate : s.machine.state ≠ .error)
    (hsteps : ∀ y ∈ steps, y.action.errorText? = none ∧ y.before.state ≠ .idle) :
    ∀ y ∈ steps, y.after.state ≠ .error ∧ ∀ cause, y.reply = .error cause → cause ∈ refusals := by
  induction h generalizing before with
  | nil => simp
  | @cons s s' _ reply steps action hact _ ih =>
    obtain ⟨⟨haction, hidle⟩, hrest⟩ := List.forall_mem_cons.1 hsteps
    have hhonours := hp.honours_whole hnested
    have he := hrun.sound hhonours Field.clean_blank
    have hacts := hrun.acts hhonours Field.clean_blank hact
    have hsafe : ¬Hazards (Contract.whole config pages x leave) s.machine :=
      (hrun.onCourse hnested).not_hazards hidle
    have hnext := hacts.state_ne_error he haction hsafe hstate
    refine List.forall_mem_cons.2 ⟨⟨hnext, fun cause hreply => ?_⟩,
      ih (.act action hrun hact) hnext hrest⟩
    simp only at hreply
    rw [hreply] at hacts
    rcases hacts.refused with ⟨-, hcause⟩ | ⟨-, hwhy⟩
    · exact hcause
    · exact absurd hwhy hsafe

section

variable {C : Contract config} {kind : Kind} {confirmation : Bool} {intent : Option String}
  {out : Output}

theorem Begins.room (h : Begins C e kind confirmation intent out e') :
    ∃ count, C.itemCount (.ok count) ∧
      count.toNat + (introScreens kind e.modes e.config.titleScreen).length +
        e.config.terminal.trailing.toNat ≤ 255 := by
  cases h with
  | @begin count _ _ _ hfits =>
    obtain ⟨text, -, hnew⟩ := e.newSession_eq kind confirmation intent count
    have hcounted := hfits.counted
    have hroom := hfits.room
    rw [hnew] at hcounted hroom
    refine ⟨count, hcounted, ?_⟩
    simp only [Session.start] at hroom
    omega

end

/-- There is room for a review exactly if a byte counts the items, and then all screens. -/
theorem begin_document_iff {t : Sitting Engine Document.Reading} {steps : List Step}
    (h : Run Document.provider config steps t) (hidle : t.machine.state = .idle) (kind : Kind)
    (confirmation : Bool) (intent : Option String) :
    (∃ t₀, begin Document.provider kind confirmation intent t = .ok (.ok .redraw, t₀)) ↔
      t.content.document.items.length ≤ 255 ∧
      t.content.document.items.length +
        (introScreens kind t.machine.modes config.titleScreen).length +
        config.terminal.trailing.toNat ≤ 255 := by
  constructor
  · rintro ⟨t₀, hbegin⟩
    have hlength := length_lt_of_begin hbegin
    have hp := t.content.document.constant hlength config
    obtain ⟨_, s₀, hrun, hbegin', -⟩ := exists_fixed h hbegin
    have hyields := (begin_ensures hp.honours (hrun.constant hp)).of_eq hbegin'
    obtain ⟨_, ⟨count, hcount, hitems⟩, hroom⟩ := Begins.room hyields
    cases hcount
    rw [hitems, Document.layout, List.length_map] at hroom
    exact ⟨Nat.le_of_lt_succ hlength, hroom⟩
  · rintro ⟨hlength, hroom⟩
    have he := h.sound (Contract.honours_any _ config) trivial
    have hp := t.content.document.constant (Nat.lt_succ_of_le hlength) config
    obtain ⟨_, hrun⟩ := exists_run_startWith
      (Document.provider.fixed ⟨t.content.document, none⟩) () config t.machine.modes
    obtain ⟨s₀, hbegin⟩ := exists_begin hp hrun rfl kind confirmation intent
      (by rwa [Document.layout, List.length_map])
    obtain ⟨r, t₀, hbegin', -⟩ :=
      begin_ensures (Contract.honours_any Document.provider config) he
    obtain ⟨s₁, hbegin'', -⟩ := begin_fixed he hidle hbegin'
    cases hbegin.symm.trans hbegin''
    exact ⟨t₀, hbegin'⟩

/-- The review of a document in which a byte counts the children of every node begins exactly if
there is room for its screens. Until it is over nothing brings up an error screen but an action that
asks for one, and what is refused is not available. -/
theorem unfailing_of_run {t : Sitting Engine Document.Reading} {steps : List Step}
    (h : Run Document.provider config steps t) (hidle : t.machine.state = .idle)
    (hnarrow : t.content.document.Narrow) (kind : Kind) (confirmation : Bool)
    (intent : Option String) :
    ((∃ t₀, begin Document.provider kind confirmation intent t = .ok (.ok .redraw, t₀)) ↔
      t.content.document.items.length ≤ 255 ∧
      t.content.document.items.length +
        (introScreens kind t.machine.modes config.titleScreen).length +
        config.terminal.trailing.toNat ≤ 255) ∧
    ∀ out t₀, begin Document.provider kind confirmation intent t = .ok (.ok out, t₀) →
      ∀ steps' t', Course Document.provider t₀ steps' t' →
        (∀ y ∈ steps', y.action.errorText? = none ∧ y.before.state ≠ .idle) →
        ∀ y ∈ steps', y.after.state ≠ .error ∧
          ∀ cause, y.reply = .error cause →
            cause ∈ [.invalidState, .unexpectedEvent, .notInspectable, .maxDepth] := by
  refine ⟨begin_document_iff h hidle kind confirmation intent,
    fun out t₀ hbegin steps' t' hcourse hsteps => ?_⟩
  have hp := t.content.document.constant (length_lt_of_begin hbegin) config
  obtain ⟨_, s₀, hrun, hbegin', halike⟩ := exists_fixed h hbegin
  have hyields := (begin_ensures hp.honours (hrun.constant hp)).of_eq hbegin'
  have hstate : s₀.machine.state ≠ .error := by
    rcases Begins.state hyields with hstate | hstate <;> rw [hstate] <;> decide
  obtain ⟨steps₀, hrun₀⟩ := hrun.exists_act (.begin kind confirmation intent) rfl hbegin'
  obtain ⟨s', hcourse', -⟩ :=
    hcourse.mirrors (Document.fixed_matches t.content.document).flip halike.flip
  exact hcourse'.unfailing hp (t.content.document.nested hnarrow config) hrun₀ hstate hsteps

theorem unfailing_of_run_call : ∃ t₀ reply t', begin Document.provider .transaction false none
      ⟨.start .stax, ⟨.call, none⟩, []⟩ = .ok (.ok .redraw, t₀) ∧
    Action.enterInspect.perform Document.provider t₀ = .ok (reply, t') ∧
    t'.machine.state ≠ .error := by
  have hrun : Run Document.provider .stax [] ⟨.start .stax, ⟨.call, none⟩, []⟩ := .start _
  have hhonours := Contract.honours_any Document.provider .stax
  obtain ⟨hbegins, hsafe⟩ := unfailing_of_run hrun rfl Document.narrow_call .transaction false none
  obtain ⟨t₀, hbegin⟩ := hbegins.2 (by decide)
  have hyields := (begin_ensures hhonours (hrun.sound hhonours trivial)).of_eq hbegin
  have hidle : t₀.machine.state ≠ .idle := by
    rcases Begins.state hyields with hstate | hstate <;> rw [hstate] <;> decide
  obtain ⟨steps, hrun₀⟩ := hrun.exists_act (.begin .transaction false none) rfl hbegin
  obtain ⟨reply, t', hact, -⟩ := perform_ensures hhonours (hrun₀.sound hhonours trivial)
    .enterInspect
  have hcourse : Course Document.provider t₀ _ t' := .cons .enterInspect hact .nil
  have hsteps := hsafe .redraw t₀ hbegin _ t' hcourse (List.forall_mem_singleton.2 ⟨rfl, hidle⟩)
  exact ⟨t₀, reply, t', hbegin, hact, (List.forall_mem_singleton.1 hsteps).1⟩

end Engine
end WalletReview
