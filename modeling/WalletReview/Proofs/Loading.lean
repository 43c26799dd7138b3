import WalletReview.Proofs.Sweeps

/-! Loading has rounds enough. In front of any provider the loops of `load` and `loadChild` return
from one of their rounds, having swept the items of the review, or the children at the level. -/
namespace WalletReview

open Engine (Direction)
open Operation (Proceeds Returns)
open Sitting (Asked)

variable {σ : Type} {config : Config} {C : Contract config}

namespace Engine.Direction

/-- Places left in a direction of travel, from the one at `index` on, where there are `count`. -/
def left (count index : Nat) : Direction → Nat
  | .forward => count - index
  | .backward => index + 1

def Next (item item' : Nat) : Direction → Prop
  | .forward => item + 1 = item'
  | .backward => item' + 1 = item

/-- The rank of a place among `count` of them: the places left from there on. -/
def rank (dir : Direction) (count : Nat) (place : List UInt8) : Nat :=
  dir.left count (place.getLastD 0).toNat

variable {dir : Direction} {count index next : Nat}

theorem rank_concat (dir : Direction) (count : Nat) (path : List UInt8) (child : UInt8) :
    dir.rank count (path ++ [child]) = dir.left count child.toNat := by
  simp [rank]

theorem left_pos (h : index < count) : 0 < dir.left count index := by
  cases dir with
  | forward => exact Nat.sub_pos_of_lt h
  | backward => exact Nat.succ_pos _

theorem left_le (h : index < count) : dir.left count index ≤ count := by
  cases dir with
  | forward => exact Nat.sub_le _ _
  | backward => exact h

theorem left_next (h : dir.Next index next) : dir.left count next ≤ dir.left count index - 1 := by
  cases dir
  all_goals
    simp only [Next, left] at h ⊢
    omega

end Engine.Direction

namespace Engine

variable {p : Provider σ} {s : Session} {c : Cursor} {t t₀ t' : Sitting Engine (Recorded σ)}
  {dir : Direction} {rank : List UInt8 → Nat} {inv : Nat → Sitting Engine (Recorded σ) → Prop}
  {done : Bool → Prop} {n : Nat}

def Pageless (asked : List Exchange) : Prop := ∀ x ∈ asked, x.query.place? = none

theorem loadProviderTitle_asks :
    (loadProviderTitle p.recorded).Ensures t fun _ t' => ∃ reply,
      t'.content.exchanges = ⟨.title, .title reply⟩ :: t.content.exchanges := by
  simp only [loadProviderTitle, Operation.ensures_bind, Operation.ensures_attempt,
    ensures_askField]
  split
  · exact Operation.ensures_pure.2 ⟨_, rfl⟩
  · simp only [Operation.ensures_bind, ensures_modifyField, Operation.ensures_pure]
    exact ⟨_, rfl⟩
  · exact Operation.ensures_throw.2 ⟨_, rfl⟩

theorem loadIntro_asks (screen : IntroScreen) :
    (loadIntro p.recorded s screen).Ensures t fun _ t' => t.Asked Pageless t' := by
  have hnone : t.Asked Pageless t := ⟨[], rfl, fun x hx => by simp at hx⟩
  have htext (text : String × String) :
      (setText text : Operation Engine (Recorded σ) Unit).Ensures t fun _ t' =>
        t.Asked Pageless t' := ensures_setText.2 hnone
  simp only [loadIntro]
  split
  · split
    · simp only [Operation.ensures_bind, ensures_setText, Operation.ensures_pure]
      exact hnone
    · split
      · rw [Operation.ensures_bind]
        refine loadProviderTitle_asks.mono fun r t' hr => ?_
        obtain ⟨reply, ht'⟩ := hr
        have htitle : t.Asked Pageless t' := by
          refine ⟨[_], ht', fun x hx => ?_⟩
          cases List.mem_singleton.1 hx
          rfl
        cases r with
        | error cause => exact htitle
        | ok found =>
          cases found with
          | true => exact Operation.ensures_pure.2 htitle
          | false => exact ensures_setText.2 htitle
      · exact htext _
  · exact htext _

/-- A page of a place that has pages. If it was beyond the last one, there is a second question. -/
theorem loadPage_proceeds {place : List UInt8} {pages : UInt8} {ask : UInt8 → Query}
    {setCursor : Cursor → Operation Engine (Recorded σ) Unit}
    {query : UInt8 → Operation Engine (Recorded σ) UInt8}
    (hset : ∀ c t, (setCursor c).Ensures t fun r t' => r = .ok () ∧ t'.content = t.content)
    (hquery : ∀ page t, (query page).Ensures t fun r t' =>
      t'.content.exchanges = ⟨ask page, .count r⟩ :: t.content.exchanges)
    (hask : ∀ page, (ask page).page? = some (place, page)) (hpages : pages ≠ 0)
    (hpos : 0 < rank place) (hle : rank place ≤ n) (hdone : done true)
    (ht : t.content.exchanges = ⟨ask c.page, .count (.ok pages)⟩ :: t₀.content.exchanges) :
    (do
      loadPage c pages setCursor query
      return some true : Operation Engine (Recorded σ) (Option Bool)).Ensures t
      (Proceeds rank inv done n t₀) := by
  have hplace : (ask c.page).place? = some place := by rw [Query.place?, hask]; rfl
  have hone : 1 ≤ pages := one_le_byte.2 (Nat.pos_of_ne_zero fun h => hpages (UInt8.toNat_inj.1 h))
  have hsingle {t' : Sitting Engine (Recorded σ)} (ht' : t'.content = t.content) :
      t₀.Asked (Sweep rank n) t' :=
    ⟨[_], by rw [ht', ht]; rfl, .single hplace hpos hle⟩
  simp only [loadPage, Cursor.clamp, dif_pos hone, Operation.ensures_bind]
  -- The cursor may come from a place with more pages: then the last page is asked for again.
  by_cases hbeyond : pages ≤ c.page
  · simp only [if_pos hbeyond, ↓reduceIte, Operation.ensures_bind]
    refine (hset _ t).mono fun r t₁ hr => ?_
    obtain ⟨rfl, ht₁⟩ := hr
    simp only [Operation.ensures_machine, ensures_modifyField]
    refine Operation.Ensures.mono (hquery _ _) fun r t₂ ht₂ => ?_
    have hagain {t' : Sitting Engine (Recorded σ)} (ht' : t'.content = t₂.content) :
        t₀.Asked (Sweep rank n) t' := by
      refine ⟨[⟨ask _, .count r⟩, ⟨ask c.page, .count (.ok pages)⟩], ?_, .again hplace hpos hle
        ⟨place, c.page, pages, _, hask _, rfl, hbeyond, hask _, diff8_one hone⟩⟩
      rw [ht', ht₂, ht₁, ht]
      rfl
    cases r with
    | error cause => exact hagain rfl
    | ok last =>
      simp only
      split
      · simp only [Operation.ensures_bind, Operation.ensures_throw]
        exact hagain rfl
      · simp only [Operation.ensures_bind]
        refine (hset _ t₂).mono fun r t₃ hr => ?_
        obtain ⟨rfl, ht₃⟩ := hr
        simp only [ensures_modifyField, Operation.ensures_pure]
        exact ⟨hdone, hagain ht₃⟩
  · simp only [if_neg hbeyond, Bool.false_eq_true, ↓reduceIte]
    refine (hset _ t).mono fun r t₁ hr => ?_
    obtain ⟨rfl, ht₁⟩ := hr
    simp only [Operation.ensures_machine, ensures_modifyField, Operation.ensures_pure]
    exact ⟨hdone, hsingle ht₁⟩

/-- The review `s` stands on a place of its list, from where `n` items are left at most. -/
def ItemsLeft (s : Session) (dir : Direction) (n : Nat) (t : Sitting Engine (Recorded σ)) : Prop :=
  ∃ c, t.machine.session = some { s with cursor := c } ∧ s.Spans c ∧
    ∀ index, s.AtItem c index → dir.left s.itemCount.toNat index.toNat ≤ n

/-- What comes of a round of loading a screen of the list. Only backward there may be none left. -/
def TopProceeds (s : Session) (dir : Direction) (n : Nat) (t : Sitting Engine (Recorded σ)) :
    Except Error (Option Bool) → Sitting Engine (Recorded σ) → Prop :=
  Proceeds (dir.rank s.itemCount.toNat) (ItemsLeft s dir)
    (fun found => dir = .forward → found = true) n t

theorem topRound_intro {screen : IntroScreen}
    (hsession : t.machine.session = some { s with cursor := c })
    (hscreen : s.intro[c.item.toNat]? = some screen) :
    (topRound p.recorded dir).Ensures t (TopProceeds s dir n t) := by
  have hintro : { s with cursor := c }.introScreen? = some screen := hscreen
  rw [topRound]
  simp only [Operation.ensures_bind, ensures_getSession hsession, ensures_modifyField, hintro]
  refine (loadIntro_asks screen).mono fun r t' ht' => ?_
  obtain ⟨asked, hasked, hnone⟩ := ht'
  cases r with
  | error cause => exact ⟨asked, hasked, .idle hnone⟩
  | ok _ =>
    simp only [ensures_setSession, Operation.ensures_pure]
    exact ⟨fun _ => rfl, asked, hasked, .idle hnone⟩

theorem topRound_decision (hsession : t.machine.session = some { s with cursor := c })
    (hc : s.Spans c) (hle : s.intro.length + s.itemCount.toNat ≤ c.item.toNat) :
    (topRound p.recorded dir).Ensures t (TopProceeds s dir n t) := by
  have hintro : { s with cursor := c }.introScreen? = none :=
    List.getElem?_eq_none (by simp only; omega)
  have hnone : t.Asked (Sweep (dir.rank s.itemCount.toNat) n) t :=
    ⟨[], rfl, .idle fun x hx => by simp at hx⟩
  rw [topRound]
  simp only [Operation.ensures_bind, ensures_getSession hsession, ensures_modifyField, hintro,
    if_pos (hc.isTerminal_iff.2 hle)]
  split
  · simp only [Operation.ensures_bind, ensures_setState, Operation.ensures_machine,
      ensures_setText, ensures_setSession, Operation.ensures_pure]
    exact ⟨fun _ => rfl, hnone⟩
  · simp only [Operation.ensures_bind, Operation.ensures_machine, ensures_setText,
      ensures_setSession, Operation.ensures_pure]
    exact ⟨fun _ => rfl, hnone⟩

theorem itemsLeft_next {index : UInt8} {d : Cursor} (hat : s.AtItem c index) (hc : s.Spans c)
    (ht : t.machine.session = some { s with cursor := d }) (hcount : d.itemCount = c.itemCount)
    (hnext : dir.Next c.item.toNat d.item.toNat) :
    ItemsLeft s dir (dir.left s.itemCount.toNat index.toNat - 1) t := by
  have hitemCount := hc.itemCount
  obtain ⟨hitem, hlt⟩ := hat
  refine ⟨d, ht, hc.of_item_le hcount ?_, fun next hat' => Direction.left_next ?_⟩
  · cases dir
    all_goals
      simp only [Direction.Next] at hnext
      omega
  · have hitem' := hat'.1
    cases dir
    all_goals
      simp only [Direction.Next] at hnext ⊢
      omega

theorem topRound_item {index : UInt8} (hs : s.Fits C)
    (hsession : t.machine.session = some { s with cursor := c }) (hc : s.Spans c)
    (hat : s.AtItem c index) (hle : dir.left s.itemCount.toNat index.toNat ≤ n) :
    (topRound p.recorded dir).Ensures t (TopProceeds s dir n t) := by
  have hpos : 0 < dir.left s.itemCount.toNat index.toNat := Direction.left_pos hat.2
  rw [topRound]
  simp only [Operation.ensures_bind, ensures_getSession hsession, ensures_modifyField,
    hat.introScreen?, if_neg (hat.not_isTerminal hc), Operation.ensures_liftM,
    hat.sub8_leading hs, Except.ok.injEq, exists_eq_left', ensures_askField]
  -- what the provider has answered, with its question on record
  generalize hreply : p.recorded.item index c.page t.machine.field.clear t.content = reply
  obtain ⟨pages, w, content⟩ := reply
  have hcontent : content.exchanges =
      ⟨.item index c.page, .count pages⟩ :: t.content.exchanges := by
    cases hreply
    rfl
  cases pages with
  | error cause => exact ⟨[_], hcontent, .single rfl hpos hle⟩
  | ok pages =>
    by_cases hpages : pages = 0
    · simp only [if_pos hpages, Operation.ensures_bind, Operation.ensures_note]
      cases dir with
      | forward =>
        obtain ⟨item, hadd, hitem⟩ := hat.add8_one hc
        simp only [Operation.ensures_bind, Operation.ensures_liftM, ensures_setSession, hadd,
          Except.ok.injEq, exists_eq_left', Operation.ensures_pure]
        exact ⟨_, _, [index], itemsLeft_next hat hc rfl rfl hitem, hcontent, rfl,
          Nat.sub_one_lt_of_lt hpos, hle⟩
      | backward =>
        simp only
        split
        · rename_i hone
          simp only [Operation.ensures_bind, ensures_setSession, Operation.ensures_pure]
          exact ⟨_, _, [index], itemsLeft_next hat hc rfl rfl (diff8_one hone), hcontent, rfl,
            Nat.sub_one_lt_of_lt hpos, hle⟩
        · simp only [Operation.ensures_pure]
          exact ⟨by simp, [_], hcontent, .single rfl hpos hle⟩
    · simp only [if_neg hpages]
      exact loadPage_proceeds (fun _ _ => ensures_setSession.2 ⟨rfl, rfl⟩)
        (fun _ _ => ensures_askField.2 rfl) (fun _ => rfl) hpages hpos hle (fun _ => rfl) hcontent

theorem topRound_proceeds (hs : s.Fits C) (ht : ItemsLeft s dir n t) :
    (topRound p.recorded dir).Ensures t (TopProceeds s dir n t) := by
  obtain ⟨c, hsession, hc, hleft⟩ := ht
  rcases s.place_cases c with ⟨screen, hscreen⟩ | ⟨index, hat⟩ | hle
  · exact topRound_intro hsession hscreen
  · exact topRound_item hs hsession hc hat (hleft index hat)
  · exact topRound_decision hsession hc hle

/-- The inspection `i` of one of `count` children stands on a place of the level, from where `n`
children are left at most. -/
def ChildrenLeft (s : Session) (i : Inspection) (count : UInt8) (dir : Direction) (n : Nat)
    (t : Sitting Engine (Recorded σ)) : Prop :=
  ∃ c, t.machine.session = some { s with inspection := some { i with cursor := c } } ∧
    { i with cursor := c }.Numbers count ∧
    ∀ child, { i with cursor := c }.childIndex = some child →
      dir.left count.toNat child.toNat ≤ n

/-- What comes of a round of loading a screen of an inspection. -/
def ChildProceeds (s : Session) (i : Inspection) (count : UInt8) (dir : Direction) (n : Nat)
    (t : Sitting Engine (Recorded σ)) :
    Except Error (Option Bool) → Sitting Engine (Recorded σ) → Prop :=
  Proceeds (dir.rank count.toNat) (ChildrenLeft s i count dir) (fun _ => True) n t

variable {i : Inspection} {root count child : UInt8}

theorem childrenLeft_next {d : Cursor} (hchild : { i with cursor := c }.childIndex = some child)
    (hc : { i with cursor := c }.Numbers count)
    (ht : t.machine.session = some { s with inspection := some { i with cursor := d } })
    (hcount : d.itemCount = c.itemCount) (hwithin : d.Within)
    (hnext : dir.Next c.item.toNat d.item.toNat) :
    ChildrenLeft s i count dir (dir.left count.toNat child.toNat - 1) t := by
  refine ⟨d, ht, ⟨hwithin, ?_⟩, fun next hnextChild => Direction.left_next ?_⟩
  · simp only [hcount]
    exact hc.itemCount
  · have hitem := Inspection.item_of_childIndex hchild
    have hitem' := Inspection.item_of_childIndex hnextChild
    cases dir
    all_goals
      simp only [Direction.Next] at hnext ⊢
      cases hlayout : i.layout
      all_goals
        simp only [hlayout] at hitem hitem'
        omega

theorem childRound_child (hi : i.Fits config root)
    (hsession : t.machine.session = some { s with inspection := some { i with cursor := c } })
    (hc : { i with cursor := c }.Numbers count)
    (hmarker : ({ i with cursor := c }.isGoToRoot || { i with cursor := c }.isBack) = false)
    (hchild : { i with cursor := c }.childIndex = some child)
    (hleft : dir.left count.toNat child.toNat ≤ n) :
    (childRound p.recorded dir).Ensures t (ChildProceeds s i count dir n t) := by
  have hlt := UInt8.lt_iff_toNat_lt.1
    (hc.childIndex_lt (Inspection.isBack_eq_false hchild) hchild)
  have hrank := dir.rank_concat count.toNat i.chain child
  have hpos : 0 < dir.rank count.toNat (i.chain ++ [child]) := by
    rw [hrank]
    exact Direction.left_pos hlt
  have hless :
      dir.left count.toNat child.toNat - 1 < dir.rank count.toNat (i.chain ++ [child]) := by
    rw [hrank] at hpos ⊢
    exact Nat.sub_one_lt_of_lt hpos
  have hle : dir.rank count.toNat (i.chain ++ [child]) ≤ n := by
    rw [hrank]
    exact hleft
  rw [childRound]
  simp only [Operation.ensures_bind, ensures_getInspection hsession rfl, ensures_modifyField,
    hmarker, hchild, Bool.false_eq_true, ↓reduceIte, Operation.ensures_liftM,
    (hi.withCursor c).trace, Except.ok.injEq, exists_eq_left', ensures_askField]
  -- The provider may reply anything. All that counts is that the question is on record.
  generalize hreply : p.recorded.child { i with cursor := c }.chain child c.page
    t.machine.field.clear t.content = reply
  obtain ⟨pages, w, content⟩ := reply
  have hcontent : content.exchanges =
      ⟨.child i.chain child c.page, .count pages⟩ :: t.content.exchanges := by
    cases hreply
    rfl
  cases pages with
  | error cause => exact ⟨[_], hcontent, .single rfl hpos hle⟩
  | ok pages =>
    by_cases hpages : pages = 0
    · simp only [if_pos hpages]
      have hstop : t.Asked (Sweep (dir.rank count.toNat) n) { t with
          machine := { t.machine with field := w }, content } :=
        ⟨[_], hcontent, .single rfl hpos hle⟩
      cases dir with
      | forward =>
        simp only
        split
        · rename_i hnext
          have hbound := c.itemCount.toNat_lt
          obtain ⟨item, hadd, hitem⟩ := Checked.add8_one (a := c.item) (by omega)
          simp only [Operation.ensures_bind, Operation.ensures_liftM, ensures_setInspection, hadd,
            Except.ok.injEq, exists_eq_left', Operation.ensures_pure, hsession, Option.map_some]
          refine ⟨_, _, i.chain ++ [child], childrenLeft_next hchild hc rfl rfl ?_ hitem, hcontent,
            rfl, hless, hle⟩
          simp only [Cursor.Within]
          omega
        · simp only [Operation.ensures_pure]
          exact ⟨trivial, hstop⟩
      | backward =>
        simp only
        split
        · rename_i hone
          have hitem := diff8_one hone
          have hwithin := hc.within
          simp only [Operation.ensures_bind, ensures_setInspection, Operation.ensures_pure,
            hsession, Option.map_some]
          refine ⟨_, _, i.chain ++ [child], childrenLeft_next hchild hc rfl rfl ?_ hitem, hcontent,
            rfl, hless, hle⟩
          simp only [Cursor.Within] at hwithin ⊢
          omega
        · simp only [Operation.ensures_pure]
          exact ⟨trivial, hstop⟩
    · simp only [if_neg hpages]
      exact loadPage_proceeds (fun _ _ => ensures_setInspection.2 ⟨rfl, rfl⟩)
        (fun _ _ => ensures_askField.2 rfl) (fun _ => rfl) hpages hpos hle trivial hcontent

theorem childRound_proceeds (hi : i.Fits config root) (ht : ChildrenLeft s i count dir n t) :
    (childRound p.recorded dir).Ensures t (ChildProceeds s i count dir n t) := by
  obtain ⟨c, hsession, hc, hleft⟩ := ht
  have hnone : t.Asked (Sweep (dir.rank count.toNat) n) t :=
    ⟨[], rfl, .idle fun x hx => by simp at hx⟩
  cases hmarker : ({ i with cursor := c }.isGoToRoot || { i with cursor := c }.isBack) with
  | true =>
    rw [childRound]
    simp only [Operation.ensures_bind, ensures_getInspection hsession rfl, ensures_modifyField,
      hmarker, ↓reduceIte, ensures_setInspection, Operation.ensures_pure]
    exact ⟨trivial, hnone⟩
  | false =>
    cases hchild : { i with cursor := c }.childIndex with
    | none =>
      rw [childRound]
      simp only [Operation.ensures_bind, ensures_getInspection hsession rfl, ensures_modifyField,
        hmarker, hchild, Bool.false_eq_true, ↓reduceIte, ensures_setInspection,
        Operation.ensures_pure]
      exact ⟨trivial, hnone⟩
    | some child => exact childRound_child hi hsession hc hmarker hchild (hleft child hchild)

/-- What the loop of a loading ensures of its answer and the exchanges, the loading ensures of its
own: it touches no more than the machine after the loop, and hands on the answer. -/
theorem loading_ensures {body : Operation Engine (Recorded σ) Bool}
    {post : Except Error Bool → List Exchange → Prop}
    (h : body.Ensures t fun r t' => post r t'.content.exchanges) :
    (loading body).Ensures t fun r t' => post r t'.content.exchanges := by
  simp only [loading, Operation.ensures_bind, Operation.ensures_attempt]
  refine h.mono fun r t' hr => ?_
  cases r with
  | ok found => simpa [Except.map] using hr
  | error cause => simpa [fail, showErrorScreen] using hr

/-- The loading `op` of a loop returns from one of the rounds: whatever stood after the loop, the
loading would come to the same, and `post` holds of its answer and of the exchanges. -/
structure LoadsFrom (loop : Operation Engine (Recorded σ) Bool → Operation Engine (Recorded σ) Bool)
    (op : Operation Engine (Recorded σ) Bool) (t : Sitting Engine (Recorded σ))
    (post : Except Error Bool → List Exchange → Prop) : Prop where
  returns : Returns loop t fun r t' => post r t'.content.exchanges
  same (after : Operation Engine (Recorded σ) Bool) : loading (loop after) t = op t
  outcome : op.Ensures t fun r t' => post r t'.content.exchanges

theorem loadsFrom {loop : Operation Engine (Recorded σ) Bool → Operation Engine (Recorded σ) Bool}
    {post : Except Error Bool → List Exchange → Prop} (after : Operation Engine (Recorded σ) Bool)
    (h : Returns loop t fun r t' => post r t'.content.exchanges) :
    LoadsFrom loop (loading (loop after)) t post := by
  obtain ⟨r, t', hloop, hpost⟩ := h
  refine ⟨⟨r, t', hloop, hpost⟩, fun other => ?_, loading_ensures ⟨r, t', hloop after, hpost⟩⟩
  simp only [loading, Operation.bind_apply, Operation.attempt, hloop]

/-- Loading returns from one of the rounds of its loop, forward not without a screen, and asks for
pages of the items of the review sparingly. -/
def TopSuffices (p : Provider σ) (dir : Direction) (t : Sitting Engine (Recorded σ)) : Prop :=
  ∃ s, t.machine.session = some s ∧
    LoadsFrom (topLoop p.recorded dir) (load p.recorded dir) t fun r exchanges =>
      (dir = .forward → r ≠ .ok false) ∧ ∃ asked,
        exchanges = asked ++ t.content.exchanges ∧ Frugal s.itemCount.toNat asked

/-- Loading returns from one of the rounds of its loop, and asks for pages of the children that were
counted sparingly, or for none if they were not. -/
def ChildSuffices (p : Provider σ) (dir : Direction) (t : Sitting Engine (Recorded σ)) : Prop :=
  ∃ s i path, t.machine.session = some s ∧ s.inspection = some i ∧ i.trace = .ok path ∧
    LoadsFrom (childLoop p.recorded dir) (loadChild p.recorded dir) t fun r exchanges =>
      ∃ reply asked,
        exchanges = asked ++ ⟨.childCount path, .count reply⟩ :: t.content.exchanges ∧
        match reply with
        | .ok count => Frugal (i.setChildCount count).childCount.toNat asked
        | .error cause => r = .error cause ∧ asked = []

theorem topSuffices (hs : s.Runs C) (ht : t.machine.session = some s) : TopSuffices p dir t := by
  have hcount := hs.spans.itemCount
  have hleft : ItemsLeft s dir s.itemCount.toNat t :=
    ⟨s.cursor, ht, hs.spans, fun index hat => Direction.left_le hat.2⟩
  refine ⟨s, ht, loadsFrom _ (Operation.returns_bind ((ensures_getSession ht).2 ?_))⟩
  refine (Operation.returns_loop (fun n t => topRound_proceeds hs.fits) hleft
    (by omega)).mono fun r t' hr => ?_
  obtain ⟨hdone, asked, hasked, hsweep⟩ := hr
  refine ⟨fun hdir hfalse => ?_, asked, hasked, hsweep.frugal⟩
  cases hdone false hfalse hdir

theorem childSuffices (hi : i.Fits config root)
    (ht : t.machine.session = some { s with inspection := some i }) : ChildSuffices p dir t := by
  have hasked : (p.recorded.childCount i.chain t.content).2.exchanges =
      ⟨.childCount i.chain, .count (p.recorded.childCount i.chain t.content).1⟩ ::
        t.content.exchanges := rfl
  refine ⟨_, i, i.chain, ht, rfl, hi.trace, loadsFrom _ ?_⟩
  refine Operation.returns_bind ((ensures_getInspection ht rfl).2 ?_)
  refine Operation.returns_bind (Operation.ensures_liftM.2 ⟨_, hi.trace, ?_⟩)
  refine Operation.returns_bind (Operation.ensures_ask.2 ?_)
  refine Operation.returns_bind (Operation.ensures_settle.2 ?_)
  cases hreply : (p.recorded.childCount i.chain t.content).1 with
  | error cause =>
    rw [hreply] at hasked
    exact ⟨_, [], hasked, rfl, rfl⟩
  | ok count =>
    rw [hreply] at hasked
    have hcounted := (i.setChildCount count).toNat_childCount
    have hnumbers : (clampItem (i.setChildCount count)).Numbers
        (i.setChildCount count).childCount :=
      ⟨i.recounted_within count, Nat.sub_le_iff_le_add.1 (Nat.le_of_eq hcounted.symm)⟩
    have hchild {child : UInt8}
        (h : (clampItem (i.setChildCount count)).childIndex = some child) :
        child.toNat < (i.setChildCount count).childCount.toNat :=
      UInt8.lt_iff_toNat_lt.1 (hnumbers.childIndex_lt (Inspection.isBack_eq_false h) h)
    refine Operation.returns_bind (ensures_setInspection.2 ?_)
    refine (Operation.returns_loop (fun n t => childRound_proceeds hi)
      (n := (i.setChildCount count).childCount.toNat)
      ⟨i.recounted count, by rw [ht]; rfl, hnumbers, fun child h => Direction.left_le (hchild h)⟩
      (Nat.lt_succ_of_le (hcounted ▸ Nat.sub_le _ _))).mono fun r t' hr => ?_
    obtain ⟨-, asked, hsince, hsweep⟩ := hr
    exact ⟨_, asked, by rw [hsince, hasked], hsweep.frugal⟩

end Engine
end WalletReview
