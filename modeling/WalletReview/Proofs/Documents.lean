import WalletReview.Document
import WalletReview.Proofs.Correspondence
import WalletReview.Proofs.FrontEnds
import WalletReview.Proofs.Pages

/-! Reviews of documents. On its way to the approve screen a review shows the pages of every value
in order. A byte counts these pages, so that of a value with more than 255 of them the rest is not
shown. -/
namespace WalletReview

open Engine (Run)

variable {config : Config}

namespace Document

def Entry.pages (entry : Entry) (config : Config) : List (List Char) :=
  Text.pages valueCapacity (Field.blank config).pageLength entry.value

/-- As many of its pages as a review counts. -/
def Entry.pageCount (entry : Entry) (config : Config) : UInt8 :=
  saturate8 (entry.pages config).length

def Entry.text (entry : Entry) (config : Config) (page : UInt8) : String × String :=
  (.ofList (Text.fitting keyCapacity entry.key.toList),
    .ofList ((entry.pages config)[page.toNat]?.getD []))

def layout (d : Document) (config : Config) : List UInt8 :=
  d.items.map (·.value.pageCount config)

/-- The pages of a document, cut at the length that the configuration sets. -/
def content (d : Document) (config : Config) : Content where
  pages index := (d.items[index.toNat]?.map (·.value.pageCount config)).getD 0
  item index page := (d.items[index.toNat]?.map (·.value.text config page)).getD ("", "")
  title := d.title.map fun text =>
    (.ofList (Text.fitting keyCapacity text.1.toList),
      .ofList (Text.fitting valueCapacity text.2.toList))
  childCount path := ((Tree.find? path d.items).map (UInt8.ofNat ·.children.length)).getD 0
  childPages path child :=
    ((Tree.childBelow? path child d.items).map (·.value.pageCount config)).getD 0
  child path child page :=
    ((Tree.childBelow? path child d.items).map (·.value.text config page)).getD ("", "")

theorem holds_setPage (entry : Entry) (page : UInt8) :
    ((Field.blank config).setPage entry.key entry.value page).1.Holds (entry.text config page) := by
  constructor
  · rw [Entry.text, String.toList_ofList]
    exact BoundedText.holds_empty.set entry.key
  · rw [Entry.text, String.toList_ofList]
    exact BoundedText.holds_empty.page (by decide) entry.value (Field.blank config).pageLength page

theorem writes_writeItem (item? : Option Item) (page : UInt8) :
    Content.Writes config ((item?.map (·.value.pageCount config)).getD 0)
      ((item?.map (·.value.text config page)).getD ("", ""))
      (writeItem item? page (.blank config)).1 (writeItem item? page (.blank config)).2 := by
  cases item? with
  | none => exact ⟨Field.clean_blank, fun n hn => by cases hn⟩
  | some item =>
    refine ⟨Field.clean_blank.setPage item.value.key item.value.value page, fun n hn => ?_⟩
    cases hn
    exact ⟨rfl, holds_setPage item.value page⟩

theorem presents (d : Document) (config : Config) :
    (provider.fixed ⟨d, none⟩).Presents config (d.content config) where
  item index page _ := writes_writeItem d.items[index.toNat]? page
  title _ := by
    simp only [Provider.fixed, provider, content]
    cases d.title with
    | none => exact ⟨Field.clean_blank, by simp⟩
    | some text =>
      refine ⟨(Field.clean_blank.setKey text.1).setValue text.2, by simp, fun _ => ⟨?_, ?_⟩⟩
      · rw [String.toList_ofList]
        exact BoundedText.holds_empty.set text.1
      · rw [String.toList_ofList]
        exact BoundedText.holds_empty.set text.2
  childCount path _ count h := by
    simp only [Provider.fixed, provider] at h
    simp only [content]
    cases hitem : Tree.find? path d.items with
    | none => simp [hitem] at h
    | some item =>
      simp only [hitem, countReply] at h
      split at h
      · cases h
        rfl
      · cases h
  child path child page _ := writes_writeItem (Tree.childBelow? path child d.items) page

theorem constant (d : Document) (h : d.items.length < 256) (config : Config) :
    (provider.fixed ⟨d, none⟩).Constant config (d.layout config) (d.content config) where
  presents := d.presents config
  itemCount _ := by
    refine ⟨.ofNat d.items.length, if_pos h, ?_⟩
    rw [UInt8.toNat_ofNat', Nat.mod_eq_of_lt h, layout, List.length_map]
  item index page f _ count hf hcount := by
    rw [layout, List.getElem?_map, Option.map_eq_some_iff] at hcount
    obtain ⟨item, hitem, rfl⟩ := hcount
    simp only [Provider.fixed, provider, hitem, writeItem]
    rw [Entry.pageCount, Entry.pages, ← hf.pageLength]
    rfl
  clean index page f _ hf := by
    simp only [Provider.fixed, provider]
    cases d.items[index.toNat]? with
    | none => exact hf
    | some item => exact hf.setPage item.value.key item.value.value page
  title _ := by
    simp only [Provider.fixed, provider]
    cases d.title with
    | none => exact Or.inr rfl
    | some text => exact Or.inl rfl

theorem fixed_matches (d : Document) :
    Provider.Matches (fun (_ : Unit) (r : Reading) => r.document = d) (provider.fixed ⟨d, none⟩)
      provider where
  itemCount _ r h := by subst h; exact ⟨rfl, rfl⟩
  item _ _ _ _ r h := by subst h; exact ⟨rfl, rfl, rfl⟩
  title f _ r h := by
    subst h
    simp only [Provider.fixed, provider]
    cases r.document.title <;> exact ⟨rfl, rfl, rfl⟩
  childCount path _ r h := by
    subst h
    simp only [Provider.fixed, provider]
    cases Tree.find? path r.document.items <;> exact ⟨rfl, rfl⟩
  child _ _ _ _ _ r h := by subst h; exact ⟨rfl, rfl, rfl⟩
  canInspect path child _ r h := by
    subst h
    simp only [Provider.fixed, provider]
    cases Tree.find? (path ++ [child]) r.document.items <;> exact ⟨rfl, rfl⟩
  conclude _ _ _ h := h

namespace Entry

/-- The pages that a review counts, with their numbers. -/
def shown (entry : Entry) (config : Config) : List (UInt8 × String) :=
  ((entry.pages config).take 255).zipIdx.map fun (piece, page) => (.ofNat page, .ofList piece)

theorem map_snd_shown (entry : Entry) (config : Config) :
    (entry.shown config).map (·.2) = ((entry.pages config).map .ofList).take 255 := by
  have hpieces := congrArg (List.map String.ofList)
    (List.zipIdx_map_fst 0 ((entry.pages config).take 255))
  rw [List.map_map] at hpieces
  rw [shown, List.map_map, ← List.map_take]
  exact hpieces

theorem join_shown_iff (entry : Entry) (config : Config) :
    String.join ((entry.shown config).map (·.2)) = entry.value ↔
      (entry.pages config).length ≤ 255 := by
  rw [map_snd_shown]
  exact Text.join_take_pages_iff _ _ 255

theorem shown_eq (entry : Entry) (config : Config) :
    (List.range (entry.pageCount config).toNat).map (fun page =>
      (UInt8.ofNat page, Field.padded (entry.text config (.ofNat page)).2)) =
      entry.shown config := by
  have hlength : ((List.range (entry.pageCount config).toNat).map (fun page =>
      (UInt8.ofNat page, Field.padded (entry.text config (.ofNat page)).2))).length =
      (entry.shown config).length := by
    simp [shown, pageCount, Nat.min_comm]
  refine List.ext_getElem hlength fun i hi hi' => ?_
  have hcount : i < 255 ∧ i < (entry.pages config).length := by
    simpa [shown, Nat.lt_min] using hi'
  have hpage : (entry.text config (.ofNat i)).2 = .ofList (entry.pages config)[i] := by
    rw [text, UInt8.toNat_ofNat', Nat.mod_eq_of_lt (by omega),
      List.getElem?_eq_getElem hcount.2, Option.getD_some]
  have hne : String.ofList (entry.pages config)[i] ≠ "" := by
    rw [ne_eq, ← String.toList_eq_nil_iff, String.toList_ofList]
    exact Text.ne_nil_of_mem_pages (List.getElem_mem hcount.2)
  simp [shown, hpage, Field.padded, hne]

end Entry

def memo : Document := ⟨none, [.leaf ⟨"Memo", "two words"⟩]⟩

/-- A document with a value of 256 characters. -/
def lengthy : Document := ⟨none, [.leaf ⟨"Memo", .ofList (List.replicate 256 'a')⟩]⟩

end Document

def Screen.pageOf? (n : Nat) (screen : Screen) : Option (UInt8 × String) :=
  match screen.position with
  | .item index page => if index.toNat = n then some (page, screen.value) else none
  | _ => none

def Content.pageOf? (x : Content) (config : Config) (n : Nat) :
    Position → Option (UInt8 × String)
  | .item index page =>
    if index.toNat = n then some (page, (x.shown config (index, page)).2) else none
  | _ => none

section

variable {σ τ β : Type} {pages : List UInt8} {x : Content} {n : Nat} {count : UInt8}

theorem Screen.pageOf?_eq {screen : Screen} (h : screen.pair? = x.pair? config screen.position)
    (n : Nat) : screen.pageOf? n = x.pageOf? config n screen.position := by
  unfold Screen.pageOf? Content.pageOf?
  cases hposition : screen.position with
  | item index page =>
    simp only [Screen.pair?, Content.pair?, hposition, Option.some.injEq] at h
    simp only [← h]
  | _ => rfl

theorem toNat_toUInt8 {i : Nat} (h : i < 256) : i.toUInt8.toNat = i := by
  rw [Nat.toUInt8, UInt8.toNat_ofNat', Nat.mod_eq_of_lt h]

def ofItem (n : Nat) (f : UInt8 × UInt8 → β) (place : UInt8 × UInt8) : Option β :=
  if place.1.toNat = n then some (f place) else none

theorem filterMap_ofItem_eq_nil {l : List UInt8} {k : Nat} (f : UInt8 × UInt8 → β)
    (hl : ∀ i, k ≤ i → i < k + l.length → i < 256 ∧ i ≠ n) :
    ((l.zipIdx k).flatMap fun (count, i) =>
      (List.range count.toNat).map fun page => (i.toUInt8, UInt8.ofNat page)).filterMap
        (ofItem n f) = [] := by
  rw [List.filterMap_eq_nil_iff]
  intro place hplace
  obtain ⟨⟨count, i⟩, hi, hplace⟩ := List.mem_flatMap.1 hplace
  obtain ⟨page, -, rfl⟩ := List.mem_map.1 hplace
  obtain ⟨hge, hlt, -⟩ := List.mem_zipIdx hi
  obtain ⟨hbyte, hne⟩ := hl i hge hlt
  exact if_neg (by rwa [toNat_toUInt8 hbyte])

theorem filterMap_expectedPages {before after : List UInt8}
    (hlength : (before ++ count :: after).length < 256) (f : UInt8 × UInt8 → β) :
    (Walk.expectedPages (before ++ count :: after)).filterMap (ofItem before.length f) =
      (List.range count.toNat).map fun page => f (before.length.toUInt8, .ofNat page) := by
  rw [List.length_append, List.length_cons] at hlength
  have hitem : (List.range count.toNat).filterMap
      (ofItem before.length f ∘ fun page => (before.length.toUInt8, UInt8.ofNat page)) =
      (List.range count.toNat).map fun page => f (before.length.toUInt8, .ofNat page) := by
    rw [← List.filterMap_eq_map]
    congr 1
    funext page
    exact if_pos (toNat_toUInt8 (by omega))
  rw [Walk.expectedPages, List.zipIdx_append, List.zipIdx_cons, Nat.zero_add, List.flatMap_append,
    List.flatMap_cons, List.filterMap_append, List.filterMap_append, List.filterMap_map, hitem,
    filterMap_ofItem_eq_nil f (by omega), filterMap_ofItem_eq_nil f (by omega), List.append_nil,
    List.nil_append]

theorem Content.filterMap_pageOf? (x : Content) (config : Config) (intro : List IntroScreen)
    (hlength : pages.length < 256) (hcount : pages[n]? = some count) :
    ((intro.map Position.intro ++ itemScreens pages) ++ [Position.approve]).filterMap
        (x.pageOf? config n) =
      (List.range count.toNat).map fun page =>
        (.ofNat page, (x.shown config (n.toUInt8, .ofNat page)).2) := by
  obtain ⟨hn, hget⟩ := List.getElem?_eq_some_iff.1 hcount
  obtain ⟨before, after, rfl, rfl⟩ : ∃ before after, pages = before ++ count :: after ∧
      before.length = n := by
    refine ⟨pages.take n, pages.drop (n + 1), ?_, List.length_take_of_le (Nat.le_of_lt hn)⟩
    rw [← hget, ← List.drop_eq_getElem_cons hn, List.take_append_drop]
  have hintro : (intro.map Position.intro).filterMap (x.pageOf? config before.length) = [] := by
    rw [List.filterMap_map, List.filterMap_eq_nil_iff]
    exact fun _ _ => rfl
  have happrove : [Position.approve].filterMap (x.pageOf? config before.length) = [] := rfl
  rw [List.filterMap_append, List.filterMap_append, hintro, happrove, List.nil_append,
    List.append_nil, itemScreens, List.filterMap_map]
  exact filterMap_expectedPages hlength fun place => (place.2, (x.shown config place).2)

theorem Document.content_item {d : Document} {item : Document.Item} (h : d.items[n]? = some item)
    (hn : n < 256) (page : UInt8) :
    (d.content config).item n.toUInt8 page = item.value.text config page := by
  simp [content, toNat_toUInt8 hn, h]

end

namespace Engine

section

variable {σ τ β : Type} {R : σ → τ → Prop} {p : Provider σ} {q : Provider τ} {pages : List UInt8}
  {x : Content} {kind : Kind} {confirmation : Bool} {intent : Option String} {out : Output}
  {s t t' : Sitting Engine σ} {screens : List Screen}

theorem Walks.mirrors (h : p.Matches R q) (hwalks : Walks p s screens) {t : Sitting Engine τ}
    (hst : s.Alike R t) : Walks q t screens := by
  induction hwalks generalizing t with
  | stop happrove =>
    rw [hst.machine] at happrove ⊢
    exact .stop happrove
  | next hnot hadvance _ ih =>
    obtain ⟨t', hadvance', hst'⟩ := mirrors_advance h _ _ hst _ _ hadvance
    rw [hst.machine] at hnot ⊢
    exact .next hnot hadvance' (ih hst')

/-- What can be told of the screens of a walk from the positions ahead. The induction is on the
walk: each of its steps takes one of these positions away. -/
theorem Walks.filterMap_eq (hp : p.Constant config pages x) {f : Screen → Option β}
    {g : Position → Option β}
    (hfg : ∀ screen, screen.pair? = x.pair? config screen.position → f screen = g screen.position)
    (hwalks : Walks p t screens) {ahead rest : List Position} (hahead : Position.approve ∉ ahead)
    (h : Ahead p config pages (ahead ++ .approve :: rest) t) :
    screens.filterMap f = (ahead ++ [Position.approve]).filterMap g := by
  -- The screens ahead grow shorter with each step, up to the approve screen.
  induction hwalks generalizing ahead with
  | @stop t happrove =>
    have hposition : t.machine.position = .approve := by simpa [isAtApprove] using happrove
    cases ahead with
    | nil =>
      have hscreen := hfg t.machine.display (by rw [h.pair? hp, ← hposition]; rfl)
      rw [List.filterMap_cons, List.nil_append, List.filterMap_cons, hscreen, ← hposition]
      rfl
    | cons screen ahead =>
      rw [h.position hp] at hposition
      exact absurd (by rw [hposition]; exact List.mem_cons_self) hahead
  | @next t t' screens hnot hadvance _ ih =>
    cases ahead with
    | nil =>
      rw [isAtApprove, h.position hp] at hnot
      cases hnot
    | cons screen ahead =>
      obtain ⟨t'', hadvance', hnext⟩ := h.next hp (by simp)
      cases hadvance.symm.trans hadvance'
      have hscreen := hfg t.machine.display (by rw [h.pair? hp, ← h.position hp]; rfl)
      have hposition : t.machine.display.position = screen := h.position hp
      rw [List.filterMap_cons, hscreen, hposition, List.cons_append, List.filterMap_cons,
        ih (fun hmem => hahead (List.mem_cons_of_mem _ hmem)) hnext]

def startWith (config : Config) (modes : Modes) : Engine := { start config with modes }

theorem exists_run_startWith (p : Provider σ) (x : σ) (config : Config) (modes : Modes) :
    ∃ steps, Run p config steps ⟨startWith config modes, x, []⟩ :=
  ⟨_, .act (.setModes modes) (.start x) rfl⟩

theorem begin_of_idle (hidle : t.machine.state = .idle) (hs : t.machine.session = none)
    (hconfig : t.machine.config = config) :
    begin p kind confirmation intent t = begin p kind confirmation intent
      { t with machine := startWith config t.machine.modes } := by
  obtain ⟨⟨state, session, c, modes, field⟩, content, journal⟩ := t
  subst hidle hs hconfig
  rfl

theorem itemCount_of_begin (h : begin p kind confirmation intent t = .ok (.ok out, t')) :
    ∃ count, (p.itemCount t.content).1 = .ok count := by
  cases hreply : (p.itemCount t.content).1 with
  | ok count => exact ⟨count, rfl⟩
  | error cause =>
    have hrefused : (begin p kind confirmation intent).Ensures t fun r _ =>
        ∃ cause, r = .error cause := by
      simp only [begin, Loader.begin, Operation.ensures_bind, Operation.ensures_machine,
        Operation.ensures_note]
      split
      · simp
      · simp [hreply, fail, showErrorScreen]
    obtain ⟨cause, hcause⟩ := hrefused.of_eq h
    cases hcause

/-- Without offers to skip, a review that began has its intro screens and its pages ahead, and then
the approve screen. -/
theorem ahead_of_begin (hp : p.Constant config pages x) {steps : List Step}
    (h : Run p config steps t) (hbegin : begin p kind false intent t = .ok (.ok out, t')) :
    ∃ rest, Ahead p config pages
      (((introScreens kind t.machine.modes config.titleScreen).map .intro ++ itemScreens pages) ++
        .approve :: rest) t' := by
  have hbegins : Begins (Contract.constant config pages x) t.machine kind false intent out
      t'.machine := (begin_ensures hp.honours (h.constant hp)).of_eq hbegin
  obtain ⟨s, hs, hrank, -⟩ := (hbegins.mono Contract.constant_refines).rank
  obtain ⟨-, s', hs', hkind, hmodes, hconfirmation⟩ := hbegins.session
  cases hs.symm.trans hs'
  obtain ⟨rest, hlist⟩ := screens_eq config kind t.machine.modes pages
  refine ⟨rest, h.exists_act (.begin kind false intent) rfl hbegin, s, hs, hbegins.state,
    hconfirmation, ?_⟩
  rw [hrank, Session.list, hkind, hmodes, List.drop_zero, hlist]

theorem Walks.pagesOf (hp : p.Constant config pages x) {steps : List Step}
    (h : Run p config steps t) (hbegin : begin p kind false intent t = .ok (.ok out, t'))
    (hwalks : Walks p t' screens) {n : Nat} {count : UInt8} (hcount : pages[n]? = some count) :
    screens.filterMap (Screen.pageOf? n) =
      (List.range count.toNat).map fun page =>
        (.ofNat page, (x.shown config (n.toUInt8, .ofNat page)).2) := by
  obtain ⟨rest, hahead⟩ := ahead_of_begin hp h hbegin
  rw [hwalks.filterMap_eq hp (fun screen hscreen => Screen.pageOf?_eq hscreen n)
    (by simp [itemScreens]) hahead]
  exact x.filterMap_pageOf? config _ (hp.length_lt t.content) hcount

end

variable {t t₀ : Sitting Engine Document.Reading} {kind : Kind} {intent : Option String}
  {out : Output}

theorem begin_fixed {C : Contract config} {confirmation : Bool} {r : Except Error Output}
    (he : Sound C t.machine) (hidle : t.machine.state = .idle)
    (hbegin : begin Document.provider kind confirmation intent t = .ok (r, t₀)) :
    ∃ s₀, begin (Document.provider.fixed ⟨t.content.document, none⟩) kind confirmation intent
        ⟨startWith config t.machine.modes, (), []⟩ = .ok (r, s₀) ∧
      s₀.Alike (fun _ r => r.document = t.content.document) t₀ := by
  rw [begin_of_idle hidle (he.session_eq_none (Or.inl hidle)) he.config] at hbegin
  obtain ⟨s₀, hbegin', halike⟩ := mirrors_begin (Document.fixed_matches t.content.document).flip
    kind confirmation intent { t with machine := startWith config t.machine.modes }
    ⟨startWith config t.machine.modes, (), []⟩ ⟨rfl, rfl⟩ _ _ hbegin
  exact ⟨s₀, hbegin', halike.flip⟩

theorem length_lt_of_begin {confirmation : Bool}
    (hbegin : begin Document.provider kind confirmation intent t = .ok (.ok out, t₀)) :
    t.content.document.items.length < 256 := by
  obtain ⟨count, hcount⟩ := itemCount_of_begin hbegin
  exact Decidable.byContradiction fun hge => by cases hcount.symm.trans (if_neg hge)

/-- Whatever has been before, the review of a document goes as it does from a fresh engine, in front
of the document as it stands. -/
theorem exists_fixed {confirmation : Bool} {steps : List Step}
    (h : Run Document.provider config steps t)
    (hbegin : begin Document.provider kind confirmation intent t = .ok (.ok out, t₀)) :
    ∃ before s₀, Run (Document.provider.fixed ⟨t.content.document, none⟩) config before
        ⟨startWith config t.machine.modes, (), []⟩ ∧
      begin (Document.provider.fixed ⟨t.content.document, none⟩) kind confirmation intent
        ⟨startWith config t.machine.modes, (), []⟩ = .ok (.ok out, s₀) ∧
      s₀.Alike (fun _ r => r.document = t.content.document) t₀ := by
  have hhonours := Contract.honours_any Document.provider config
  have he := h.sound hhonours trivial
  have hidle : t.machine.state = .idle := Begins.idle ((begin_ensures hhonours he).of_eq hbegin)
  obtain ⟨s₀, hbegin', halike⟩ := begin_fixed he hidle hbegin
  obtain ⟨before, hrun⟩ := exists_run_startWith
    (Document.provider.fixed ⟨t.content.document, none⟩) () config t.machine.modes
  exact ⟨before, s₀, hrun, hbegin', halike⟩

theorem exists_begin_document (d : Document) (config : Config) (modes : Modes) (kind : Kind)
    (confirmation : Bool) (intent : Option String)
    (hroom : d.items.length + (introScreens kind modes config.titleScreen).length +
      config.terminal.trailing.toNat ≤ 255) :
    ∃ t₀, begin Document.provider kind confirmation intent
      ⟨startWith config modes, ⟨d, none⟩, []⟩ = .ok (.ok .redraw, t₀) := by
  have hp := d.constant (by omega) config
  obtain ⟨_, hrun⟩ := exists_run_startWith (Document.provider.fixed ⟨d, none⟩) () config modes
  obtain ⟨s₀, hbegin⟩ := exists_begin hp hrun rfl kind confirmation intent
    (by rwa [Document.layout, List.length_map])
  obtain ⟨t₀, hbegin', -⟩ := mirrors_begin (Document.fixed_matches d) kind confirmation intent
    _ ⟨startWith config modes, ⟨d, none⟩, []⟩ ⟨rfl, rfl⟩ _ _ hbegin
  exact ⟨t₀, hbegin'⟩

/-- A review of a document that begins leads up to the approve screen. -/
theorem walks_of_run {steps : List Step} (h : Run Document.provider config steps t)
    (hbegin : begin Document.provider kind false intent t = .ok (.ok out, t₀)) :
    ∃ screens, Walks Document.provider t₀ screens ∧
      ∀ (n : Nat) (item : Document.Item), t.content.document.items[n]? = some item →
        screens.filterMap (Screen.pageOf? n) = item.value.shown config := by
  have hlength := length_lt_of_begin hbegin
  have hp := t.content.document.constant hlength config
  obtain ⟨_, s₀, hrun, hbegin', halike⟩ := exists_fixed h hbegin
  obtain ⟨rest, hahead⟩ := ahead_of_begin hp hrun hbegin'
  obtain ⟨screens, hwalks, -⟩ := exists_walks hp (by simp [itemScreens]) hahead
  refine ⟨screens, hwalks.mirrors (Document.fixed_matches t.content.document) halike,
    fun n item hitem => ?_⟩
  have hn : n < 256 := Nat.lt_trans (List.getElem?_eq_some_iff.1 hitem).1 hlength
  have hcount : (t.content.document.layout config)[n]? = some (item.value.pageCount config) := by
    rw [Document.layout, List.getElem?_map, hitem]
    rfl
  rw [hwalks.pagesOf hp hrun hbegin' hcount, ← item.value.shown_eq config]
  refine List.map_congr_left fun page _ => ?_
  rw [Content.shown, Document.content_item hitem hn]

/-- After any run, a review that begins without offers to skip reaches the approve screen going on.
On its way it shows of each item the first 255 pages, one by one from the first; put together they
are the value of the item exactly if there are no more. -/
theorem values_of_run {steps : List Step} (h : Run Document.provider config steps t)
    (hbegin : begin Document.provider kind false intent t = .ok (.ok out, t₀)) :
    ∃ screens, Walks Document.provider t₀ screens ∧
      ∀ (n : Nat) (item : Document.Item), t.content.document.items[n]? = some item →
        screens.filterMap (Screen.pageOf? n) = item.value.shown config ∧
        (String.join ((screens.filterMap (Screen.pageOf? n)).map (·.2)) = item.value.value ↔
          (item.value.pages config).length ≤ 255) := by
  obtain ⟨screens, hwalks, hshown⟩ := walks_of_run h hbegin
  refine ⟨screens, hwalks, fun n item hitem => ?_⟩
  rw [hshown n item hitem]
  exact ⟨rfl, item.value.join_shown_iff config⟩

theorem values_of_run_memo : ∃ t₀ screens,
    begin Document.provider .transaction false none ⟨.start .nanoS, ⟨.memo, none⟩, []⟩ =
      .ok (.ok .redraw, t₀) ∧
    Walks Document.provider t₀ screens ∧
    String.join ((screens.filterMap (Screen.pageOf? 0)).map (·.2)) = "two words" := by
  obtain ⟨t₀, hbegin⟩ := exists_begin_document .memo .nanoS .none .transaction false none
    (by decide)
  have hrun : Run Document.provider .nanoS [] ⟨.start .nanoS, ⟨.memo, none⟩, []⟩ := .start _
  obtain ⟨screens, hwalks, hshown⟩ := values_of_run hrun hbegin
  obtain ⟨-, hwhole⟩ := hshown 0 (.leaf ⟨"Memo", "two words"⟩) rfl
  refine ⟨t₀, screens, hbegin, hwalks, hwhole.2 ?_⟩
  have hlength : "two words".toList.length ≤ 255 := by decide
  exact Nat.le_trans (Text.length_pages_le _ _ _) hlength

/-- A value of 256 pages is not shown in full. -/
theorem not_whole_value : ∃ t₀ screens,
    begin Document.provider .transaction false none
        ⟨.start { Config.nanoS with pageLength := 1 }, ⟨.lengthy, none⟩, []⟩ =
      .ok (.ok .redraw, t₀) ∧
    Walks Document.provider t₀ screens ∧
    String.join ((screens.filterMap (Screen.pageOf? 0)).map (·.2)) ≠
      .ofList (List.replicate 256 'a') := by
  obtain ⟨t₀, hbegin⟩ := exists_begin_document .lengthy { Config.nanoS with pageLength := 1 } .none
    .transaction false none (by decide)
  have hrun : Run Document.provider { Config.nanoS with pageLength := 1 } []
      ⟨.start { Config.nanoS with pageLength := 1 }, ⟨.lengthy, none⟩, []⟩ := .start _
  obtain ⟨screens, hwalks, hshown⟩ := walks_of_run hrun hbegin
  have hitem := hshown 0 (.leaf ⟨"Memo", .ofList (List.replicate 256 'a')⟩) rfl
  refine ⟨t₀, screens, hbegin, hwalks, fun hwhole => ?_⟩
  rw [hitem] at hwhole
  have hle := (Document.Entry.join_shown_iff _ _).1 hwhole
  have hge := Text.le_length_pages_mul valueCapacity 1 (.ofList (List.replicate 256 'a'))
  rw [String.toList_ofList, List.length_replicate, Nat.max_self, Nat.mul_one] at hge
  exact absurd (Nat.le_trans hge hle) (by decide)

end Engine
end WalletReview
