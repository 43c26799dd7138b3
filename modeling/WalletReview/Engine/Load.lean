import WalletReview.Engine.Basic

/-! Loading the screen under the top-level cursor, or that under the cursor of an inspection. Items
and children without pages are passed over in the direction of travel, and a page beyond the last is
asked for once more as the last. The children are counted anew for every screen. A provider that
fails aborts the review, which then shows an error. -/
namespace WalletReview.Engine

inductive Direction
  | forward
  | backward
  deriving DecidableEq

variable {σ : Type}

def showErrorScreen (upper lower : String) : Operation Engine σ Unit :=
  Operation.modifyMachine fun e =>
    { e with
      session := none
      field := (e.field.wipe.setKey upper).setValue lower
      state := .error }

def errorKey : String := "ERROR"

def errorValue : String := "SHOWING DATA"

def fail {α : Type} (cause : Error) : Operation Engine σ α := do
  Operation.note (.failed cause)
  showErrorScreen errorKey errorValue
  throw cause

/-- Abort the review if `body` is refused; otherwise see to it that the value on screen is not
empty. -/
def loading (body : Operation Engine σ Bool) : Operation Engine σ Bool := do
  match ← body.attempt with
  | .ok found =>
    modifyField fun f => if f.value.isEmpty then f.setValue " " else f
    return found
  | .error cause => fail cause

def terminalText (s : Session) (config : Config) : String × String :=
  if s.isReject then ("", "REJECT")
  else if s.modes.blindSignRequired && s.kind.isSigning then ("ACCEPT RISK", "AND APPROVE")
  else if config.touchLabels then
    match s.kind with
    | .transaction => ("Sign transaction?", "")
    | .generic => ("Accept operation?", "")
    | _ => ("Approve", "")
  else ("", "APPROVE")

def setText (text : String × String) : Operation Engine σ Unit :=
  modifyField fun f => (f.setKey text.1).setValue text.2

def loadProviderTitle (p : Provider σ) : Operation Engine σ Bool := do
  match ← (askField p.title).attempt with
  | .ok () => return true
  | .error .noData =>
    modifyField Field.clear
    return false
  | .error cause => throw cause

/-- The text of an intro screen. The title is the intent if there is one, else that of the provider
for transactions and generic operations, else the one of the kind. -/
def loadIntro (p : Provider σ) (s : Session) (screen : IntroScreen) : Operation Engine σ Unit := do
  if screen = .title then
    if !s.intent.isEmpty then
      let key := if s.kind = .message then "Review message" else "Review transaction"
      setText (key, s.intent.text)
      return
    if s.kind = .transaction || s.kind = .generic then
      if ← loadProviderTitle p then return
  setText (screen.text s.kind)

/-- The text of the page under `cursor`, given by `query` with `pages` pages, where the cursor may
be beyond the last page. The cursor is then clamped, and the last page asked for. -/
def loadPage (cursor : Cursor) (pages : UInt8) (setCursor : Cursor → Operation Engine σ Unit)
    (query : UInt8 → Operation Engine σ UInt8) : Operation Engine σ Unit := do
  let (cursor, beyond) := cursor.clamp pages
  setCursor cursor
  let style := (← Operation.machine).config.labelStyle
  if beyond then
    modifyField Field.clear
    let pages ← query cursor.page
    if pages ≤ cursor.page then throw .unknown
    setCursor { cursor with pageCount := pages }
    modifyField (·.labelKey cursor.page pages style)
  else
    modifyField (·.labelKey cursor.page pages style)

/-- Look at the place under the top-level cursor. The answer is whether the direction of travel has
a screen at all; there is none yet where the cursor is moved on to the next place. -/
def topRound (p : Provider σ) (dir : Direction) : Operation Engine σ (Option Bool) := do
  let s ← getSession
  modifyField Field.clear
  match s.introScreen? with
  | some screen =>
    loadIntro p s screen
    setSession { s with cursor := (s.cursor.clamp 1).1 }
    return some true
  | none =>
    if s.isTerminal then
      if s.terminal = .dedicated then setState .confirm
      setText (terminalText s (← Operation.machine).config)
      setSession { s with cursor := (s.cursor.clamp 1).1 }
      return some true
    let index ← Checked.sub8 s.cursor.item s.leading
    let pages ← askField (p.item index s.cursor.page)
    if pages = 0 then
      Operation.note (.emptyItem index)
      match dir with
      | .forward =>
        let item ← Checked.add8 s.cursor.item 1
        setSession { s with cursor := { s.cursor with item, page := 0 } }
        return none
      | .backward =>
        if h : 1 ≤ s.cursor.item then
          let item := diff8 s.cursor.item 1 h
          setSession { s with cursor := { s.cursor with item, page := Cursor.lastPage } }
          return none
        else return some false
    else
      loadPage s.cursor pages (fun cursor => setSession { s with cursor })
        (fun page => askField (p.item index page))
      return some true

/-- Look at places up to the first that has a screen. There are rounds enough for all of them; what
follows where they have passed without an answer is `after`. -/
def topLoop (p : Provider σ) (dir : Direction) (after : Operation Engine σ Bool) :
    Operation Engine σ Bool := do
  let s ← getSession
  Operation.loop (topRound p dir) after (s.cursor.itemCount.toNat + s.terminal.trailing.toNat + 1)

/-- Load the screen under the top-level cursor, or abort the review. -/
def load (p : Provider σ) (dir : Direction) : Operation Engine σ Bool :=
  loading (topLoop p dir (throw .unknown))

def clampItem (i : Inspection) : Inspection :=
  let c := i.cursor
  let item :=
    if h : 1 ≤ c.itemCount then
      if c.itemCount ≤ c.item then diff8 c.itemCount 1 h else c.item
    else 0
  { i with cursor := { c with item } }

/-- Look at the place under the inspection cursor, as `topRound` does in the list. -/
def childRound (p : Provider σ) (dir : Direction) : Operation Engine σ (Option Bool) := do
  let i ← getInspection
  modifyField Field.clear
  if i.isGoToRoot || i.isBack then
    modifyField (·.setValue (if i.isBack then "BACK" else "Go to root"))
    setInspection { i with cursor := (i.cursor.clamp 1).1 }
    return some true
  match i.childIndex with
  | none =>
    setInspection { i with cursor := (i.cursor.clamp 1).1 }
    return some true
  | some child =>
    let path ← i.trace
    let pages ← askField (p.child path child i.cursor.page)
    if pages = 0 then
      match dir with
      | .forward =>
        if i.cursor.item.toNat + 1 < i.cursor.itemCount.toNat then
          let item ← Checked.add8 i.cursor.item 1
          setInspection { i with cursor := { i.cursor with item, page := 0 } }
          return none
        else return some false
      | .backward =>
        if h : 1 ≤ i.cursor.item then
          let item := diff8 i.cursor.item 1 h
          setInspection { i with cursor := { i.cursor with item, page := Cursor.lastPage } }
          return none
        else return some false
    else
      loadPage i.cursor pages (fun cursor => setInspection { i with cursor })
        (fun page => askField (p.child path child page))
      return some true

/-- Count the children at the current level, and look at places up to the first that has a screen.
-/
def childLoop (p : Provider σ) (dir : Direction) (after : Operation Engine σ Bool) :
    Operation Engine σ Bool := do
  let i ← getInspection
  let path ← i.trace
  let count ← Operation.settle (← Operation.ask (p.childCount path))
  let i := clampItem (i.setChildCount count)
  setInspection i
  Operation.loop (childRound p dir) after (i.cursor.itemCount.toNat + 1)

def loadChild (p : Provider σ) (dir : Direction) : Operation Engine σ Bool :=
  loading (childLoop p dir (throw .unknown))

/-- A way of loading screens: that under the top-level cursor, and that under an inspection cursor.
The operations that load a screen are given for any of them, so that it can be told which calls they
make. -/
structure Loader (σ : Type) where
  top : Direction → Operation Engine σ Bool
  child : Direction → Operation Engine σ Bool

def loader (p : Provider σ) : Loader σ := ⟨load p, loadChild p⟩

end WalletReview.Engine
