import WalletReview.Checked
import WalletReview.Config
import WalletReview.Json.Record

/-! Configurations read from JSON. -/
namespace WalletReview.Config

open Json

/-- A configuration of which not all fields may be known. -/
structure Draft where
  pageLength : Option Nat := none
  lineLength : Option Nat := none
  skipMinItem : Option UInt8 := none
  titleScreen : Option Bool := none
  terminal : Option TerminalMode := none
  inspectLayout : Option InspectLayout := none
  labelStyle : Option LabelStyle := none
  touchLabels : Option Bool := none
  pairsPerScreen : Option UInt8 := none

def Draft.build (d : Draft) : Option Config := do
  return {
    pageLength := ← d.pageLength
    lineLength := ← d.lineLength
    skipMinItem := ← d.skipMinItem
    titleScreen := ← d.titleScreen
    terminal := ← d.terminal
    inspectLayout := ← d.inspectLayout
    labelStyle := ← d.labelStyle
    touchLabels := ← d.touchLabels
    pairsPerScreen := ← d.pairsPerScreen }

def word : Reader Nat := Reader.natural wordValues

def byte : Reader UInt8 := do
  return .ofNat (← Reader.natural 256)

/-- The fields in their order, inside a bracket at which `depth` more are refused. -/
def members (depth : Nat) : List (Reader.Member Draft) :=
  [⟨"page_len", (·.pageLength.isSome), do
      let n ← word
      return ({ · with pageLength := some n })⟩,
    ⟨"line_len", (·.lineLength.isSome), do
      let n ← word
      return ({ · with lineLength := some n })⟩,
    ⟨"skip_min_item", (·.skipMinItem.isSome), do
      let n ← byte
      return ({ · with skipMinItem := some n })⟩,
    ⟨"title_screen", (·.titleScreen.isSome), do
      let b ← Reader.flag
      return ({ · with titleScreen := some b })⟩,
    ⟨"terminal", (·.terminal.isSome), do
      let mode ← Reader.variant depth TerminalMode.ofName?
      return ({ · with terminal := some mode })⟩,
    ⟨"inspect_layout", (·.inspectLayout.isSome), do
      let layout ← Reader.variant depth InspectLayout.ofName?
      return ({ · with inspectLayout := some layout })⟩,
    ⟨"label_style", (·.labelStyle.isSome), do
      let style ← Reader.variant depth LabelStyle.ofName?
      return ({ · with labelStyle := some style })⟩,
    ⟨"touch_labels", (·.touchLabels.isSome), do
      let b ← Reader.flag
      return ({ · with touchLabels := some b })⟩,
    ⟨"pairs_per_screen", (·.pairsPerScreen.isSome), do
      let n ← byte
      return ({ · with pairsPerScreen := some n })⟩]

def reader : Reader Config :=
  Reader.record Reader.depthLimit (members (Reader.depthLimit - 1)) {} Draft.build

def parse (s : String) : Except Refusal Config := Reader.whole reader s

end WalletReview.Config
