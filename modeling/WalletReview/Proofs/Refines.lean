import WalletReview.Proofs.Screens

/-! Contracts that allow less. What a review does under a contract, it does under every contract
that allows more; so one run can be read under the page counts and under the texts of a content. -/
namespace WalletReview

open Engine (Direction)

variable {config : Config} {C D : Contract config}

/-- Every reply for a screen of the list that the first contract allows is allowed by the second. -/
structure Contract.Refines (C D : Contract config) : Prop where
  field : ∀ f, C.field f → D.field f
  itemCount : ∀ r, C.itemCount r → D.itemCount r
  item : ∀ index page r w, C.item index page r w → D.item index page r w
  title : ∀ r w, C.title r w → D.title r w

theorem Contract.Wrote.mono (hC : C.Refines D) {text : String × String} {f : Field}
    (h : C.Wrote text f) : D.Wrote text f := by
  obtain ⟨g, hg, rfl⟩ := h
  exact ⟨g, hC.field g hg, rfl⟩

theorem Contract.Unsteady.mono {answer answer' : UInt8 → Except Error UInt8 → Field → Prop}
    (hanswer : ∀ page r w, answer page r w → answer' page r w) (h : Contract.Unsteady answer) :
    Contract.Unsteady answer' := by
  rcases h with ⟨page, cause, w, h⟩ | ⟨page, page', pages, last, w, w', h, h', hne⟩
  · exact Or.inl ⟨page, cause, w, hanswer _ _ _ h⟩
  · exact Or.inr ⟨page, page', pages, last, w, w', hanswer _ _ _ h, hanswer _ _ _ h', hne⟩

theorem Contract.Fails.mono (hC : C.Refines D) (h : C.Fails) : D.Fails := by
  cases h with
  | title hcause h => exact .title hcause (hC.title _ _ h)
  | item hcount hlt h => exact .item (hC.itemCount _ hcount) hlt (h.mono (hC.item _))

namespace Cursor

variable {c d : Cursor} {w : Field} {dir : Direction}

theorem Turns.mono {answer answer' : UInt8 → Except Error UInt8 → Field → Prop}
    (hanswer : ∀ page r w, answer page r w → answer' page r w) (h : Turns answer c d w) :
    Turns answer' c d w := by
  cases h with
  | within h hlt => exact .within (hanswer _ _ _ h) hlt
  | beyond h hle hpage h' hlt => exact .beyond (hanswer _ _ _ h) hle hpage (hanswer _ _ _ h') hlt

theorem Passes.mono {empty empty' : Cursor → Prop} (hempty : ∀ c, empty c → empty' c)
    (h : Passes empty dir c d) : Passes empty' dir c d :=
  h.imp fun _ _ _ => hempty _

end Cursor

namespace Session

variable {s : Session} {c d : Cursor} {f w : Field} {dir : Direction} (hC : C.Refines D)

include hC

theorem Fits.mono (h : s.Fits C) : s.Fits D :=
  ⟨h.terminal, h.intro, h.room, hC.itemCount _ h.counted, h.intent⟩

theorem Runs.mono (h : s.Runs C) : s.Runs D := ⟨h.fits.mono hC, h.spans⟩

theorem Empty.mono (h : s.Empty C c) : s.Empty D c := by
  obtain ⟨index, w, hat, h⟩ := h
  exact ⟨index, w, hat, hC.item _ _ _ _ h⟩

theorem IntroText.mono {screen : IntroScreen} (h : s.IntroText C screen f) :
    s.IntroText D screen f := by
  cases h with
  | intent hintent h => exact .intent hintent (h.mono hC)
  | provider hintent hkind h hf => exact .provider hintent hkind (hC.title _ _ h) (hC.field _ hf)
  | plain htitle h =>
    refine .plain (fun hscreen => ?_) (h.mono hC)
    obtain ⟨hintent, hnone⟩ := htitle hscreen
    refine ⟨hintent, fun hkind => ?_⟩
    obtain ⟨w, hw⟩ := hnone hkind
    exact ⟨w, hC.title _ _ hw⟩

theorem Rests.mono (h : s.Rests C c d w) : s.Rests D c d w := by
  cases h with
  | intro hscreen h => exact .intro hscreen (h.mono hC)
  | item hat h hw => exact .item hat (h.mono (hC.item _)) (hC.field _ hw)
  | decision hle h => exact .decision hle (h.mono hC)

theorem Lands.mono (h : s.Lands C dir c d w) : s.Lands D dir c d w := by
  obtain ⟨c', hpass, hrest⟩ := h
  exact ⟨c', hpass.mono fun _ => Empty.mono hC, hrest.mono hC⟩

theorem Shows.mono (h : s.Shows C f) : s.Shows D f := by
  obtain ⟨c, w, hrest, rfl⟩ := h
  exact ⟨c, w, hrest.mono hC, rfl⟩

end Session

theorem Engine.Begins.mono (hC : C.Refines D) {e e' : Engine} {out : Output} {kind : Kind}
    {confirmation : Bool} {intent : Option String}
    (h : Begins C e kind confirmation intent out e') :
    Begins D e kind confirmation intent out e' := by
  cases h with
  | begin hidle hfits hland => exact .begin hidle (hfits.mono hC) (hland.mono hC)

theorem Engine.Barred.mono (hC : C.Refines D) {e : Engine} {kind : Kind} (h : Barred C e kind) :
    Barred D e kind := by
  cases h with
  | uncounted h => exact .uncounted (hC.itemCount _ h)
  | crowded h hroom => exact .crowded (hC.itemCount _ h) hroom
  | fails h => exact .fails (h.mono hC)

end WalletReview
