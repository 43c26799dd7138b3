import WalletReview.Proofs.Edits

/-! Intents that are too long. What is written of a review's intent is the whole of it, or its
longest run of leading characters in front of an ellipsis that is whole itself. The intent is
appended, truncated and appended to; to the text this is a single cut. -/
namespace WalletReview

namespace Text

variable {n room : Nat} {cs kept : List Char} {s short : String}

/-- There is one longest run of leading characters. -/
theorem Longest.eq_fitting (h : Longest room cs kept) : kept = fitting room cs := by
  have hfitting := longest_fitting room cs
  have hle : kept <+: fitting room cs := hfitting.longest kept h.isPrefix h.fits
  have hge : fitting room cs <+: kept := h.longest _ hfitting.isPrefix hfitting.fits
  exact hle.eq_of_length_le hge.length_le

/-- `short` is `s` if that has at most `n` bytes. Otherwise it is as much of `s` as leaves room for
an ellipsis, and the ellipsis. -/
structure Abbreviates (n : Nat) (s short : String) : Prop where
  whole : s.utf8ByteSize ≤ n → short = s
  cut : n < s.utf8ByteSize → ∃ kept, Longest (n - 3) s.toList kept ∧ short = .ofList kept ++ "..."

def abbreviate (n : Nat) (cs : List Char) : List Char :=
  if size cs ≤ n then cs else fitting (n - 3) cs ++ "...".toList

theorem size_abbreviate_le (hn : 3 ≤ n) (cs : List Char) : size (abbreviate n cs) ≤ n := by
  have hkept := size_fitting_le (n - 3) cs
  have hdots : size "...".toList = 3 := by decide
  rw [abbreviate]
  split
  · assumption
  · rw [size_append, hdots]
    omega

theorem abbreviates_iff : Abbreviates n s short ↔ short = .ofList (abbreviate n s.toList) := by
  by_cases hfits : s.utf8ByteSize ≤ n
  · have hwhole : String.ofList (abbreviate n s.toList) = s := by
      rw [abbreviate, size_toList, if_pos hfits, String.ofList_toList]
    rw [hwhole]
    exact ⟨fun h => h.whole hfits, fun h => ⟨fun _ => h, fun hlt => absurd hfits (by omega)⟩⟩
  · have hcut : String.ofList (abbreviate n s.toList) =
        .ofList (fitting (n - 3) s.toList) ++ "..." := by
      rw [abbreviate, size_toList, if_neg hfits, String.ofList_append, String.ofList_toList]
    rw [hcut]
    constructor
    · intro h
      obtain ⟨kept, hkept, hshort⟩ := h.cut (Nat.lt_of_not_le hfits)
      rw [hshort, hkept.eq_fitting]
    · intro h
      exact ⟨fun hle => absurd hle hfits, fun _ => ⟨_, longest_fitting _ _, h⟩⟩

end Text

namespace BoundedText

open Text (size fitting abbreviate)

variable {n : Nat} {t : BoundedText n} {cs : List Char}

/-- Where three bytes have room, an intent is written abbreviated, whatever was there. -/
theorem Holds.setIntent_abbreviate (hn : 3 ≤ n) (h : t.Holds cs) (intent : String) :
    (t.setIntent intent).Holds (abbreviate n ("to " ++ intent).toList) := by
  have hto : (t.set "to ").1.Holds "to ".toList := by
    have hset := h.set "to "
    rwa [Text.fitting_eq_self hn] at hset
  have happend := hto.append intent
  have hroom : ((t.set "to ").1.append intent).2 = true ↔
      size ("to ".toList ++ intent.toList) ≤ n := hto.hasRoom_iff intent.toList
  rw [String.toList_append]
  unfold BoundedText.setIntent
  generalize (t.set "to ").1.append intent = r at happend hroom
  obtain ⟨whole, fits⟩ := r
  cases fits with
  | true =>
    have hfits := hroom.1 rfl
    rw [abbreviate, if_pos hfits]
    rwa [Text.fitting_eq_self hfits] at happend
  | false =>
    have hlong : ¬size ("to ".toList ++ intent.toList) ≤ n := fun hfits => nomatch hroom.2 hfits
    have hcut := (happend.truncate (n - 3)).append "..."
    -- behind what is kept, the ellipsis has room
    have hdots := Text.size_abbreviate_le hn ("to ".toList ++ intent.toList)
    rw [abbreviate, if_neg hlong] at hdots ⊢
    rwa [Text.fitting_fitting (Nat.sub_le n 3), Text.fitting_eq_self hdots] at hcut

/-- An intent that has room is written whole after `to`; of one that has not, the text ends in a
whole ellipsis behind as much as leaves room for it. What the storage held before makes no
difference. -/
theorem abbreviates_of_setIntent (hn : 3 ≤ n) (intent : String) : ∃ out : BoundedText n,
    (∀ edits, (ofEdits n edits).setIntent intent = out) ∧ out.Intact ∧
      out.text.utf8ByteSize ≤ n ∧
      ∀ short, Text.Abbreviates n ("to " ++ intent) short ↔ short = out.text := by
  have hout := holds_empty.setIntent_abbreviate hn intent
  refine ⟨(empty n).setIntent intent, fun edits => ?_, hout.intact, ?_, fun short => ?_⟩
  · obtain ⟨cs, h⟩ := holds_ofEdits n edits
    exact (h.setIntent_abbreviate hn intent).unique hout
  · rw [← hout.intact.used]
    exact hout.intact.used_le
  · rw [hout.text]
    exact Text.abbreviates_iff

theorem abbreviates_of_setIntent_euro : 3 ≤ 10 ∧ ∃ out : BoundedText 10,
    (∀ edits, (ofEdits 10 edits).setIntent "ab€€€" = out) ∧ out.text = "to ab..." := by
  obtain ⟨out, hout, -, -, hshort⟩ := abbreviates_of_setIntent (by decide : 3 ≤ 10) "ab€€€"
  refine ⟨by decide, out, hout, ((hshort "to ab...").1 ⟨?_, ?_⟩).symm⟩
  · intro hfits
    exact absurd hfits (by decide)
  · intro _
    exact ⟨_, Text.longest_fitting 7 _, by decide⟩

end BoundedText
end WalletReview
