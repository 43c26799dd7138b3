import WalletReview.Proofs.Cuts

/-! Bounded texts as plain texts with a limit on their bytes. Whatever edits have been made, the
storage holds the text and nothing besides, so that two storages are equal as soon as their texts
are, and every further edit does to the text what `Edit.Revises` says. -/
namespace WalletReview

namespace Text

variable {room : Nat} {cs ds : List Char}

theorem fitting_eq_self_iff : fitting room cs = cs ↔ size cs ≤ room :=
  ⟨fun h => h ▸ size_fitting_le room cs, fitting_eq_self⟩

theorem floorBoundary_eq_size_iff : floorBoundary cs room = size cs ↔ size cs ≤ room := by
  rw [floorBoundary_eq]
  exact ⟨fun h => h ▸ size_fitting_le room cs, fun h => by rw [fitting_eq_self h]⟩

theorem fitting_append_of_lt (h : room < size cs) : fitting room (cs ++ ds) = fitting room cs := by
  induction cs generalizing room with
  | nil => exact absurd h (Nat.not_lt_zero room)
  | cons c cs ih =>
    rw [size_cons] at h
    rw [List.cons_append, fitting, fitting]
    split
    · rw [ih (by omega)]
    · rfl

end Text

namespace BoundedText

open Text (Longest size)

variable {n : Nat} {t : BoundedText n} {cs : List Char}

/-- `ds` is `cs` with as much of `added` behind it as fits in `n` bytes, and `whole` says whether
that is all of it. -/
def Extends (n : Nat) (cs added ds : List Char) (whole : Bool) : Prop :=
  ∃ kept, Longest (n - size cs) added kept ∧ ds = cs ++ kept ∧ (whole = true ↔ kept = added)

/-- What an edit makes of the characters of a text of at most `n` bytes, and what it answers. -/
def Edit.Revises (n : Nat) (cs : List Char) : Edit → List Char → Bool → Prop
  | set s, ds, whole => Extends n [] s.toList ds whole
  | append s, ds, whole => Extends n cs s.toList ds whole
  | push c, ds, whole => Extends n cs [c] ds whole
  | write parts, ds, whole => Extends n cs (String.join parts).toList ds whole
  | truncate size, ds, whole => Longest size cs ds ∧ whole = true
  | clear, ds, whole => ds = [] ∧ whole = true
  | wipe, ds, whole => ds = [] ∧ whole = true

theorem extends_fitting {added : List Char} {whole : Bool} (hfits : size cs ≤ n)
    (hwhole : whole = true ↔ size (cs ++ added) ≤ n) :
    Extends n cs added (Text.fitting n (cs ++ added)) whole := by
  refine ⟨_, Text.longest_fitting (n - size cs) added, Text.fitting_append hfits, ?_⟩
  rw [hwhole, Text.fitting_eq_self_iff, Text.size_append]
  omega

namespace Holds

theorem hasRoom_iff (h : t.Holds cs) (ds : List Char) :
    t.hasRoom ds = true ↔ size (cs ++ ds) ≤ n := by
  have hfits := h.fits
  rw [hasRoom, beq_iff_eq, Text.floorBoundary_eq_size_iff, h.used, Text.size_append]
  omega

/-- Texts that are appended in turn are appended as one. -/
theorem appendAll (h : t.Holds cs) (parts : List String) :
    (t.appendAll parts).1.Holds (Text.fitting n (cs ++ (String.join parts).toList)) ∧
      ((t.appendAll parts).2 = true ↔ size (cs ++ (String.join parts).toList) ≤ n) := by
  induction parts generalizing t cs with
  | nil =>
    rw [String.join_nil, String.toList_empty, List.append_nil, Text.fitting_eq_self h.fits]
    exact ⟨h, iff_of_true rfl h.fits⟩
  | cons s parts ih =>
    have happend := h.append s
    have hroom : (t.append s).2 = true ↔ size (cs ++ s.toList) ≤ n := h.hasRoom_iff s.toList
    rw [BoundedText.appendAll, String.join_cons, String.toList_append, ← List.append_assoc]
    -- the rest is written only behind a text that fits as a whole
    generalize t.append s = r at happend hroom
    obtain ⟨u, whole⟩ := r
    cases whole with
    | true =>
      rw [Text.fitting_eq_self (hroom.1 rfl)] at happend
      exact ih happend
    | false =>
      have hlt : n < size (cs ++ s.toList) := Nat.lt_of_not_le fun hle => nomatch hroom.2 hle
      rw [Text.fitting_append_of_lt hlt]
      refine ⟨happend, iff_of_false nofun ?_⟩
      rw [Text.size_append]
      omega

/-- An edit does to a storage what it does to the characters that this holds. -/
theorem perform (h : t.Holds cs) (e : Edit) :
    ∃ ds, (e.perform t).1.Holds ds ∧ e.Revises n cs ds (e.perform t).2 := by
  cases e with
  | set s =>
    exact ⟨_, h.clear.append s, extends_fitting (Nat.zero_le n) (h.clear.hasRoom_iff s.toList)⟩
  | append s => exact ⟨_, h.append s, extends_fitting h.fits (h.hasRoom_iff s.toList)⟩
  | push c =>
    have hpush := h.appendChars [c]
    rw [← Text.fitting_append h.fits] at hpush
    exact ⟨_, hpush, extends_fitting h.fits (h.hasRoom_iff [c])⟩
  | write parts =>
    obtain ⟨hheld, hwhole⟩ := h.appendAll parts
    exact ⟨_, hheld, extends_fitting h.fits hwhole⟩
  | truncate size => exact ⟨_, h.truncate size, Text.longest_fitting size cs, rfl⟩
  | clear => exact ⟨_, h.clear, rfl, rfl⟩
  | wipe => exact ⟨_, holds_wipe t, rfl, rfl⟩

theorem foldl_perform (h : t.Holds cs) (edits : List Edit) :
    ∃ ds, (edits.foldl (fun t e => (e.perform t).1) t).Holds ds := by
  induction edits generalizing t cs with
  | nil => exact ⟨cs, h⟩
  | cons e edits ih =>
    obtain ⟨ds, hds, -⟩ := h.perform e
    exact ih hds

end Holds

theorem holds_ofEdits (n : Nat) (edits : List Edit) : ∃ cs, (ofEdits n edits).Holds cs :=
  holds_empty.foldl_perform edits

structure Intact (t : BoundedText n) : Prop where
  used_le : t.used ≤ n
  length : t.buffer.length = n
  used : t.used = t.text.utf8ByteSize
  decodes : String.fromUTF8? (t.buffer.take t.used).toByteArray = some t.text
  wiped : ∀ b ∈ t.buffer.drop t.used, b = 0

theorem Holds.intact (h : t.Holds cs) : t.Intact where
  used_le := by
    rw [h.used]
    exact h.fits
  length := by
    have hfits := h.fits
    rw [h.buffer, List.length_append, encode_length, List.length_replicate]
    omega
  used := by rw [h.text, Text.utf8ByteSize_ofList, h.used]
  decodes := by
    rw [h.buffer, h.used, List.take_left' (encode_length cs), fromUTF8_encode, h.text]
  wiped b hb := by
    rw [h.buffer, h.used, List.drop_left' (encode_length cs)] at hb
    exact List.eq_of_mem_replicate hb

/-- Whatever edits have been made, a bounded text is stored with nothing else in its bytes, and each
further edit changes it as it changes a plain text of at most so many bytes. Equal texts are stored
equally. -/
theorem refines_of_edits (n : Nat) (edits others : List Edit) :
    (ofEdits n edits).Intact ∧
      (∀ e : Edit, e.Revises n (ofEdits n edits).text.toList
        (e.perform (ofEdits n edits)).1.text.toList (e.perform (ofEdits n edits)).2) ∧
      (ofEdits n edits = ofEdits n others ↔
        (ofEdits n edits).text = (ofEdits n others).text) := by
  obtain ⟨cs, h⟩ := holds_ofEdits n edits
  obtain ⟨ds, hother⟩ := holds_ofEdits n others
  refine ⟨h.intact, fun e => ?_, fun heq => congrArg _ heq, fun htext => ?_⟩
  · obtain ⟨es, hes, hrevises⟩ := h.perform e
    rwa [h.text, hes.text, String.toList_ofList, String.toList_ofList]
  · rw [h.text, hother.text, String.ofList_inj] at htext
    subst htext
    exact h.unique hother

end BoundedText
end WalletReview
