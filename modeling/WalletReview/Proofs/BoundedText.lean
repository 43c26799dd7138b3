import WalletReview.Field

/-! Bounded texts as texts. `Holds` ties a storage to the characters that it holds: their encoding,
and zeros from there to the capacity. Every operation is described by what it does to them. -/
namespace WalletReview

namespace Text

@[simp] theorem size_append (cs ds : List Char) : size (cs ++ ds) = size cs + size ds := by
  induction cs with
  | nil => simp
  | cons c cs ih => simp only [List.cons_append, size_cons, ih]; omega

theorem size_eq_zero_iff {cs : List Char} : size cs = 0 ↔ cs = [] := by
  cases cs with
  | nil => simp
  | cons c cs =>
    have := Char.utf8Size_pos c
    simp only [size_cons, reduceCtorEq, iff_false]
    omega

theorem fitting_isPrefix (room : Nat) (cs : List Char) : fitting room cs <+: cs := by
  induction cs generalizing room with
  | nil => exact List.nil_prefix
  | cons c cs ih =>
    rw [fitting]
    split
    · exact List.prefix_cons_inj c |>.2 (ih _)
    · exact List.nil_prefix

theorem fitting_append {room : Nat} {cs ds : List Char} (h : size cs ≤ room) :
    fitting room (cs ++ ds) = cs ++ fitting (room - size cs) ds := by
  induction cs generalizing room with
  | nil => simp
  | cons c cs ih =>
    simp only [size_cons] at h
    rw [List.cons_append, fitting, if_pos (by omega), ih (by omega), size_cons, Nat.sub_sub,
      List.cons_append]

/-- The numbers on a label have three digits at most. -/
theorem size_toString_le {k : Nat} (h : k ≤ 256) : size (toString k).toList ≤ 3 := by
  have hall : ∀ i : Fin 257, size (toString i.val).toList ≤ 3 := by decide +kernel
  exact hall ⟨k, by omega⟩

end Text

theorem LabelStyle.size_label_le (style : LabelStyle) (page count : UInt8) :
    Text.size (style.label page count).toList ≤ 10 := by
  have hpage := Text.size_toString_le (show page.toNat + 1 ≤ 256 from page.toNat_lt)
  have hcount := Text.size_toString_le (show count.toNat ≤ 256 from Nat.le_of_lt count.toNat_lt)
  have hopen : Text.size (" [".toList) = 2 ∧ Text.size (" (".toList) = 2 := by decide
  have hclose : Text.size ("]".toList) = 1 ∧ Text.size (")".toList) = 1 := by decide
  have hslash : Text.size ("/".toList) = 1 := by decide
  cases style
  all_goals
    simp only [label, String.toList_append, Text.size_append]
    omega

namespace BoundedText

variable {n : Nat} {t : BoundedText n} {cs ds : List Char}

@[simp] theorem encode_nil : encode [] = [] := rfl

@[simp] theorem encode_append (cs ds : List Char) : encode (cs ++ ds) = encode cs ++ encode ds :=
  List.flatMap_append

@[simp] theorem encode_length (cs : List Char) : (encode cs).length = Text.size cs := by
  induction cs with
  | nil => rfl
  | cons c cs ih => simp_all [encode]

theorem fromUTF8_encode (cs : List Char) :
    String.fromUTF8? (encode cs).toByteArray = some (String.ofList cs) := by
  have henc : (encode cs).toByteArray = cs.utf8Encode := rfl
  rw [henc, String.fromUTF8?, dif_pos ByteArray.isValidUTF8_utf8Encode]
  rfl

/-- The characters held, with nothing but zeros behind them. -/
structure Holds (t : BoundedText n) (cs : List Char) : Prop where
  fits : Text.size cs ≤ n
  used : t.used = Text.size cs
  buffer : t.buffer = encode cs ++ List.replicate (n - Text.size cs) 0

namespace Holds

theorem text (h : t.Holds cs) : t.text = String.ofList cs := by
  have htake : t.buffer.take t.used = encode cs := by
    rw [h.buffer, h.used, List.take_left' (encode_length cs)]
  rw [BoundedText.text, htake, fromUTF8_encode]
  rfl

theorem isEmpty_iff (h : t.Holds cs) : t.isEmpty = true ↔ cs = [] := by
  rw [isEmpty, h.used, beq_iff_eq, Text.size_eq_zero_iff]

theorem unique {u : BoundedText n} (h : t.Holds cs) (hu : u.Holds cs) : t = u := by
  obtain ⟨buffer, used⟩ := t
  obtain ⟨buffer', used'⟩ := u
  cases h.used.trans hu.used.symm
  cases h.buffer.trans hu.buffer.symm
  rfl

end Holds

theorem holds_empty : (empty n).Holds [] where
  fits := Nat.zero_le n
  used := rfl
  buffer := by simp [empty]

theorem holds_wipe (t : BoundedText n) : t.wipe.Holds [] := holds_empty

theorem Holds.clear_eq (h : t.Holds cs) : t.clear = empty n := by
  have hfits := h.fits
  have hbuffer : overwrite t.buffer 0 (.replicate t.used 0) = List.replicate n 0 := by
    simp only [overwrite, h.buffer, h.used, List.take_zero, List.nil_append, List.length_replicate,
      Nat.zero_add, ← encode_length, List.drop_left]
    rw [List.replicate_append_replicate, encode_length]
    congr 1
    omega
  rw [clear, hbuffer]
  rfl

theorem Holds.clear (h : t.Holds cs) : t.clear.Holds [] := by
  rw [h.clear_eq]
  exact holds_empty

theorem take_floorBoundary (cs : List Char) (k : Nat) :
    (encode cs).take (Text.floorBoundary cs k) = encode (Text.fitting k cs) := by
  obtain ⟨ds, hds⟩ := Text.fitting_isPrefix k cs
  have hencode : encode cs = encode (Text.fitting k cs) ++ encode ds := by
    rw [← encode_append, hds]
  rw [hencode, Text.floorBoundary_eq, List.take_left' (encode_length _)]

theorem appendChars_eq (t : BoundedText n) (ds : List Char) :
    t.appendChars ds = ⟨overwrite t.buffer t.used (encode (Text.fitting (n - t.used) ds)),
      t.used + Text.size (Text.fitting (n - t.used) ds)⟩ := by
  simp only [appendChars, take_floorBoundary]
  rw [Text.floorBoundary_eq]

/-- Of the characters appended, those are kept that fit, up to the first that does not. -/
theorem Holds.appendChars (h : t.Holds cs) (ds : List Char) :
    (t.appendChars ds).Holds (cs ++ Text.fitting (n - Text.size cs) ds) := by
  have hfits := h.fits
  have hpiece := Text.size_fitting_le (n - Text.size cs) ds
  refine ⟨by simp only [Text.size_append]; omega, ?_, ?_⟩
  · simp only [appendChars_eq, h.used, Text.size_append]
  · simp only [appendChars_eq, overwrite, h.buffer, h.used, encode_append, encode_length,
      Text.size_append]
    rw [← encode_length cs, List.take_left, List.drop_append, List.drop_eq_nil_of_le (by omega),
      List.nil_append, List.drop_replicate, List.append_assoc, List.append_assoc, encode_length]
    congr 3
    omega

theorem Holds.append (h : t.Holds cs) (s : String) :
    (t.append s).1.Holds (Text.fitting n (cs ++ s.toList)) := by
  rw [Text.fitting_append h.fits]
  exact h.appendChars s.toList

theorem Holds.set (h : t.Holds cs) (s : String) :
    (t.set s).1.Holds (Text.fitting n s.toList) :=
  h.clear.append s

theorem Holds.appendLabel (h : t.Holds cs) (page count : UInt8) (style : LabelStyle) :
    (t.appendLabel page count style).Holds
      (if count ≤ 1 then cs else Text.fitting n (cs ++ (style.label page count).toList)) := by
  rw [BoundedText.appendLabel]
  split
  · exact h
  · exact h.append _

theorem Holds.truncate (h : t.Holds cs) (k : Nat) : (t.truncate k).Holds (Text.fitting k cs) := by
  rw [BoundedText.truncate, h.used, h.text, String.toList_ofList, Text.floorBoundary_eq]
  split
  · rename_i hle
    rwa [Text.fitting_eq_self hle]
  · rename_i hlt
    have hkept := Text.size_fitting_le k cs
    have hfits := h.fits
    obtain ⟨ds, hds⟩ := Text.fitting_isPrefix k cs
    have hsize : Text.size cs = Text.size (Text.fitting k cs) + Text.size ds := by
      rw [← Text.size_append, hds]
    have hencode : encode cs = encode (Text.fitting k cs) ++ encode ds := by
      rw [← encode_append, hds]
    refine ⟨by omega, by simp, ?_⟩
    have hrest : Text.size cs - Text.size (Text.fitting k cs) = Text.size ds := by omega
    simp only [overwrite, h.buffer, hencode, List.length_replicate, hrest]
    rw [List.append_assoc (encode _), List.take_left' (encode_length _), ← List.append_assoc,
      List.drop_left' (by simp), List.append_assoc, List.replicate_append_replicate]
    congr 2
    omega

theorem Holds.setIntent (h : t.Holds cs) (intent : String) :
    ∃ ds, (t.setIntent intent).Holds ds := by
  have hwhole := (h.set "to ").append intent
  unfold BoundedText.setIntent
  simp only
  split
  · exact ⟨_, hwhole⟩
  · exact ⟨_, (hwhole.truncate (n - 3)).append "..."⟩

end BoundedText
end WalletReview
