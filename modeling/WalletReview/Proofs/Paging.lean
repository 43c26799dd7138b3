import WalletReview.Proofs.Edits

/-! Texts written page by page. Whatever a storage held, a page is written on it as the text is cut,
and put together the pages are the text, as far as they are counted. The count stops at 255; a page
of that number is written all the same if there is one. -/
namespace WalletReview

namespace Text

theorem cut_euro : Cut 2 "ab€cd" ["ab", "€", "cd"] where
  whole := by decide
  filled := by decide
  narrow := by decide
  maximal := by
    refine .cons_cons ?_ (.cons_cons ?_ (.singleton "cd"))
    · rintro _ ⟨⟩
      decide
    · rintro _ ⟨⟩
      decide

end Text

namespace BoundedText

variable {n : Nat} {t : BoundedText n} {cs : List Char} {s : String} {width : Nat} {page : UInt8}

theorem setPageChecked_eq_ok (hn : 0 < n) :
    t.setPageChecked s width page = .ok (t.setPage s width page) :=
  if_neg (Nat.pos_iff_ne_zero.1 hn)

/-- What a storage held makes no difference to the page that is written on it. -/
theorem Holds.setPage_eq (h : t.Holds cs) (s : String) (width : Nat) (page : UInt8) :
    t.setPage s width page = (empty n).setPage s width page := by
  rw [setPage, h.clear_eq, setPage, holds_empty.clear_eq]

theorem setPageChecked_ofEdits (hn : 0 < n) (edits : List Edit) :
    (ofEdits n edits).setPageChecked s width page = .ok ((empty n).setPage s width page) := by
  obtain ⟨cs, h⟩ := holds_ofEdits n edits
  rw [setPageChecked_eq_ok hn, h.setPage_eq]

theorem isEmpty_setPage_iff (hn : 4 ≤ n) :
    ((empty n).setPage s width page).1.isEmpty = true ↔
      (Text.pages n width s).length ≤ page.toNat := by
  rw [(holds_empty.page hn s width page).isEmpty_iff]
  cases hpiece : (Text.pages n width s)[page.toNat]? with
  | none => exact iff_of_true rfl (List.getElem?_eq_none_iff.1 hpiece)
  | some piece =>
    refine iff_of_false (Text.ne_nil_of_mem_pages (List.mem_of_getElem? hpiece)) ?_
    exact Nat.not_le_of_lt (List.getElem?_eq_some_iff.1 hpiece).1

theorem map_text_setPage (hn : 4 ≤ n) (s : String) (width : Nat) :
    (List.range (min (Text.pages n width s).length 255)).map
        (fun page => ((empty n).setPage s width (.ofNat page)).1.text) =
      ((Text.pages n width s).map String.ofList).take 255 := by
  refine List.ext_getElem (by simp [Nat.min_comm]) fun k hk _ => ?_
  rw [List.length_map, List.length_range] at hk
  have hpage : (UInt8.ofNat k).toNat = k := by
    rw [UInt8.toNat_ofNat']
    omega
  have hpiece : (Text.pages n width s)[k]? = some (Text.pages n width s)[k] :=
    List.getElem?_eq_getElem (by omega)
  rw [List.getElem_map, List.getElem_range, (holds_empty.page hn s width (.ofNat k)).text, hpage,
    hpiece, List.getElem_take, List.getElem_map]
  rfl

/-- A text is written page by page as it is cut, on storages with room for any character, whatever
they held. The pages are counted up to 255. Those that are counted are the text, if there are no
others, and else the first 255 of its pages. -/
theorem pages_of_setPage (hn : 4 ≤ n) (s : String) (width : Nat) :
    ∃ (pieces : List String) (count : UInt8) (written : UInt8 → BoundedText n),
      (∀ cut, Text.Cut (min (max width 1) n) s cut ↔ cut = pieces) ∧
      (∀ edits page,
        (ofEdits n edits).setPageChecked s width page = .ok (written page, count)) ∧
      count.toNat = min pieces.length 255 ∧ (count = 0 ↔ s = "") ∧
      (List.range count.toNat).map (fun page => (written (.ofNat page)).text) =
        pieces.take 255 ∧
      (String.join (pieces.take 255) = s ↔ pieces.length ≤ 255) := by
  refine ⟨(Text.pages n width s).map .ofList, saturate8 (Text.pages n width s).length,
    fun page => ((empty n).setPage s width page).1, fun cut => Text.cut_iff_eq_chunks,
    fun edits page => setPageChecked_ofEdits (by omega) edits, ?_, ?_, ?_, ?_⟩
  · rw [saturate8_toNat, List.length_map]
  · rw [← UInt8.toNat_inj, saturate8_toNat, ← Text.length_pages_eq_zero_iff n width]
    exact Nat.min_eq_zero_iff.trans (or_iff_left (by decide))
  · rw [saturate8_toNat]
    exact map_text_setPage hn s width
  · rw [List.length_map]
    exact Text.join_take_pages_iff n width 255

theorem pages_of_setPage_euro : 4 ≤ 4 ∧ ∃ (count : UInt8) (written : UInt8 → BoundedText 4),
    (∀ edits page, (ofEdits 4 edits).setPageChecked "ab€cd" 2 page = .ok (written page, count)) ∧
    count.toNat = 3 ∧
    (List.range 3).map (fun page => (written (.ofNat page)).text) = ["ab", "€", "cd"] := by
  obtain ⟨pieces, count, written, hcut, hwritten, hcount, -, htexts, -⟩ :=
    pages_of_setPage (by decide : 4 ≤ 4) "ab€cd" 2
  have hpieces : ["ab", "€", "cd"] = pieces := (hcut _).1 Text.cut_euro
  subst hpieces
  rw [hcount] at htexts
  exact ⟨Nat.le_refl 4, count, written, hwritten, hcount, htexts⟩

/-- A page is left blank exactly if its number is not below the count, unless it is 255 and the text
has more pages than are counted. -/
theorem blank_of_setPage (hn : 4 ≤ n) (s : String) (width : Nat) (edits : List Edit)
    (page : UInt8) :
    ∃ (pieces : List String) (out : BoundedText n) (count : UInt8),
      Text.Cut (min (max width 1) n) s pieces ∧ count.toNat = min pieces.length 255 ∧
      (ofEdits n edits).setPageChecked s width page = .ok (out, count) ∧
      (out.isEmpty = true ↔ count ≤ page ∧ (page = 255 → pieces.length ≤ 255)) := by
  have hcount : (saturate8 (Text.pages n width s).length).toNat =
      min (Text.pages n width s).length 255 := saturate8_toNat _
  refine ⟨(Text.pages n width s).map .ofList, ((empty n).setPage s width page).1,
    saturate8 (Text.pages n width s).length, Text.cut_chunks _ s, by rwa [List.length_map],
    setPageChecked_ofEdits (by omega) edits, ?_⟩
  have hpage : page = 255 ↔ page.toNat = 255 := UInt8.toNat_inj.symm
  have hlt := page.toNat_lt
  rw [isEmpty_setPage_iff hn, UInt8.le_iff_toNat_le, hcount, hpage, List.length_map]
  omega

theorem blank_of_setPage_euro : 4 ≤ 4 ∧ ∃ (out : BoundedText 4) (count : UInt8),
    (ofEdits 4 [.append "full"]).setPageChecked "ab€cd" 2 3 = .ok (out, count) ∧
      count.toNat = 3 ∧ out.isEmpty = true := by
  obtain ⟨pieces, out, count, hcut, hcount, hout, hblank⟩ :=
    blank_of_setPage (by decide : 4 ≤ 4) "ab€cd" 2 [.append "full"] 3
  have hpieces : pieces = ["ab", "€", "cd"] := hcut.eq_chunks.trans Text.cut_euro.eq_chunks.symm
  subst hpieces
  refine ⟨Nat.le_refl 4, out, count, hout, hcount, hblank.2 ⟨?_, nofun⟩⟩
  exact UInt8.le_iff_toNat_le.2 (Nat.le_of_eq hcount)

/-- The 256th page of a text is written, though it is not counted. -/
theorem not_blank_beyond_count : ∃ (out : BoundedText 4) (count : UInt8),
    (ofEdits 4 []).setPageChecked (.ofList (List.replicate 256 'a')) 1 255 = .ok (out, count) ∧
      ¬(out.isEmpty = true ↔ count ≤ 255) := by
  refine ⟨_, _, setPageChecked_ofEdits (by decide) [], fun hblank => ?_⟩
  have hlength := Text.le_length_pages_mul 4 1 (.ofList (List.replicate 256 'a'))
  rw [String.toList_ofList, List.length_replicate, Nat.max_self, Nat.mul_one] at hlength
  have hempty := hblank.2 (UInt8.le_iff_toNat_le.2 (Nat.le_of_lt_succ (UInt8.toNat_lt _)))
  exact absurd (Nat.le_trans hlength ((isEmpty_setPage_iff (by decide)).1 hempty)) (by decide)

end BoundedText
end WalletReview
