import WalletReview.Proofs.BoundedText
import WalletReview.Text.Page

/-! What cutting a text into pages keeps. The pages of a text make up the text again, each of them
holds some of it, and a page is never wider than the storage that it is written to, as long as that
has room for any one character. -/
namespace WalletReview

namespace Text

variable {width capacity : Nat} {cs piece : List Char} {s : String}

theorem firstChunk_isPrefix (width : Nat) (cs : List Char) : firstChunk width cs <+: cs := by
  by_cases hfit : fitting width cs = []
  · rw [firstChunk_of_fitting_eq_nil hfit]
    exact List.take_prefix 1 cs
  · rw [firstChunk_of_fitting_ne_nil hfit]
    exact fitting_isPrefix width cs

/-- A chunk keeps to the width, unless it is a single character. -/
theorem firstChunk_narrow (width : Nat) (cs : List Char) :
    size (firstChunk width cs) ≤ width ∨ (firstChunk width cs).length ≤ 1 := by
  by_cases hfit : fitting width cs = []
  · rw [firstChunk_of_fitting_eq_nil hfit]
    exact Or.inr (List.length_take_le 1 cs)
  · rw [firstChunk_of_fitting_ne_nil hfit]
    exact Or.inl (size_fitting_le width cs)

theorem chunks_of_ne_nil (width : Nat) (h : cs ≠ []) :
    chunks width cs =
      firstChunk width cs :: chunks width (cs.drop (firstChunk width cs).length) := by
  rw [chunks, dif_neg h]

@[simp] theorem chunks_nil (width : Nat) : chunks width [] = [] := by
  rw [chunks, dif_pos rfl]

@[simp] theorem flatten_chunks (width : Nat) (cs : List Char) : (chunks width cs).flatten = cs := by
  induction cs using chunks.induct width with
  | case1 => rw [chunks_nil, List.flatten_nil]
  | case2 cs h first ih =>
    rw [chunks_of_ne_nil width h, List.flatten_cons, ih]
    exact List.prefix_iff_eq_append.1 (firstChunk_isPrefix width cs)

@[simp] theorem chunks_eq_nil_iff : chunks width cs = [] ↔ cs = [] := by
  refine ⟨fun h => ?_, fun h => by rw [h, chunks_nil]⟩
  rw [← flatten_chunks width cs, h, List.flatten_nil]

theorem length_chunks_le (width : Nat) (cs : List Char) :
    (chunks width cs).length ≤ cs.length := by
  induction cs using chunks.induct width with
  | case1 =>
    rw [chunks_nil]
    exact Nat.le_refl 0
  | case2 cs h first ih =>
    have hpos : 0 < first.length := firstChunk_length_pos width h
    have hle : first.length ≤ cs.length := (firstChunk_isPrefix width cs).length_le
    rw [List.length_drop] at ih
    rw [chunks_of_ne_nil width h, List.length_cons]
    exact Nat.lt_of_le_of_lt ih (by omega)

theorem exists_of_mem_chunks (h : piece ∈ chunks width cs) :
    ∃ ds, ds ≠ [] ∧ piece = firstChunk width ds := by
  induction cs using chunks.induct width with
  | case1 => simp at h
  | case2 cs hne first ih =>
    rw [chunks_of_ne_nil width hne, List.mem_cons] at h
    rcases h with rfl | h
    · exact ⟨cs, hne, rfl⟩
    · exact ih h

theorem size_le_four (h : cs.length ≤ 1) : size cs ≤ 4 := by
  match cs, h with
  | [], _ => exact Nat.zero_le 4
  | [c], _ => simpa using Char.utf8Size_le_four c

@[simp] theorem flatten_pages (capacity width : Nat) (s : String) :
    (pages capacity width s).flatten = s.toList :=
  flatten_chunks _ _

theorem ne_nil_of_mem_pages (h : piece ∈ pages capacity width s) : piece ≠ [] := by
  obtain ⟨ds, hds, rfl⟩ := exists_of_mem_chunks h
  exact List.length_pos_iff.1 (firstChunk_length_pos _ hds)

theorem length_le_size (cs : List Char) : cs.length ≤ size cs := by
  induction cs with
  | nil => exact Nat.le_refl 0
  | cons c cs ih =>
    have := Char.utf8Size_pos c
    simp only [List.length_cons, size_cons]
    omega

theorem length_le_of_mem_pages (h : piece ∈ pages capacity width s) :
    piece.length ≤ max width 1 := by
  obtain ⟨ds, -, rfl⟩ := exists_of_mem_chunks h
  have hsize := length_le_size (firstChunk (min (max width 1) capacity) ds)
  have hnarrow := firstChunk_narrow (min (max width 1) capacity) ds
  omega

theorem length_pages_le (capacity width : Nat) (s : String) :
    (pages capacity width s).length ≤ s.toList.length :=
  length_chunks_le _ _

theorem le_length_pages_mul (capacity width : Nat) (s : String) :
    s.toList.length ≤ (pages capacity width s).length * max width 1 := by
  have h : ∀ piece ∈ pages capacity width s, piece.length ≤ max width 1 := fun _ =>
    length_le_of_mem_pages
  rw [← flatten_pages capacity width s]
  generalize pages capacity width s = all at h ⊢
  induction all with
  | nil => exact Nat.zero_le _
  | cons piece all ih =>
    have hpiece := h piece List.mem_cons_self
    have hall := ih fun piece hmem => h piece (List.mem_cons_of_mem _ hmem)
    rw [List.flatten_cons, List.length_append, List.length_cons, Nat.succ_mul]
    omega

theorem flatten_take_pages_iff (k : Nat) :
    ((pages capacity width s).take k).flatten = s.toList ↔
      (pages capacity width s).length ≤ k := by
  constructor
  · intro h
    refine Nat.le_of_not_lt fun hlt => ?_
    have hrest : ((pages capacity width s).drop k).flatten = [] := by
      have hsplit := congrArg List.flatten (List.take_append_drop k (pages capacity width s))
      rwa [List.flatten_append, flatten_pages, h, List.append_right_eq_self] at hsplit
    have hmem : (pages capacity width s)[k] ∈ (pages capacity width s).drop k :=
      List.mem_drop_iff_getElem.2 ⟨0, by omega, by simp⟩
    exact ne_nil_of_mem_pages (List.mem_of_mem_drop hmem)
      (List.flatten_eq_nil_iff.1 hrest _ hmem)
  · intro h
    rw [List.take_of_length_le h, flatten_pages]

theorem length_pages_eq_zero_iff (capacity width : Nat) :
    (pages capacity width s).length = 0 ↔ s = "" := by
  rw [List.length_eq_zero_iff, pages, chunks_eq_nil_iff, String.toList_eq_nil_iff]

theorem join_map_ofList (pieces : List (List Char)) :
    String.join (pieces.map String.ofList) = String.ofList pieces.flatten := by
  induction pieces with
  | nil => rfl
  | cons piece pieces ih =>
    rw [List.map_cons, String.join_cons, ih, List.flatten_cons, String.ofList_append]

theorem join_take_pages_iff (capacity width k : Nat) :
    String.join (((pages capacity width s).map .ofList).take k) = s ↔
      (pages capacity width s).length ≤ k := by
  rw [← List.map_take, join_map_ofList, ← String.toList_inj, String.toList_ofList,
    flatten_take_pages_iff]

theorem size_le_of_mem_pages (hcapacity : 4 ≤ capacity) (h : piece ∈ pages capacity width s) :
    size piece ≤ capacity := by
  obtain ⟨cs, -, rfl⟩ := exists_of_mem_chunks h
  rcases firstChunk_narrow (min (max width 1) capacity) cs with hsize | hlength
  · exact Nat.le_trans hsize (Nat.min_le_right _ _)
  · exact Nat.le_trans (size_le_four hlength) hcapacity

end Text

namespace BoundedText.Holds

variable {n : Nat} {t : BoundedText n} {cs : List Char}

/-- The page that is asked for is held as it is, and nothing where there is no such page. -/
theorem page (h : t.Holds cs) (hn : 4 ≤ n) (s : String) (width : Nat) (page : UInt8) :
    (t.setPage s width page).1.Holds ((Text.pages n width s)[page.toNat]?.getD []) := by
  have hheld := h.clear.appendChars ((Text.pages n width s)[page.toNat]?.getD [])
  rw [Text.size_nil, Nat.sub_zero, List.nil_append] at hheld
  have hfits : Text.size ((Text.pages n width s)[page.toNat]?.getD []) ≤ n := by
    cases hpiece : (Text.pages n width s)[page.toNat]? with
    | none => exact Nat.zero_le n
    | some piece => exact Text.size_le_of_mem_pages hn (List.mem_of_getElem? hpiece)
  rwa [Text.fitting_eq_self hfits] at hheld

end BoundedText.Holds
end WalletReview
