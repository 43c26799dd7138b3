import Mathlib.Data.List.Chain
import WalletReview.Proofs.Pages

/-! Where texts are cut. What fits of a text is the longest run of its leading characters within the
bound. The chunks of a text are the only way to cut it into pieces that keep to a width and leave no
room for what follows; display lines are chunks. -/
namespace WalletReview.Text

variable {room width : Nat} {cs ds kept : List Char} {c : Char} {s : String} {pieces : List String}

/-- The longest run of leading characters of `cs` in at most `room` bytes. -/
structure Longest (room : Nat) (cs kept : List Char) : Prop where
  isPrefix : kept <+: cs
  fits : size kept ≤ room
  longest : ∀ ds, ds <+: cs → size ds ≤ room → ds <+: kept

theorem longest_fitting (room : Nat) (cs : List Char) : Longest room cs (fitting room cs) where
  isPrefix := fitting_isPrefix room cs
  fits := size_fitting_le room cs
  longest ds hds hfits := by
    obtain ⟨rest, rfl⟩ := hds
    rw [fitting_append hfits]
    exact List.prefix_append ds _

theorem Longest.lt_size (h : Longest room cs kept) (hcs : cs = kept ++ c :: ds) :
    room < size kept + c.utf8Size := by
  refine Nat.lt_of_not_le fun hle => ?_
  have hlonger : kept ++ [c] <+: kept :=
    h.longest (kept ++ [c]) ⟨ds, by rw [hcs, List.append_assoc, List.singleton_append]⟩
      (by rwa [size_append, size_cons, size_nil])
  have hlength := hlonger.length_le
  rw [List.length_append, List.length_singleton] at hlength
  omega

theorem firstChunk_maximal (hcs : cs = firstChunk width cs ++ c :: ds) :
    width < size (firstChunk width cs) + c.utf8Size := by
  by_cases hfit : fitting width cs = []
  · have hlongest : Longest width cs [] := hfit ▸ longest_fitting width cs
    rw [firstChunk_of_fitting_eq_nil hfit] at hcs ⊢
    cases cs with
    | nil => cases hcs
    | cons d rest =>
      have hwide : width < size [] + d.utf8Size := hlongest.lt_size (List.nil_append _).symm
      rw [size_nil, Nat.zero_add] at hwide
      rw [List.take_succ_cons, List.take_zero, size_cons, size_nil]
      omega
  · rw [firstChunk_of_fitting_ne_nil hfit] at hcs ⊢
    exact (longest_fitting width cs).lt_size hcs

/-- A run of characters is the first chunk of a text if it keeps to the width, or is a single
character, and what follows has no room. -/
theorem firstChunk_append (hne : cs ≠ []) (hnarrow : size cs ≤ width ∨ cs.length = 1)
    (hnext : ∀ c ∈ ds.head?, width < size cs + c.utf8Size) : firstChunk width (cs ++ ds) = cs := by
  by_cases hfits : size cs ≤ width
  · have hrest : fitting (width - size cs) ds = [] := by
      cases ds with
      | nil => rfl
      | cons c ds =>
        have hwide := hnext c rfl
        rw [fitting, if_neg (by omega)]
    have hfit : fitting width (cs ++ ds) = cs := by
      rw [fitting_append hfits, hrest, List.append_nil]
    rw [firstChunk_of_fitting_ne_nil (by rwa [hfit]), hfit]
  · obtain ⟨c, rfl⟩ := List.length_eq_one_iff.1 (hnarrow.resolve_left hfits)
    rw [size_cons, size_nil, Nat.add_zero] at hfits
    have hfit : fitting width ([c] ++ ds) = [] := by
      rw [List.singleton_append, fitting, if_neg hfits]
    rw [firstChunk_of_fitting_eq_nil hfit, List.singleton_append, List.take_succ_cons,
      List.take_zero]

theorem isChain_chunks (width : Nat) (cs : List Char) :
    (chunks width cs).IsChain fun chunk next =>
      ∀ c ∈ next.head?, width < size chunk + c.utf8Size := by
  induction cs using chunks.induct width with
  | case1 =>
    rw [chunks_nil]
    exact List.isChain_nil
  | case2 cs hne first ih =>
    rw [chunks_of_ne_nil width hne]
    refine List.isChain_cons.2 ⟨fun next hnext c hc => ?_, ih⟩
    obtain ⟨rest, hrest⟩ := List.head?_eq_some_iff.1 hnext
    obtain ⟨next, rfl⟩ := List.head?_eq_some_iff.1 hc
    -- what the first chunk leaves starts with the next one
    have hdrop : cs.drop first.length = c :: (next ++ rest.flatten) := by
      rw [← flatten_chunks width (cs.drop first.length), hrest, List.flatten_cons, List.cons_append]
    have hcs : cs = firstChunk width cs ++ c :: (next ++ rest.flatten) := by
      rw [← hdrop]
      exact (List.prefix_iff_eq_append.1 (firstChunk_isPrefix width cs)).symm
    exact firstChunk_maximal hcs

theorem utf8ByteSize_ofList (cs : List Char) : (String.ofList cs).utf8ByteSize = size cs := by
  induction cs with
  | nil => rfl
  | cons c cs ih =>
    rw [String.ofList_cons, String.utf8ByteSize_append, String.utf8ByteSize_singleton, ih,
      size_cons]

theorem size_toList (s : String) : size s.toList = s.utf8ByteSize := by
  rw [← utf8ByteSize_ofList, String.ofList_toList]

/-- A text cut into pieces of at most `width` bytes. A wider piece is a single character, and the
first character of a piece would have made the piece before it too wide. -/
structure Cut (width : Nat) (s : String) (pieces : List String) : Prop where
  whole : String.join pieces = s
  filled : ∀ piece ∈ pieces, piece ≠ ""
  narrow : ∀ piece ∈ pieces, piece.utf8ByteSize ≤ width ∨ piece.length = 1
  maximal : pieces.IsChain fun piece next =>
    ∀ c ∈ next.toList.head?, width < piece.utf8ByteSize + c.utf8Size

theorem cut_chunks (width : Nat) (s : String) :
    Cut width s ((chunks width s.toList).map .ofList) where
  whole := by rw [join_map_ofList, flatten_chunks, String.ofList_toList]
  filled := by
    refine List.forall_mem_map.2 fun chunk hchunk => ?_
    obtain ⟨ds, hds, rfl⟩ := exists_of_mem_chunks hchunk
    exact mt String.ofList_eq_empty_iff.1 (List.length_pos_iff.1 (firstChunk_length_pos width hds))
  narrow := by
    refine List.forall_mem_map.2 fun chunk hchunk => ?_
    obtain ⟨ds, hds, rfl⟩ := exists_of_mem_chunks hchunk
    have hpos := firstChunk_length_pos width hds
    rw [utf8ByteSize_ofList, String.length_ofList]
    exact (firstChunk_narrow width ds).imp_right (by omega)
  maximal := by
    refine List.isChain_map _ |>.2 ((isChain_chunks width s.toList).imp fun chunk next h => ?_)
    rwa [utf8ByteSize_ofList, String.toList_ofList]

theorem head?_toList_join (h : ∀ piece ∈ pieces, piece ≠ "") :
    (String.join pieces).toList.head? = pieces.head?.bind (·.toList.head?) := by
  cases pieces with
  | nil => rfl
  | cons piece pieces =>
    have hpiece := mt String.toList_eq_nil_iff.1 (h piece List.mem_cons_self)
    rw [String.join_cons, String.toList_append, List.head?_append_of_ne_nil _ hpiece]
    rfl

/-- There is no other way to cut a text than into its chunks. -/
theorem Cut.eq_chunks (h : Cut width s pieces) :
    pieces = (chunks width s.toList).map .ofList := by
  induction pieces generalizing s with
  | nil =>
    rw [← h.whole, String.join_nil, String.toList_empty, chunks_nil, List.map_nil]
  | cons piece pieces ih =>
    obtain ⟨hpiece, hfilled⟩ := List.forall_mem_cons.1 h.filled
    obtain ⟨hnarrow, hnarrows⟩ := List.forall_mem_cons.1 h.narrow
    obtain ⟨hnext, hmaximal⟩ := List.isChain_cons.1 h.maximal
    have hs : s.toList = piece.toList ++ (String.join pieces).toList := by
      rw [← h.whole, String.join_cons, String.toList_append]
    have hne : piece.toList ≠ [] := mt String.toList_eq_nil_iff.1 hpiece
    -- what follows the piece has no room, so that the first chunk ends where the piece does
    have hfirst : firstChunk width s.toList = piece.toList := by
      rw [hs]
      refine firstChunk_append hne (by rwa [size_toList, String.length_toList]) fun c hc => ?_
      rw [head?_toList_join hfilled] at hc
      obtain ⟨next, hmem, hc⟩ := Option.mem_bind_iff.1 hc
      rw [size_toList]
      exact hnext next hmem c hc
    have hrest := ih ⟨rfl, hfilled, hnarrows, hmaximal⟩
    have hs' : s.toList ≠ [] := by
      rw [hs]
      exact List.append_ne_nil_of_left_ne_nil hne _
    rw [chunks_of_ne_nil width hs', hfirst, hs, List.drop_left, List.map_cons, ← hrest,
      String.ofList_toList]

theorem cut_iff_eq_chunks : Cut width s pieces ↔ pieces = (chunks width s.toList).map .ofList := by
  refine ⟨Cut.eq_chunks, ?_⟩
  rintro rfl
  exact cut_chunks width s

/-- The lines of a text are the one way to cut it at the width, or at one byte if that is zero, and
there are never more of them than characters. -/
theorem cut_iff_eq_lines (s : String) (width : Nat) :
    (∀ pieces, Cut (max width 1) s pieces ↔ pieces = lines s width) ∧
      (lines s width).length ≤ s.length ∧ (lines s width = [] ↔ s = "") := by
  refine ⟨fun pieces => cut_iff_eq_chunks, ?_, ?_⟩
  · rw [lines, List.length_map, ← String.length_toList]
    exact length_chunks_le _ _
  · rw [lines, List.map_eq_nil_iff, chunks_eq_nil_iff, String.toList_eq_nil_iff]

end WalletReview.Text
