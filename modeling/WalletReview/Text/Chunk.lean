/-! Pieces of a text measured in bytes of its encoding. A text is cut at the last boundary between
two characters within a number of bytes; `fitting` are the characters before the cut. `chunks` cuts
a text again and again, where a character wider than the bound stands alone. Pages and display lines
are both chunks. -/
namespace WalletReview.Text

/-- The number of bytes in which a text is encoded. -/
def size : List Char → Nat
  | [] => 0
  | c :: cs => c.utf8Size + size cs

@[simp] theorem size_nil : size [] = 0 := rfl

@[simp] theorem size_cons (c : Char) (cs : List Char) : size (c :: cs) = c.utf8Size + size cs := rfl

/-- Whether a number of bytes is that of some leading characters. -/
def isBoundary : List Char → Nat → Bool
  | _, 0 => true
  | [], _ + 1 => false
  | c :: cs, k + 1 => c.utf8Size ≤ k + 1 && isBoundary cs (k + 1 - c.utf8Size)

/-- The first boundary that is met from `k` bytes backwards. -/
def boundaryFrom (cs : List Char) : (k : Nat) → Nat
  | 0 => 0
  | k + 1 => if isBoundary cs (k + 1) then k + 1 else boundaryFrom cs k

/-- The greatest boundary that is not above `k` bytes. -/
def floorBoundary (cs : List Char) (k : Nat) : Nat :=
  if size cs ≤ k then size cs else boundaryFrom cs k

/-- The longest run of leading characters of at most `room` bytes. -/
def fitting : Nat → List Char → List Char
  | _, [] => []
  | room, c :: cs => if c.utf8Size ≤ room then c :: fitting (room - c.utf8Size) cs else []

theorem size_fitting_le (room : Nat) (cs : List Char) : size (fitting room cs) ≤ room := by
  induction cs generalizing room with
  | nil => simp [fitting]
  | cons c cs ih =>
    rw [fitting]
    split
    · have := ih (room - c.utf8Size)
      simp only [size_cons]
      omega
    · simp

theorem fitting_eq_self {room : Nat} {cs : List Char} (h : size cs ≤ room) :
    fitting room cs = cs := by
  induction cs generalizing room with
  | nil => rfl
  | cons c cs ih =>
    simp only [size_cons] at h
    rw [fitting, if_pos (by omega), ih (by omega)]

theorem fitting_fitting {k room : Nat} {cs : List Char} (h : k ≤ room) :
    fitting k (fitting room cs) = fitting k cs := by
  induction cs generalizing room k with
  | nil => rfl
  | cons c cs ih =>
    by_cases hc : c.utf8Size ≤ k
    · have hroom : c.utf8Size ≤ room := Nat.le_trans hc h
      have hrest : k - c.utf8Size ≤ room - c.utf8Size := Nat.sub_le_sub_right h _
      rw [fitting, if_pos hroom, fitting, if_pos hc, ih hrest, fitting, if_pos hc]
    · have hnone : fitting k (c :: cs) = [] := by rw [fitting, if_neg hc]
      rw [hnone, fitting]
      split
      · rw [fitting, if_neg hc]
      · rfl

theorem isBoundary_iff {cs : List Char} {k : Nat} :
    isBoundary cs k = true ↔ size (fitting k cs) = k := by
  induction cs generalizing k with
  | nil => cases k <;> simp [isBoundary, fitting]
  | cons c cs ih =>
    have hpos := Char.utf8Size_pos c
    cases k with
    | zero => simp [isBoundary, fitting, Nat.ne_of_gt hpos]
    | succ k =>
      rw [isBoundary, fitting, Bool.and_eq_true, decide_eq_true_eq, ih]
      split
      · simp only [size_cons]
        omega
      · simp only [size_nil]
        omega

/-- What is before the boundary found backwards is what fits. -/
theorem boundaryFrom_eq (cs : List Char) (k : Nat) : boundaryFrom cs k = size (fitting k cs) := by
  induction k with
  | zero => exact (Nat.le_zero.1 (size_fitting_le 0 cs)).symm
  | succ k ih =>
    rw [boundaryFrom]
    split
    · rename_i hboundary
      exact (isBoundary_iff.1 hboundary).symm
    · rename_i hinside
      have hne : size (fitting (k + 1) cs) ≠ k + 1 := fun h => hinside (isBoundary_iff.2 h)
      have hle : size (fitting (k + 1) cs) ≤ k :=
        Nat.le_of_lt_succ (Nat.lt_of_le_of_ne (size_fitting_le (k + 1) cs) hne)
      rw [ih, ← fitting_fitting (Nat.le_succ k), fitting_eq_self hle]

theorem floorBoundary_eq (cs : List Char) (k : Nat) :
    floorBoundary cs k = size (fitting k cs) := by
  rw [floorBoundary]
  split
  · rename_i hle
    rw [fitting_eq_self hle]
  · exact boundaryFrom_eq cs k

/-- The characters up to the greatest boundary within the width, or the first character alone if
that is wider. -/
def firstChunk (width : Nat) (cs : List Char) : List Char :=
  let k := floorBoundary cs width
  if k = 0 then cs.take 1 else fitting k cs

theorem firstChunk_of_fitting_eq_nil {width : Nat} {cs : List Char} (h : fitting width cs = []) :
    firstChunk width cs = cs.take 1 := by
  rw [firstChunk, floorBoundary_eq, h]
  rfl

theorem firstChunk_of_fitting_ne_nil {width : Nat} {cs : List Char} (h : fitting width cs ≠ []) :
    firstChunk width cs = fitting width cs := by
  have hpos : size (fitting width cs) ≠ 0 := by
    obtain ⟨c, ds, hcs⟩ := List.exists_cons_of_ne_nil h
    have := Char.utf8Size_pos c
    rw [hcs, size_cons]
    omega
  rw [firstChunk, floorBoundary_eq]
  simp only [if_neg hpos]
  rw [← fitting_fitting (size_fitting_le width cs), fitting_eq_self (Nat.le_refl _)]

theorem firstChunk_length_pos (width : Nat) {cs : List Char} (h : cs ≠ []) :
    0 < (firstChunk width cs).length := by
  by_cases hfit : fitting width cs = []
  · rw [firstChunk_of_fitting_eq_nil hfit, List.length_take]
    have := List.length_pos_iff.2 h
    omega
  · rw [firstChunk_of_fitting_ne_nil hfit]
    exact List.length_pos_iff.2 hfit

def chunks (width : Nat) (cs : List Char) : List (List Char) :=
  if _h : cs = [] then []
  else
    let first := firstChunk width cs
    first :: chunks width (cs.drop first.length)
termination_by cs.length
decreasing_by
  have := firstChunk_length_pos width _h
  have := List.length_pos_iff.2 _h
  rw [List.length_drop]
  omega

/-- The display lines of a text, of at most `width` bytes and never less than one. -/
def lines (s : String) (width : Nat) : List String :=
  (chunks (max width 1) s.toList).map .ofList

end WalletReview.Text
