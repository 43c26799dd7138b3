import WalletReview.Proofs.Cuts
import WalletReview.Proofs.Simulator

/-! What is typed and what is printed. A line is a command if one of its keys stands on it between
blanks. A screen is printed in a frame that is as wide on every line of its value, and the last one
on standard output has only help and notices behind it. -/
namespace WalletReview

namespace Text

theorem trim_append_blanks {left right : List Char} (hleft : ∀ c ∈ left, isBlank c = true)
    (hright : ∀ c ∈ right, isBlank c = true) (s : String) :
    trim (.ofList (left ++ (s.toList ++ right))) = trim s := by
  rw [trim, trim, String.toList_ofList, List.dropWhile_append_of_pos hleft, List.dropWhile_append]
  split
  · rename_i hblank
    have hnone : (right ++ []).dropWhile isBlank = [] := List.dropWhile_append_of_pos hright
    rw [List.append_nil] at hnone
    rw [List.isEmpty_iff.1 hblank, hnone]
  · rw [List.reverse_append,
      List.dropWhile_append_of_pos fun c hc => hright c (List.mem_reverse.1 hc)]

end Text

namespace Simulator

def Command.keys : Command → List String
  | .button .left => ["l"]
  | .button .right => ["r", ""]
  | .button .both => ["b"]
  | .event .reject => ["x"]
  | .event .inspectBack => ["u"]
  | .event .inspectRoot => ["t"]
  | .event _ => []
  | .quit => ["q"]

theorem Command.parse?_eq_some_iff {line : String} {c : Command} :
    Command.parse? line = some c ↔ Text.trim line ∈ c.keys := by
  rw [Command.parse?]
  generalize Text.trim line = key
  constructor
  · intro h
    split at h <;> cases h <;> simp [keys]
  · intro h
    cases c with
    | button button =>
      cases button with
      | left => cases List.mem_singleton.1 h; rfl
      | right => obtain rfl | rfl := List.mem_pair.1 h <;> rfl
      | both => cases List.mem_singleton.1 h; rfl
    | event event =>
      cases event with
      | reject => cases List.mem_singleton.1 h; rfl
      | inspectBack => cases List.mem_singleton.1 h; rfl
      | inspectRoot => cases List.mem_singleton.1 h; rfl
      | _ => cases h
    | quit => cases List.mem_singleton.1 h; rfl

theorem Command.parse?_append_blanks {left right : List Char}
    (hleft : ∀ c ∈ left, Text.isBlank c = true) (hright : ∀ c ∈ right, Text.isBlank c = true)
    (line : String) :
    Command.parse? (.ofList (left ++ (line.toList ++ right))) = Command.parse? line := by
  rw [Command.parse?, Command.parse?, Text.trim_append_blanks hleft hright]

variable {width lineLength : Nat} {s : String} {contents : Screen} {level : LogLevel}
  {shown : List Shown} {t : Simulation}

theorem length_framed (h : s.length ≤ width) : (framed width s).length = width + 4 := by
  simp only [framed, pad, String.length_append, String.length_ofList, List.length_replicate]
  have hleft : "| ".length = 2 := rfl
  have hright : " |".length = 2 := rfl
  omega

theorem length_border (width : Nat) : (border width).length = width + 4 := by
  simp only [border, String.length_append, String.length_ofList, List.length_replicate]
  have hcorner : "+".length = 1 := rfl
  omega

theorem length_le_of_mem_lines (h : s ∈ contents.lines (max lineLength 1)) :
    s.length ≤ max lineLength 1 := by
  have hone : 1 ≤ max lineLength 1 := Nat.le_max_right _ _
  have hcut := Text.cut_chunks (max lineLength 1) contents.value
  rw [Screen.lines, Text.lines, Nat.max_eq_left hone] at h
  rcases hcut.narrow s h with hfits | hsingle
  · rw [← Text.size_toList] at hfits
    rw [← String.length_toList]
    exact Nat.le_trans (Text.length_le_size _) hfits
  · rw [hsingle]
    exact hone

/-- A screen is printed as its title line and the lines of its value between two borders, all of one
length but for a title that is longer. -/
theorem lines_screen (h : lineLength ≤ maxWidth) :
    (Shown.screen lineLength contents).lines level =
        (border (max lineLength 1) :: framed (max lineLength 1) contents.key ::
          (contents.lines (max lineLength 1)).map (framed (max lineLength 1)) ++
            [border (max lineLength 1)], true) ∧
      ∀ line ∈ (contents.lines (max lineLength 1)).map (framed (max lineLength 1)),
        line.length = (border (max lineLength 1)).length := by
  have hwidth : ¬maxWidth < max lineLength 1 := by
    have hone : 1 ≤ maxWidth := by decide
    omega
  have hsize : ¬maxTextSize < max lineLength 1 + 2 := by
    have hle : maxWidth + 2 ≤ maxTextSize := by decide
    omega
  constructor
  · simp only [Shown.lines, frame, if_neg hsize, if_neg hwidth, List.cons_append, List.nil_append]
  · refine List.forall_mem_map.2 fun s hs => ?_
    rw [length_framed (length_le_of_mem_lines hs), length_border]

theorem outputLines_eq_flatMap (h : (outputLines level shown).2 = true) :
    (outputLines level shown).1 = shown.flatMap fun s => (s.lines level).1 := by
  induction shown with
  | nil => rfl
  | cons s rest ih =>
    rw [outputLines] at h ⊢
    rw [List.flatMap_cons]
    generalize s.lines level = printed at h ⊢
    obtain ⟨lines, complete⟩ := printed
    cases complete with
    | true => exact congrArg (lines ++ ·) (ih h)
    | false => cases h

/-- Where the screen shown last is that of the engine, its frame is the last one to be printed. -/
theorem outputLines_of_lastScreen? (h : t.lastScreen? = some t.screen)
    (hall : (outputLines level t.shown.reverse).2 = true) :
    ∃ before after : List Shown, (∀ s ∈ after, s.isScreen = false) ∧
      (outputLines level t.shown.reverse).1 = before.flatMap (fun s => (s.lines level).1) ++
        (frame t.sitting.machine.config.lineLength t.sitting.machine.display).1 ++
          after.flatMap fun s => (s.lines level).1 := by
  obtain ⟨-, after, before, hshown, hafter⟩ := List.find?_eq_some_iff_append.1 h
  refine ⟨before.reverse, after.reverse, fun s hs => ?_, ?_⟩
  · simpa using hafter s (List.mem_reverse.1 hs)
  · rw [outputLines_eq_flatMap hall, hshown, List.reverse_append, List.reverse_cons,
      List.flatMap_append, List.flatMap_append, List.flatMap_singleton]
    rfl

end Simulator
end WalletReview
