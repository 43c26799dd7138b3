import WalletReview.Proofs.Children

/-! The path of an inspection, from the inspected item down to the parent of what is on screen.
Going in starts one, going down makes it longer by a child, going up shorter by one. -/
namespace WalletReview

theorem Checked.bind_eq_ok_iff {α β : Type} {x : Checked α} {f : α → Checked β} {b : β} :
    (x >>= f) = .ok b ↔ ∃ a, x = .ok a ∧ f a = .ok b := by
  cases x with
  | error fault => simp [bind, Except.bind]
  | ok a => simp [bind, Except.bind]

namespace Inspection

variable {i i' : Inspection} {child : UInt8} {path : List UInt8}

theorem trace_eq_ok_iff : i.trace = .ok path ↔ i.depth.toNat ≤ maxDepth ∧ i.chain = path := by
  rw [trace]
  constructor
  · intro h
    split at h
    · cases h
      exact ⟨‹_›, rfl⟩
    · cases h
  · rintro ⟨hdepth, rfl⟩
    rw [if_pos hdepth]
    rfl

theorem chain_ne_nil (i : Inspection) : i.chain ≠ [] := by
  rw [← List.length_pos_iff, chain, List.length_take, Vector.length_toList]
  omega

theorem length_chain (h : i.depth.toNat ≤ maxDepth) : i.chain.length = i.depth.toNat + 1 := by
  rw [chain, List.length_take, Vector.length_toList]
  omega

theorem chain_of_enter (h : i.enter child = .ok i') : i'.chain = i.chain ++ [child] := by
  obtain ⟨depth, hadd, h⟩ := Checked.bind_eq_ok_iff.1 h
  split at h
  · rename_i hlt
    cases h
    have hdepth : depth.toNat = i.depth.toNat + 1 := (Checked.add8_eq_ok_iff.1 hadd).symm
    simp only [chain, Vector.toList_set, hdepth]
    rw [List.take_add_one, List.take_set_of_le (by omega), List.getElem?_set_self]
    · rfl
    · rw [Vector.length_toList]
      omega
  · cases h

theorem of_ascend (h : i.ascend = .ok (some i')) : ∃ child,
    i.chain = i'.chain ++ [child] ∧ i'.depth.toNat + 1 = i.depth.toNat ∧ i'.layout = i.layout ∧
      i'.cursor.page = 0 ∧ i'.cursor.item.toNat =
        match i.layout with
        | .bracketed => child.toNat + 1
        | .native => child.toNat := by
  rw [ascend] at h
  split at h
  · cases h
  · split at h
    · rename_i hlt
      obtain ⟨depth, hsub, h⟩ := Checked.bind_eq_ok_iff.1 h
      have hdepth : i.depth.toNat = depth.toNat + 1 := Checked.sub8_eq_ok_iff.1 hsub
      have hchain (c : Cursor) : i.chain = chain { i with
          depth, path := i.path.set i.depth.toNat 0, cursor := c } ++ [i.path[i.depth.toNat]] := by
        simp only [chain, Vector.toList_set, ← hdepth]
        rw [List.take_set_of_le (Nat.le_refl _), List.take_add_one]
        simp [hlt]
      cases hlayout : i.layout with
      | native =>
        simp only [hlayout] at h
        cases h
        exact ⟨_, hchain (.start 0), hdepth.symm, rfl, rfl, rfl⟩
      | bracketed =>
        simp only [hlayout] at h
        obtain ⟨item, hadd, h⟩ := Checked.bind_eq_ok_iff.1 h
        cases h
        exact ⟨_, hchain (.start 0), hdepth.symm, rfl, rfl, (Checked.add8_eq_ok_iff.1 hadd).symm⟩
    · cases h

end Inspection
end WalletReview
