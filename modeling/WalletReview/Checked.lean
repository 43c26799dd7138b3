/-! Arithmetic on bytes and 16-bit words that refuses to wrap around. A computation in `Checked`
that would leave its word or its array has no result but a `Fault`; `diff8` asks for the proof
instead. -/
namespace WalletReview

inductive Fault
  | overflow
  | outOfRange
  deriving DecidableEq

abbrev Checked := Except Fault

namespace Checked

def add8 (a b : UInt8) : Checked UInt8 :=
  if a.toNat + b.toNat < 256 then .ok (a + b) else .error .overflow

theorem add8_eq_ok_iff {a b c : UInt8} : add8 a b = .ok c ↔ a.toNat + b.toNat = c.toNat := by
  have := c.toNat_lt
  rw [add8]
  split
  · rw [Except.ok.injEq, ← UInt8.toNat_inj, UInt8.toNat_add]
    omega
  · exact iff_of_false (by simp) (by omega)

def sub8 (a b : UInt8) : Checked UInt8 :=
  if b ≤ a then .ok (a - b) else .error .overflow

theorem sub8_eq_ok_iff {a b c : UInt8} : sub8 a b = .ok c ↔ a.toNat = c.toNat + b.toNat := by
  rw [sub8]
  split
  · rename_i h
    rw [Except.ok.injEq, ← UInt8.toNat_inj, UInt8.toNat_sub_of_le _ _ h]
    have := UInt8.le_iff_toNat_le.1 h
    omega
  · rename_i h
    exact iff_of_false (by simp) (by rw [UInt8.le_iff_toNat_le] at h; omega)

def add16 (a b : UInt16) : Checked UInt16 :=
  if a.toNat + b.toNat < 65536 then .ok (a + b) else .error .overflow

theorem add16_eq_ok_iff {a b c : UInt16} : add16 a b = .ok c ↔ a.toNat + b.toNat = c.toNat := by
  have := c.toNat_lt
  rw [add16]
  split
  · rw [Except.ok.injEq, ← UInt16.toNat_inj, UInt16.toNat_add]
    omega
  · exact iff_of_false (by simp) (by omega)

def sub16 (a b : UInt16) : Checked UInt16 :=
  if b ≤ a then .ok (a - b) else .error .overflow

theorem sub16_eq_ok_iff {a b c : UInt16} : sub16 a b = .ok c ↔ a.toNat = c.toNat + b.toNat := by
  rw [sub16]
  split
  · rename_i h
    rw [Except.ok.injEq, ← UInt16.toNat_inj, UInt16.toNat_sub_of_le _ _ h]
    have := UInt16.le_iff_toNat_le.1 h
    omega
  · rename_i h
    exact iff_of_false (by simp) (by rw [UInt16.le_iff_toNat_le] at h; omega)

def mul16 (a b : UInt16) : Checked UInt16 :=
  if a.toNat * b.toNat < 65536 then .ok (a * b) else .error .overflow

theorem mul16_eq_ok_iff {a b c : UInt16} : mul16 a b = .ok c ↔ a.toNat * b.toNat = c.toNat := by
  have := c.toNat_lt
  rw [mul16]
  split
  · rw [Except.ok.injEq, ← UInt16.toNat_inj, UInt16.toNat_mul]
    omega
  · exact iff_of_false (by simp) (by omega)

end Checked

def diff8 (a b : UInt8) (_ : b ≤ a) : UInt8 := a - b

@[simp] theorem diff8_toNat {a b : UInt8} (h : b ≤ a) : (diff8 a b h).toNat = a.toNat - b.toNat :=
  UInt8.toNat_sub_of_le _ _ h

/-- A count as a byte, where 255 stands for all larger ones. -/
def saturate8 (count : Nat) : UInt8 := .ofNat (min count 255)

@[simp] theorem saturate8_toNat (count : Nat) : (saturate8 count).toNat = min count 255 := by
  simp only [saturate8, UInt8.toNat_ofNat']
  omega

def wordValues : Nat := 0x10000000000000000

end WalletReview
