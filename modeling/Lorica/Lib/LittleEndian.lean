import Mathlib.Tactic

/-! Unsigned integers as octets in little-endian order, at any width. -/

namespace Machine

/-- The `width` low octets of `n`, least significant first. -/
def toOctets : (width n : Nat) → List UInt8
  | 0, _ => []
  | width + 1, n => UInt8.ofNat n :: toOctets width (n / 256)

def ofOctets : List UInt8 → Nat
  | [] => 0
  | octet :: rest => octet.toNat + 256 * ofOctets rest

@[simp] theorem toOctets_length (width n : Nat) :
    (toOctets width n).length = width := by
  induction width generalizing n with
  | zero => rfl
  | succ width ih => simp [toOctets, ih]

theorem ofOctets_toOctets (width n : Nat) (h : n < 256 ^ width) :
    ofOctets (toOctets width n) = n := by
  induction width generalizing n with
  | zero =>
      simp only [pow_zero] at h
      simp only [toOctets, ofOctets]
      omega
  | succ width ih =>
      have hrest : n / 256 < 256 ^ width := by
        rw [pow_succ] at h
        omega
      simp only [toOctets, ofOctets, ih _ hrest, UInt8.toNat_ofNat']
      omega

theorem toOctets_ofOctets (octets : List UInt8) :
    toOctets octets.length (ofOctets octets) = octets := by
  induction octets with
  | nil => rfl
  | cons octet rest ih =>
      have hlow : UInt8.ofNat (octet.toNat + 256 * ofOctets rest) = octet := by
        apply UInt8.toNat_inj.mp
        rw [UInt8.toNat_ofNat']
        have := octet.toNat_lt
        omega
      have hhigh : (octet.toNat + 256 * ofOctets rest) / 256 = ofOctets rest := by
        have := octet.toNat_lt
        omega
      simp only [List.length_cons, ofOctets, toOctets, hlow, hhigh, ih]

/-- The octets of a field. -/
def field (offset width : Nat) (buffer : List UInt8) : List UInt8 :=
  (buffer.drop offset).take width

/-- Octets stored over the ones from an offset on. -/
def writeOctets (buffer : List UInt8) (offset : Nat) (octets : List UInt8) : List UInt8 :=
  buffer.take offset ++ octets ++ buffer.drop (offset + octets.length)

/-- The `width` octets of a buffer that start at `offset`; `none` when the
buffer is too short for the read. -/
def readOctets (buffer : List UInt8) (offset width : Nat) : Option Nat :=
  if offset + width ≤ buffer.length then
    some (ofOctets ((buffer.drop offset).take width))
  else none

theorem readOctets_isSome (buffer : List UInt8) (offset width : Nat) :
    (readOctets buffer offset width).isSome ↔
      offset + width ≤ buffer.length := by
  unfold readOctets
  split <;> simp_all

/-- Reading a field back from the buffer it was laid out in. -/
theorem readOctets_append (before after : List UInt8) (width n : Nat)
    (h : n < 256 ^ width) :
    readOctets (before ++ toOctets width n ++ after) before.length width =
      some n := by
  unfold readOctets
  rw [if_pos (by simp), List.append_assoc, List.drop_left,
    List.take_left' (toOctets_length width n), ofOctets_toOctets width n h]

/-- A read tells a value from every other one that fits. -/
theorem readOctets_eq_some_iff {buffer : List UInt8} {offset width n : Nat}
    (hbuffer : offset + width ≤ buffer.length) (h : n < 256 ^ width) :
    readOctets buffer offset width = some n ↔ field offset width buffer = toOctets width n := by
  have hlength : (field offset width buffer).length = width := by
    simp only [field, List.length_take, List.length_drop]
    omega
  rw [readOctets, if_pos hbuffer, Option.some.injEq, ← field]
  constructor
  · rintro rfl
    have hback := toOctets_ofOctets (field offset width buffer)
    rwa [hlength, eq_comm] at hback
  · intro heq
    rw [heq, ofOctets_toOctets width n h]

end Machine
