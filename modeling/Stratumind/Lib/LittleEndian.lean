import Mathlib

/-!
# Little-endian numbers

Numbers of a fixed width as bytes, least significant byte first, and the reader that
takes such a number from the front of its input.
-/

namespace Stratumind.Lib

/-- The given number of little-endian bytes of a number. -/
def leBytes : ℕ → ℕ → List UInt8
  | 0, _ => []
  | width + 1, n => UInt8.ofNat n :: leBytes width (n / 256)

/-- The number that little-endian bytes denote. -/
def ofLeBytes : List UInt8 → ℕ
  | [] => 0
  | byte :: bytes => byte.toNat + 256 * ofLeBytes bytes

/-- Takes a number of the given width from the front, unless the input ends before. -/
def readLe (width : ℕ) (bytes : List UInt8) : Option (ℕ × List UInt8) :=
  if width ≤ bytes.length then some (ofLeBytes (bytes.take width), bytes.drop width) else none

/-- Every number takes its whole width. -/
@[simp] theorem length_leBytes (width n : ℕ) : (leBytes width n).length = width := by
  induction width generalizing n with
  | zero => rfl
  | succ width ih => rw [leBytes, List.length_cons, ih]

/-- A number that fits its width is read back. -/
theorem ofLeBytes_leBytes {width n : ℕ} (h : n < 256 ^ width) :
    ofLeBytes (leBytes width n) = n := by
  induction width generalizing n with
  | zero =>
    have hzero : n = 0 := by simpa using h
    rw [hzero, leBytes, ofLeBytes]
  | succ width ih =>
    have hdiv : n / 256 < 256 ^ width := by
      exact Nat.div_lt_of_lt_mul (by omega)
    have hbyte : (UInt8.ofNat n).toNat = n % 256 := by simp
    rw [leBytes, ofLeBytes, ih hdiv, hbyte]
    omega

/-- The reader takes a written number and leaves what follows it. -/
theorem readLe_append {width n : ℕ} (h : n < 256 ^ width) (rest : List UInt8) :
    readLe width (leBytes width n ++ rest) = some (n, rest) := by
  have hlength := length_leBytes width n
  rw [readLe, if_pos (by simp), List.take_left' hlength, List.drop_left' hlength,
    ofLeBytes_leBytes h]

end Stratumind.Lib
