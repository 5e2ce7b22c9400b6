import Mathlib.Data.List.Basic
import Mathlib.Data.Nat.ModEq
import Mathlib.Tactic.Ring

/-!
# Byte strings with their size in front

A byte string is written as its size, in `width` bytes with the lowest one first, and its
bytes.  A string that is too long is cut to the size that is written.
-/

namespace PyTorchCore.Lib

open List

/-- The lowest `width` bytes of a number, the lowest one first. -/
def littleEndian : Nat → Nat → List UInt8
  | 0, _ => []
  | width + 1, k => UInt8.ofNat k :: littleEndian width (k / 256)

/-- The number of the bytes. -/
def ofLittleEndian (bytes : List UInt8) : Nat :=
  bytes.foldr (fun b k => b.toNat + 256 * k) 0

/-- A byte string behind its size. -/
def sized (width : Nat) (data : List UInt8) : List UInt8 :=
  littleEndian width data.length ++ data.take (data.length % 256 ^ width)

/-- Reads a size and as many bytes, and returns the bytes and what follows them. -/
def readSized (width : Nat) (bytes : List UInt8) : Option (List UInt8 × List UInt8) :=
  let size := ofLittleEndian (bytes.take width)
  let rest := bytes.drop width
  if width ≤ bytes.length ∧ size ≤ rest.length then some (rest.take size, rest.drop size)
  else none

section SizedBytes

variable {width : Nat} {data : List UInt8}

@[simp] theorem length_littleEndian (width k : Nat) : (littleEndian width k).length = width := by
  induction width generalizing k with
  | zero => rfl
  | succ width ih => exact congrArg Nat.succ (ih (k / 256))

theorem ofLittleEndian_littleEndian (width k : Nat) :
    ofLittleEndian (littleEndian width k) = k % 256 ^ width := by
  induction width generalizing k with
  | zero => exact (Nat.mod_one k).symm
  | succ width ih =>
    calc ofLittleEndian (littleEndian (width + 1) k)
        = (UInt8.ofNat k).toNat + 256 * ofLittleEndian (littleEndian width (k / 256)) := rfl
      _ = k % 256 + 256 * (k / 256 % 256 ^ width) := by
          rw [ih, UInt8.toNat_ofNat']
      _ = k % 256 ^ (width + 1) := by
          rw [Nat.pow_succ', Nat.mod_mul]

theorem sized_of_lt (h : data.length < 256 ^ width) :
    sized width data = littleEndian width data.length ++ data := by
  rw [sized, Nat.mod_eq_of_lt h, take_length]

theorem length_sized (h : data.length < 256 ^ width) :
    (sized width data).length = width + data.length := by
  rw [sized_of_lt h, length_append, length_littleEndian]

/-- What is written with its size in front is read back. -/
theorem readSized_sized (h : data.length < 256 ^ width) (rest : List UInt8) :
    readSized width (sized width data ++ rest) = some (data, rest) := by
  have htake : (sized width data ++ rest).take width = littleEndian width data.length := by
    rw [sized_of_lt h, append_assoc]
    exact take_left' (length_littleEndian _ _)
  have hdrop : (sized width data ++ rest).drop width = data ++ rest := by
    rw [sized_of_lt h, append_assoc]
    exact drop_left' (length_littleEndian _ _)
  have hsize : ofLittleEndian (littleEndian width data.length) = data.length := by
    rw [ofLittleEndian_littleEndian, Nat.mod_eq_of_lt h]
  have hfits : width ≤ (sized width data ++ rest).length ∧ data.length ≤ (data ++ rest).length := by
    rw [length_append, length_sized h, length_append]
    omega
  rw [readSized]
  simp only [htake, hdrop, hsize]
  rw [if_pos hfits, take_left, drop_left]

end SizedBytes

section Decimal

variable {n : Nat}

theorem toNat_digit {c : Char} (h : c ∈ Nat.toDigits 10 n) :
    (UInt8.ofNat c.toNat).toNat = c.toNat ∧ 48 ≤ c.toNat ∧ c.toNat ≤ 57 := by
  have hdigit := Nat.isDigit_of_mem_toDigits (by omega) (by omega) h
  simp only [Char.isDigit, Bool.and_eq_true, decide_eq_true_eq] at hdigit
  have hhigh : c.toNat ≤ 57 := hdigit.2
  rw [UInt8.toNat_ofNat', Nat.mod_eq_of_lt (by omega)]
  exact ⟨rfl, hdigit.1, hhigh⟩

/-- The digits of a number are read back as the number. -/
theorem foldl_toDigits (n : Nat) : ((Nat.toDigits 10 n).map fun c => UInt8.ofNat c.toNat).foldl
    (fun m d => 10 * m + (d.toNat - 48)) 0 = n := by
  rw [foldl_map]
  calc (Nat.toDigits 10 n).foldl (fun m c => 10 * m + ((UInt8.ofNat c.toNat).toNat - 48)) 0
      = (Nat.toDigits 10 n).foldl (fun m c => 10 * m + (c.toNat - '0'.toNat)) 0 :=
        foldl_ext _ _ _ fun m c hc => by rw [(toNat_digit hc).1]; rfl
    _ = Nat.ofDigitChars 10 (Nat.toDigits 10 n) 0 := Nat.ofDigitChars_eq_foldl.symm
    _ = n := Nat.ofDigitChars_ten_toDigits

end Decimal

end PyTorchCore.Lib
