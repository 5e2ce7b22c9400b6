import Mathlib.Algebra.Group.Nat.Defs
import Mathlib.Data.Fin.Basic

/-!
# Devices and their strings

`Device::str` writes the name of the device type and, when the device has an index, a colon
and the index.  The constructor of `Device` from a string is a state machine over its
characters, followed by `parse_type`, a search in a table of names.  The table has
`COMPILE_TIME_MAX_DEVICE_TYPES` places, and one device type is missing from it.  An index is
written with its sign, and the state machine knows no sign.
-/

namespace PyTorchCore.Pickle

open Option List

/-- A `std::string`. -/
abbrev Bytes := List UInt8

/-- A C++ string literal. -/
def ascii (s : String) : Bytes :=
  s.toList.map fun c => UInt8.ofNat c.toNat

/-- `c10::DeviceType`, in the order of its numbers. -/
inductive DeviceType where
  | CPU | CUDA | MKLDNN | OPENGL | OPENCL | IDEEP | HIP | FPGA | ORT | XLA | Vulkan | Metal
  | XPU | MLC | Meta | HPU | VE | Lazy
  deriving DecidableEq, Repr

/-- `DeviceTypeName` with `lower_case`. -/
def deviceTypeName : DeviceType → Bytes
  | .CPU => ascii "cpu"
  | .CUDA => ascii "cuda"
  | .OPENGL => ascii "opengl"
  | .OPENCL => ascii "opencl"
  | .MKLDNN => ascii "mkldnn"
  | .IDEEP => ascii "ideep"
  | .HIP => ascii "hip"
  | .VE => ascii "ve"
  | .FPGA => ascii "fpga"
  | .ORT => ascii "ort"
  | .XLA => ascii "xla"
  | .Lazy => ascii "lazy"
  | .MLC => ascii "mlc"
  | .Vulkan => ascii "vulkan"
  | .Metal => ascii "metal"
  | .XPU => ascii "xpu"
  | .Meta => ascii "meta"
  | .HPU => ascii "hpu"

/-- `c10::Device`.  The index -1 is no index.  `validate` looks at the other negative ones
in debug builds only, and `set_index` never does. -/
structure Device where
  type : DeviceType
  index : Int8
  deriving DecidableEq, Repr

/-- `has_index`. -/
def Device.hasIndex (d : Device) : Bool :=
  d.index != -1

/-- `to_string` of a natural number. -/
def decimal (n : Nat) : Bytes :=
  (Nat.toDigits 10 n).map fun c => UInt8.ofNat c.toNat

/-- `to_string` of an integer. -/
def signedDecimal (n : Int) : Bytes :=
  if n < 0 then ascii "-" ++ decimal n.natAbs else decimal n.natAbs

def Device.str (d : Device) : Bytes :=
  if d.hasIndex then deviceTypeName d.type ++ ascii ":" ++ signedDecimal d.index.toInt
  else deviceTypeName d.type

/-- The table of `parse_type`. -/
def deviceTypes : List (Bytes × DeviceType) :=
  [(ascii "cpu", .CPU), (ascii "cuda", .CUDA), (ascii "xpu", .XPU), (ascii "mkldnn", .MKLDNN),
    (ascii "opengl", .OPENGL), (ascii "opencl", .OPENCL), (ascii "ideep", .IDEEP),
    (ascii "hip", .HIP), (ascii "ve", .VE), (ascii "fpga", .FPGA), (ascii "ort", .ORT),
    (ascii "xla", .XLA), (ascii "lazy", .Lazy), (ascii "vulkan", .Vulkan), (ascii "mlc", .MLC),
    (ascii "meta", .Meta), (ascii "hpu", .HPU)]

/-- `parse_type`; `none` when its check fails. -/
def parseType (name : Bytes) : Option DeviceType :=
  (deviceTypes.find? fun entry => entry.1 == name).map Prod.snd

/-- `DeviceStringParsingState`. -/
inductive ParsingState where
  | start | indexStart | indexRest | error
  deriving DecidableEq, Repr

/-- The variables of the loop over the characters of a device string. -/
structure DeviceString where
  pstate : ParsingState
  deviceName : Bytes
  deviceIndexStr : Bytes
  deriving DecidableEq, Repr

def isAlpha (ch : UInt8) : Bool :=
  (65 ≤ ch && ch ≤ 90) || (97 ≤ ch && ch ≤ 122)

def isDigit (ch : UInt8) : Bool :=
  48 ≤ ch && ch ≤ 57

/-- One turn of the loop over the characters; the loop ends in the state `ERROR`. -/
def DeviceString.step (s : DeviceString) (ch : UInt8) : DeviceString :=
  match s.pstate with
  | .start =>
    if ch ≠ 58 then
      if isAlpha ch ∨ ch = 95 then { s with deviceName := s.deviceName ++ [ch] }
      else { s with pstate := .error }
    else { s with pstate := .indexStart }
  | .indexStart =>
    if isDigit ch then
      { s with deviceIndexStr := s.deviceIndexStr ++ [ch], pstate := .indexRest }
    else { s with pstate := .error }
  | .indexRest =>
    if s.deviceIndexStr.head? = some 48 then { s with pstate := .error }
    else if isDigit ch then { s with deviceIndexStr := s.deviceIndexStr ++ [ch] }
    else { s with pstate := .error }
  | .error => s

/-- The number that a string of digits writes. -/
def ofDecimal (digits : Bytes) : Nat :=
  digits.foldl (fun n ch => 10 * n + (ch.toNat - 48)) 0

/-- The index that is read from the digits: `stoi`, which throws when the number does not fit
an `int`, and the conversion to `int8_t`. -/
def parseIndex (digits : Bytes) : Option Int8 :=
  if ofDecimal digits < 2 ^ 31 then some (Int8.ofNat (ofDecimal digits)) else none

/-- The constructor of `Device` from a string; `none` when it throws. -/
def Device.ofString (deviceString : Bytes) : Option Device :=
  let s := deviceString.foldl DeviceString.step ⟨.start, [], []⟩
  let hasError := s.deviceName.isEmpty || decide (s.pstate = .error) ||
    (decide (s.pstate = .indexStart) && s.deviceIndexStr.isEmpty)
  if deviceString.isEmpty || hasError then none
  else if s.deviceIndexStr.isEmpty then
    (parseType s.deviceName).map fun type => ⟨type, -1⟩
  else
    (parseIndex s.deviceIndexStr).bind fun index =>
      (parseType s.deviceName).map fun type => ⟨type, index⟩

/-- The string of the device is not read back: the device is a Metal device, or its index is
negative and not -1. -/
def Device.Unreadable (d : Device) : Prop :=
  d.type = .Metal ∨ d.index < -1

instance (d : Device) : Decidable d.Unreadable :=
  inferInstanceAs (Decidable (_ ∨ _))

section Devices

theorem parseType_deviceTypeName (type : DeviceType) :
    parseType (deviceTypeName type) = if type = .Metal then none else some type := by
  cases type <;> decide

theorem foldl_step_letters {name : Bytes} (h : ∀ ch ∈ name, isAlpha ch = true ∧ ch ≠ 58)
    (s : DeviceString) (hs : s.pstate = .start) :
    name.foldl DeviceString.step s = { s with deviceName := s.deviceName ++ name } := by
  induction name generalizing s with
  | nil => rw [append_nil]; rfl
  | cons ch name ih =>
    obtain ⟨halpha, hcolon⟩ := h ch mem_cons_self
    have hstep : s.step ch = { s with deviceName := s.deviceName ++ [ch] } := by
      simp [DeviceString.step, hs, hcolon, halpha]
    have hrest := ih (fun c hc => h c (mem_cons_of_mem _ hc)) (s.step ch) (by rw [hstep]; exact hs)
    rw [foldl_cons, hrest, hstep]
    simp only [append_assoc, singleton_append]

theorem deviceTypeName_letters (type : DeviceType) :
    ∀ ch ∈ deviceTypeName type, isAlpha ch = true ∧ ch ≠ 58 := by
  have hall : (deviceTypeName type).all (fun ch => isAlpha ch && ch != 58) = true := by
    cases type <;> rfl
  intro ch hch
  simpa only [Bool.and_eq_true, bne_iff_ne] using all_eq_true.mp hall ch hch

theorem deviceTypeName_ne_nil (type : DeviceType) : (deviceTypeName type).isEmpty = false := by
  cases type <;> decide

theorem foldl_step_index (digits name : Bytes) (s : DeviceString) (hs : s.pstate ≠ .start) :
    digits.foldl DeviceString.step { s with deviceName := name } =
      { digits.foldl DeviceString.step s with deviceName := name } := by
  induction digits generalizing s with
  | nil => rfl
  | cons ch digits ih =>
    have hstep : DeviceString.step { s with deviceName := name } ch =
        { s.step ch with deviceName := name } := by
      cases hstate : s.pstate with
      | start => exact absurd hstate hs
      | indexStart => simp only [DeviceString.step, hstate]; split <;> rfl
      | indexRest => simp only [DeviceString.step, hstate]; split <;> [rfl; split] <;> rfl
      | error => simp only [DeviceString.step, hstate]
    have hne : (s.step ch).pstate ≠ .start := by
      cases hstate : s.pstate with
      | start => exact absurd hstate hs
      | indexStart => simp only [DeviceString.step, hstate]; split <;> simp
      | indexRest =>
        simp only [DeviceString.step, hstate]
        split <;> [simp; split] <;> simp
      | error => simp [DeviceString.step, hstate]
    rw [foldl_cons, foldl_cons, hstep, ih _ hne]

theorem foldl_step_decimal (index : Fin 128) (name : Bytes) :
    (decimal index.val).foldl DeviceString.step ⟨.indexStart, name, []⟩ =
      ⟨.indexRest, name, decimal index.val⟩ := by
  have hdigits : ∀ index : Fin 128,
      (decimal index.val).foldl DeviceString.step ⟨.indexStart, [], []⟩ =
        ⟨.indexRest, [], decimal index.val⟩ := by decide
  calc (decimal index.val).foldl DeviceString.step ⟨.indexStart, name, []⟩
      = { (decimal index.val).foldl DeviceString.step ⟨.indexStart, [], []⟩ with
            deviceName := name } :=
        foldl_step_index _ name ⟨.indexStart, [], []⟩ (by decide)
    _ = ⟨.indexRest, name, decimal index.val⟩ := by rw [hdigits]

/-- A number has digits. -/
theorem decimal_ne_nil (index : Fin 128) : (decimal index.val).isEmpty = false := by
  revert index
  decide

theorem parseIndex_decimal (index : Fin 128) :
    parseIndex (decimal index.val) = some (Int8.ofNat index.val) := by
  have hvalue : ∀ index : Fin 128, ofDecimal (decimal index.val) = index.val := by decide
  rw [parseIndex, hvalue, if_pos (by omega)]

/-- The loop stays in the state `ERROR`. -/
theorem foldl_step_error (s : DeviceString) (hs : s.pstate = .error) (rest : Bytes) :
    rest.foldl DeviceString.step s = s := by
  induction rest with
  | nil => rfl
  | cons ch rest ih =>
    have hstep : s.step ch = s := by simp only [DeviceString.step, hs]
    rw [foldl_cons, hstep, ih]

/-- A device is read back from its string, unless it is unreadable. -/
theorem ofString_str (d : Device) :
    Device.ofString d.str = if d.Unreadable then none else some d := by
  obtain ⟨type, index⟩ := d
  have hname : (deviceTypeName type).foldl DeviceString.step ⟨.start, [], []⟩ =
      ⟨.start, deviceTypeName type, []⟩ :=
    foldl_step_letters (deviceTypeName_letters type) ⟨.start, [], []⟩ rfl
  have hname_ne := deviceTypeName_ne_nil type
  have hloop : ∀ suffix : Bytes, (deviceTypeName type ++ ascii ":" ++ suffix).foldl
      DeviceString.step ⟨.start, [], []⟩ =
        suffix.foldl DeviceString.step ⟨.indexStart, deviceTypeName type, []⟩ := by
    intro suffix
    rw [append_assoc, foldl_append, hname, foldl_append]
    rfl
  have hne : ∀ suffix : Bytes, (deviceTypeName type ++ ascii ":" ++ suffix).isEmpty = false := by
    intro suffix
    simp [ascii]
  by_cases hnone : index = -1
  · subst hnone
    have hindex : Device.hasIndex ⟨type, -1⟩ = false := rfl
    simp only [Device.str, hindex, Bool.false_eq_true, if_false, Device.ofString, hname, hname_ne,
      parseType_deviceTypeName, Device.Unreadable]
    by_cases hmetal : type = .Metal <;> simp [hmetal]
  · have hindex : Device.hasIndex ⟨type, index⟩ = true := bne_iff_ne.mpr hnone
    by_cases hneg : index.toInt < 0
    · -- The sign leads to the state `ERROR`.
      have hbad : Device.Unreadable ⟨type, index⟩ := by
        refine .inr (Int8.lt_iff_toInt_lt.mpr ?_)
        have : index.toInt ≠ -1 := fun h => hnone (Int8.toInt_inj.mp h)
        show index.toInt < -1
        omega
      have herror := foldl_step_error ⟨.error, deviceTypeName type, []⟩ rfl
        (decimal index.toInt.natAbs)
      have hsign : (signedDecimal index.toInt).foldl DeviceString.step
          ⟨.indexStart, deviceTypeName type, []⟩ = ⟨.error, deviceTypeName type, []⟩ := by
        rw [signedDecimal, if_pos hneg, foldl_append]
        exact herror
      rw [if_pos hbad, Device.str, hindex, if_pos rfl]
      simp only [Device.ofString, hloop, hsign, hne]
      simp
    · have hlt := index.toInt_lt
      have heq : index = Int8.ofNat index.toInt.toNat := by
        rw [← Int8.ofInt_eq_ofNat, Int.toNat_of_nonneg (by omega), Int8.ofInt_toInt]
      have hdecimal := foldl_step_decimal ⟨index.toInt.toNat, by omega⟩ (deviceTypeName type)
      have hparse := parseIndex_decimal ⟨index.toInt.toNat, by omega⟩
      have hdigits := decimal_ne_nil ⟨index.toInt.toNat, by omega⟩
      have habs : index.toInt.natAbs = index.toInt.toNat := by omega
      have hreadable : ¬ index < -1 := by
        rw [Int8.lt_iff_toInt_lt]
        show ¬ index.toInt < -1
        omega
      simp only [← heq] at hparse
      simp only [Device.str, hindex, if_true, signedDecimal, if_neg hneg, habs, Device.ofString,
        hloop, hne, hdecimal, hname_ne, hdigits, hparse, parseType_deviceTypeName,
        Device.Unreadable, hreadable, or_false]
      by_cases hmetal : type = .Metal <;> simp [hmetal]

end Devices

end PyTorchCore.Pickle
