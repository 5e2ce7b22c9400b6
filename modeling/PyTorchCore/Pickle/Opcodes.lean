import PyTorchCore.Lib.SizedBytes
import PyTorchCore.Pickle.Device

/-!
# The instructions of a pickle

An instruction is its opcode and the arguments behind it.
-/

namespace PyTorchCore.Pickle

open Option List

/-- `PickleOpCode` with the arguments of each instruction. -/
inductive Instruction where
  | proto (version : UInt8)
  | stop
  | mark
  | none
  | newTrue
  | newFalse
  | binInt1 (n : UInt8)
  | binInt2 (n : UInt16)
  | binInt (n : UInt32)
  | long1 (n : UInt64)
  | binFloat (bits : UInt64)
  | binUnicode (s : Bytes)
  | emptyTuple
  | tuple
  | tuple1
  | tuple2
  | tuple3
  | emptyList
  | appends
  | list
  | emptyDict
  | setItems
  | dict
  | binPut (id : UInt8)
  | longBinPut (id : UInt32)
  | binGet (id : UInt8)
  | longBinGet (id : UInt32)
  | global (moduleName className : Bytes)
  | newObj
  | reduce
  | build
  deriving DecidableEq, Repr

def Instruction.opcode : Instruction → UInt8
  | .proto _ => 0x80
  | .stop => 0x2E
  | .mark => 0x28
  | .none => 0x4E
  | .newTrue => 0x88
  | .newFalse => 0x89
  | .binInt1 _ => 0x4B
  | .binInt2 _ => 0x4D
  | .binInt _ => 0x4A
  | .long1 _ => 0x8A
  | .binFloat _ => 0x47
  | .binUnicode _ => 0x58
  | .emptyTuple => 0x29
  | .tuple => 0x74
  | .tuple1 => 0x85
  | .tuple2 => 0x86
  | .tuple3 => 0x87
  | .emptyList => 0x5D
  | .appends => 0x65
  | .list => 0x6C
  | .emptyDict => 0x7D
  | .setItems => 0x75
  | .dict => 0x64
  | .binPut _ => 0x71
  | .longBinPut _ => 0x72
  | .binGet _ => 0x68
  | .longBinGet _ => 0x6A
  | .global _ _ => 0x63
  | .newObj => 0x81
  | .reduce => 0x52
  | .build => 0x62

def Instruction.arguments : Instruction → Bytes
  | .proto version => [version]
  | .binInt1 n => [n]
  | .binInt2 n => Lib.littleEndian 2 n.toNat
  | .binInt n => Lib.littleEndian 4 n.toNat
  | .long1 n => 8 :: Lib.littleEndian 8 n.toNat
  | .binFloat bits => (Lib.littleEndian 8 bits.toNat).reverse
  | .binUnicode s => Lib.littleEndian 4 s.length ++ s
  | .binPut id => [id]
  | .longBinPut id => Lib.littleEndian 4 id.toNat
  | .binGet id => [id]
  | .longBinGet id => Lib.littleEndian 4 id.toNat
  | .global moduleName className => moduleName ++ ascii "\n" ++ (className ++ ascii "\n")
  | _ => []

/-- What the pickler writes for an instruction. -/
def Instruction.encode (i : Instruction) : Bytes :=
  i.opcode :: i.arguments

/-- `read<uint8_t>`. -/
def readByte : Bytes → Option (UInt8 × Bytes)
  | [] => Option.none
  | b :: rest => some (b, rest)

def readBytes (length : Nat) (bytes : Bytes) : Option (Bytes × Bytes) :=
  if length ≤ bytes.length then some (bytes.take length, bytes.drop length) else Option.none

/-- `read<T>` for an integer type of `width` bytes. -/
def readNumber (width : Nat) (bytes : Bytes) : Option (Nat × Bytes) :=
  (readBytes width bytes).map fun r => (Lib.ofLittleEndian r.1, r.2)

/-- `readFloat`: the bytes are reversed. -/
def readFloat (bytes : Bytes) : Option (UInt64 × Bytes) :=
  (readBytes 8 bytes).map fun r => (UInt64.ofNat (Lib.ofLittleEndian r.1.reverse), r.2)

/-- `readString`: the characters in front of the newline. -/
def readString : Bytes → Option (Bytes × Bytes)
  | [] => Option.none
  | b :: rest =>
    if b = 10 then some ([], rest) else (readString rest).map fun r => (b :: r.1, r.2)

/-- The reads in the case of an opcode of `Unpickler::readInstruction`. -/
def readArguments (opcode : UInt8) (rest : Bytes) : Option (Instruction × Bytes) :=
  match opcode with
  | 0x80 => (readByte rest).map fun r => (.proto r.1, r.2)
  | 0x2E => some (.stop, rest)
  | 0x28 => some (.mark, rest)
  | 0x4E => some (.none, rest)
  | 0x88 => some (.newTrue, rest)
  | 0x89 => some (.newFalse, rest)
  | 0x4B => (readByte rest).map fun r => (.binInt1 r.1, r.2)
  | 0x4D => (readNumber 2 rest).map fun r => (.binInt2 (UInt16.ofNat r.1), r.2)
  | 0x4A => (readNumber 4 rest).map fun r => (.binInt (UInt32.ofNat r.1), r.2)
  | 0x8A =>
    -- only eight bytes are read
    (readByte rest).bind fun (length, rest) =>
      if length = 8 then (readNumber 8 rest).map fun r => (.long1 (UInt64.ofNat r.1), r.2)
      else Option.none
  | 0x47 => (readFloat rest).map fun r => (.binFloat r.1, r.2)
  | 0x58 =>
    (readNumber 4 rest).bind fun (length, rest) =>
      (readBytes length rest).map fun r => (.binUnicode r.1, r.2)
  | 0x29 => some (.emptyTuple, rest)
  | 0x74 => some (.tuple, rest)
  | 0x85 => some (.tuple1, rest)
  | 0x86 => some (.tuple2, rest)
  | 0x87 => some (.tuple3, rest)
  | 0x5D => some (.emptyList, rest)
  | 0x65 => some (.appends, rest)
  | 0x6C => some (.list, rest)
  | 0x7D => some (.emptyDict, rest)
  | 0x75 => some (.setItems, rest)
  | 0x64 => some (.dict, rest)
  | 0x71 => (readByte rest).map fun r => (.binPut r.1, r.2)
  | 0x72 => (readNumber 4 rest).map fun r => (.longBinPut (UInt32.ofNat r.1), r.2)
  | 0x68 => (readByte rest).map fun r => (.binGet r.1, r.2)
  | 0x6A => (readNumber 4 rest).map fun r => (.longBinGet (UInt32.ofNat r.1), r.2)
  | 0x63 =>
    (readString rest).bind fun (moduleName, rest) =>
      (readString rest).map fun r => (.global moduleName r.1, r.2)
  | 0x81 => some (.newObj, rest)
  | 0x52 => some (.reduce, rest)
  | 0x62 => some (.build, rest)
  | _ => Option.none

/-- The reads of `Unpickler::readInstruction`: the opcode and the arguments of its case. -/
def readInstruction (bytes : Bytes) : Option (Instruction × Bytes) :=
  (readByte bytes).bind fun r => readArguments r.1 r.2

/-- What the format can write: the size of a string has four bytes, and the names of a global
have no newline. -/
def Instruction.Encodable : Instruction → Prop
  | .binUnicode s => s.length < 2 ^ 32
  | .global moduleName className => (10 : UInt8) ∉ moduleName ∧ (10 : UInt8) ∉ className
  | _ => True

section Opcodes

variable {rest : Bytes}

theorem readBytes_append (data rest : Bytes) :
    readBytes data.length (data ++ rest) = some (data, rest) := by
  rw [readBytes, if_pos (by simp), take_left, drop_left]

theorem readNumber_littleEndian {width n : Nat} (h : n < 256 ^ width) (rest : Bytes) :
    readNumber width (Lib.littleEndian width n ++ rest) = some (n, rest) := by
  have hread := readBytes_append (Lib.littleEndian width n) rest
  rw [Lib.length_littleEndian] at hread
  rw [readNumber, hread, map_some, Lib.ofLittleEndian_littleEndian, Nat.mod_eq_of_lt h]

theorem readFloat_reverse (bits : UInt64) (rest : Bytes) :
    readFloat ((Lib.littleEndian 8 bits.toNat).reverse ++ rest) = some (bits, rest) := by
  have hread := readBytes_append (Lib.littleEndian 8 bits.toNat).reverse rest
  rw [length_reverse, Lib.length_littleEndian] at hread
  rw [readFloat, hread, map_some, reverse_reverse, Lib.ofLittleEndian_littleEndian,
    Nat.mod_eq_of_lt (show bits.toNat < 256 ^ 8 from bits.toNat_lt), UInt64.ofNat_toNat]

/-- A line is read up to its end. -/
theorem readString_newline {name : Bytes} (h : (10 : UInt8) ∉ name) (rest : Bytes) :
    readString (name ++ ascii "\n" ++ rest) = some (name, rest) := by
  induction name with
  | nil => rfl
  | cons b name ih =>
    rw [mem_cons, not_or] at h
    have hstep : readString (b :: name ++ ascii "\n" ++ rest) =
        (readString (name ++ ascii "\n" ++ rest)).map fun r => (b :: r.1, r.2) :=
      if_neg fun hb => h.1 hb.symm
    rw [hstep, ih h.2, map_some]

theorem readInstruction_encode {i : Instruction} (h : i.Encodable) (rest : Bytes) :
    readInstruction (i.encode ++ rest) = some (i, rest) := by
  have hopcode : readInstruction (i.encode ++ rest) =
      readArguments i.opcode (i.arguments ++ rest) := rfl
  rw [hopcode]
  cases i with
  | binInt2 n =>
    have hread := readNumber_littleEndian (show n.toNat < 256 ^ 2 from n.toNat_lt) rest
    simp [Instruction.opcode, Instruction.arguments, readArguments, hread]
  | binInt n =>
    have hread := readNumber_littleEndian (show n.toNat < 256 ^ 4 from n.toNat_lt) rest
    simp only [Instruction.opcode, Instruction.arguments, readArguments, hread,
      map_some, UInt32.ofNat_toNat]
  | long1 n =>
    have hread := readNumber_littleEndian (show n.toNat < 256 ^ 8 from n.toNat_lt) rest
    simp [Instruction.opcode, Instruction.arguments, readArguments, readByte, hread]
  | binFloat bits =>
    simp [Instruction.opcode, Instruction.arguments, readArguments, readFloat_reverse]
  | binUnicode s =>
    have hread := readNumber_littleEndian (show s.length < 256 ^ 4 from h) (s ++ rest)
    simp [Instruction.opcode, Instruction.arguments, readArguments, hread, readBytes_append]
  | longBinPut id =>
    have hread := readNumber_littleEndian (show id.toNat < 256 ^ 4 from id.toNat_lt) rest
    simp only [Instruction.opcode, Instruction.arguments, readArguments, hread,
      map_some, UInt32.ofNat_toNat]
  | longBinGet id =>
    have hread := readNumber_littleEndian (show id.toNat < 256 ^ 4 from id.toNat_lt) rest
    simp only [Instruction.opcode, Instruction.arguments, readArguments, hread,
      map_some, UInt32.ofNat_toNat]
  | global moduleName className =>
    have hmodule := readString_newline h.1 (className ++ ascii "\n" ++ rest)
    have hclass := readString_newline h.2 rest
    simp only [Instruction.opcode, Instruction.arguments, readArguments]
    rw [append_assoc, hmodule, bind_some, hclass, map_some]
  | _ => rfl

/-- No two sequences of instructions are written as the same bytes. -/
theorem flatMap_encode_injOn :
    Set.InjOn (flatMap Instruction.encode) {is | ∀ i ∈ is, i.Encodable} := by
  intro is
  induction is with
  | nil =>
    rintro - (_ | ⟨j, js⟩) - heq
    · rfl
    · cases heq
  | cons i is ih =>
    rintro his (_ | ⟨j, js⟩) hjs heq
    · cases heq
    · have hi := readInstruction_encode (his i mem_cons_self) (is.flatMap Instruction.encode)
      rw [← flatMap_cons, heq, flatMap_cons, readInstruction_encode (hjs j mem_cons_self)] at hi
      obtain ⟨rfl, hrest⟩ := Prod.mk.inj (Option.some.inj hi)
      rw [ih (fun k hk => his k (mem_cons_of_mem _ hk)) (fun k hk => hjs k (mem_cons_of_mem _ hk))
        hrest.symm]

end Opcodes

end PyTorchCore.Pickle
