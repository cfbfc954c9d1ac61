/-!
# Little-endian words

A number written with a fixed count of bytes, the least significant byte first, and the number
that such bytes stand for.
-/

namespace IndexMerge

/-- The `count` low bytes of a number, least significant first. -/
def toLittleEndian : Nat → Nat → List UInt8
  | 0, _ => []
  | count + 1, value => UInt8.ofNat value :: toLittleEndian count (value / 256)

/-- The number that bytes stand for, least significant first. -/
def ofLittleEndian : List UInt8 → Nat
  | [] => 0
  | b :: bytes => b.toNat + 256 * ofLittleEndian bytes

/-- Two bytes. -/
def bytes16 (value : UInt16) : List UInt8 := toLittleEndian 2 value.toNat

/-- Four bytes. -/
def bytes32 (value : UInt32) : List UInt8 := toLittleEndian 4 value.toNat

/-- Eight bytes. -/
def bytes64 (value : UInt64) : List UInt8 := toLittleEndian 8 value.toNat

theorem length_toLittleEndian (count value : Nat) :
    (toLittleEndian count value).length = count := by
  induction count generalizing value with
  | zero => rfl
  | succ count ih => simp [toLittleEndian, ih]

@[simp] theorem length_bytes16 (value : UInt16) : (bytes16 value).length = 2 :=
  length_toLittleEndian ..

@[simp] theorem length_bytes32 (value : UInt32) : (bytes32 value).length = 4 :=
  length_toLittleEndian ..

@[simp] theorem length_bytes64 (value : UInt64) : (bytes64 value).length = 8 :=
  length_toLittleEndian ..

/-- Values that are written with as many bytes each. -/
theorem length_flatMap_of_length {α : Type} {encode : α → List UInt8} {count : Nat}
    (each : ∀ a, (encode a).length = count) (values : List α) :
    (values.flatMap encode).length = count * values.length := by
  induction values with
  | nil => rfl
  | cons a values ih =>
    rw [List.flatMap_cons, List.length_append, each, ih, List.length_cons, Nat.mul_add_one,
      Nat.add_comm]

end IndexMerge
