import Mathlib

/-- Byte strings. -/
abbrev Bytes := List UInt8

namespace Bytes

/-- The four bytes of an unsigned 32-bit integer, least significant first. -/
def ofU32 (n : Nat) : Bytes :=
  [UInt8.ofNat n, UInt8.ofNat (n / 2 ^ 8), UInt8.ofNat (n / 2 ^ 16), UInt8.ofNat (n / 2 ^ 24)]

/-- The number whose bytes these are, least significant first. -/
def toNat : Bytes → Nat
  | [] => 0
  | b :: rest => b.toNat + 256 * toNat rest

@[simp] theorem length_ofU32 (n : Nat) : (ofU32 n).length = 4 := rfl

theorem toNat_ofU32 {n : Nat} (small : n < 2 ^ 32) : toNat (ofU32 n) = n := by
  simp only [ofU32, toNat, UInt8.toNat_ofNat']
  omega

/-- Reading `n` bytes at a position: a short read is a failure. -/
def readAt (content : Bytes) (position n : Nat) : Option Bytes :=
  if position + n ≤ content.length then some ((content.drop position).take n) else none

def readU32At (content : Bytes) (position : Nat) : Option Nat := (content.readAt position 4).map toNat

/-- Overwriting from a position on, extending the content where it is shorter. -/
def writeAt (content : Bytes) (position : Nat) (data : Bytes) : Bytes :=
  content.take position ++ data ++ content.drop (position + data.length)

theorem readAt_eq_none_iff {content : Bytes} {position n : Nat} :
    content.readAt position n = none ↔ content.length < position + n := by
  unfold readAt
  split <;> simp <;> omega

theorem readU32At_eq_none_iff {content : Bytes} {position : Nat} :
    content.readU32At position = none ↔ content.length < position + 4 := by
  rw [readU32At, Option.map_eq_none_iff, readAt_eq_none_iff]

theorem length_of_readAt {content data : Bytes} {position n : Nat} (read : content.readAt position n = some data) :
    data.length = n := by
  unfold readAt at read
  split at read
  next fits =>
    cases Option.some.inj read
    rw [List.length_take, List.length_drop]
    omega
  next => cases read

theorem toNat_lt (data : Bytes) : toNat data < 256 ^ data.length := by
  induction data with
  | nil => simp [toNat]
  | cons b rest ih =>
    have small := b.toNat_lt
    simp only [toNat, List.length_cons, Nat.pow_succ]
    omega

theorem readU32At_lt {content : Bytes} {position n : Nat} (read : content.readU32At position = some n) :
    n < 2 ^ 32 := by
  obtain ⟨data, four, rfl⟩ := Option.map_eq_some_iff.mp read
  have bound := toNat_lt data
  rwa [length_of_readAt four] at bound

theorem readAt_append (front rest : Bytes) (position n : Nat) :
    readAt (front ++ rest) (front.length + position) n = readAt rest position n := by
  simp only [readAt, List.length_append, List.drop_length_add_append, Nat.add_assoc, Nat.add_le_add_iff_left]

@[simp] theorem readAt_zero (data rest : Bytes) : readAt (data ++ rest) 0 data.length = some data := by
  simp [readAt]

theorem readAt_here (front data rest : Bytes) :
    readAt (front ++ data ++ rest) front.length data.length = some data := by
  have shifted := readAt_append front (data ++ rest) 0 data.length
  rw [Nat.add_zero, ← List.append_assoc] at shifted
  rw [shifted, readAt_zero]

theorem readU32At_here (front rest : Bytes) {n : Nat} (small : n < 2 ^ 32) :
    readU32At (front ++ ofU32 n ++ rest) front.length = some n := by
  rw [readU32At, show (4 : Nat) = (ofU32 n).length from rfl, readAt_here, Option.map_some, toNat_ofU32 small]

@[simp] theorem writeAt_end (written rest data : Bytes) :
    writeAt (written ++ rest) written.length data = written ++ data ++ rest.drop data.length := by
  simp [writeAt, List.drop_append]

end Bytes
