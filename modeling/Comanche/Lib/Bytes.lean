import Mathlib.Data.List.TakeWhile

/-!
# Buffers

A buffer is a list; a copy into it at an offset replaces what was there.
-/

namespace Comanche.Lib

abbrev Bytes : Type := List UInt8

variable {α : Type*} {pre src rest : List α}

def writeAt (buf : List α) (off : Nat) (src : List α) : List α :=
  buf.take off ++ src ++ buf.drop (off + src.length)

def readAt (buf : List α) (off len : Nat) : List α := (buf.drop off).take len

theorem writeAt_zero (buf src : List α) : writeAt buf 0 src = src ++ buf.drop src.length := by
  simp [writeAt]

theorem writeAt_append (pre rest src : List α) :
    writeAt (pre ++ rest) pre.length src = pre ++ src ++ rest.drop src.length := by
  unfold writeAt
  rw [List.take_left', List.drop_append, List.drop_eq_nil_of_le (by omega)]
  · simp
  · rfl

theorem readAt_append (pre src rest : List α) : readAt (pre ++ src ++ rest) pre.length src.length = src := by
  unfold readAt
  rw [List.append_assoc, List.drop_left', List.take_left']
  · rfl
  · rfl

theorem readAt_zero (src rest : List α) : readAt (src ++ rest) 0 src.length = src := by
  simp [readAt]

def cString (bytes : List UInt8) : List UInt8 := bytes.takeWhile (· ≠ 0)

theorem cString_eq_self_iff (bytes : List UInt8) : cString bytes = bytes ↔ 0 ∉ bytes := by
  unfold cString
  rw [List.takeWhile_eq_self_iff]
  constructor
  · intro hall hmem
    simpa using hall 0 hmem
  · intro hmem b hb
    simpa using ne_of_mem_of_not_mem hb hmem

end Comanche.Lib
