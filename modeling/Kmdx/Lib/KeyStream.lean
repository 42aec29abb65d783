import Mathlib.Data.List.Basic

/-!
# Stream ciphers

Bytes that are combined with those of a key stream, from a position on.
-/

namespace KeyStream

variable (stream : Nat → UInt8)

def process (position : Nat) (b : List UInt8) : List UInt8 := b.mapIdx fun i x => x ^^^ stream (position + i)

variable {stream} {position : Nat} {a b : List UInt8}

@[simp] theorem process_nil : process stream position [] = [] := rfl

@[simp] theorem length_process : (process stream position b).length = b.length := List.length_mapIdx

theorem process_append : process stream position (a ++ b) = process stream position a ++
    process stream (position + a.length) b := by
  rw [process, List.mapIdx_append]
  refine congrArg _ (List.ext_getElem (by simp) fun i _ _ => ?_)
  simp only [List.getElem_mapIdx, process]
  rw [Nat.add_assoc, Nat.add_comm i]

/-- The same again gives back what it was. -/
@[simp] theorem process_process : process stream position (process stream position b) = b := by
  refine List.ext_getElem (by simp) fun i _ _ => ?_
  simp only [List.getElem_mapIdx, process]
  rw [UInt8.xor_assoc, UInt8.xor_self, UInt8.xor_zero]

end KeyStream
