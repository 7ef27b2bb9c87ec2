import Ese.Lib.Memory

/-!
# Allocated blocks

A block of the heap is a byte memory with a size. A copy into or out of a block is defined only
while it stays inside: what leaves the block is `none`.
-/

namespace Ese

/-- A part of a copy is the part of what was copied. -/
theorem Mem.read_write_read (m m' : Mem) {a b n k j : Nat} (h : k + j ≤ n) :
    (m.write a (m'.read b n)).read (a + k) j = m'.read (b + k) j := by
  apply List.ext_getElem (by simp)
  intro i h₁ h₂
  rw [Mem.length_read] at h₂
  rw [Mem.getElem_read, Mem.getElem_read, Nat.add_assoc,
    Mem.write_apply_add _ _ (show k + i < (m'.read b n).length by rw [Mem.length_read]; omega),
    Mem.getElem_read,
    Nat.add_assoc]

/-- A block of the heap. -/
structure Block where
  cb : Nat
  rgb : Mem

namespace Block

/-- The `n` bytes from `ib` on. -/
def read (b : Block) (ib n : Nat) : Option (List Byte) :=
  if ib + n ≤ b.cb then some (b.rgb.read ib n) else none

/-- The block with the bytes stored from `ib` on. -/
def write (b : Block) (ib : Nat) (rgb : List Byte) : Option Block :=
  if ib + rgb.length ≤ b.cb then some { b with rgb := b.rgb.write ib rgb } else none

section
variable {b b' : Block} {ib ib' n : Nat} {rgb : List Byte}

theorem read_eq (h : ib + n ≤ b.cb) : b.read ib n = some (b.rgb.read ib n) := if_pos h

theorem write_eq (h : ib + rgb.length ≤ b.cb) :
    b.write ib rgb = some { b with rgb := b.rgb.write ib rgb } := if_pos h

end

end Block

/-- What an allocation of `cb` bytes returns; `alloc` is what the heap has to give. -/
def malloc (cb : Nat) (alloc : Option Mem) : Option Block := alloc.map fun rgb => ⟨cb, rgb⟩

end Ese
