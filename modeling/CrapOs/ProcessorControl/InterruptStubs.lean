import CrapOs.Foundation.Machine

/-! # The interrupt stubs

All stubs of the interrupt table are one block of code around the call of a
handler. The code that was interrupted does not notice it.
-/

namespace CrapOs

open Foundation

/-- What a handler keeps for the stub: a callee-saved register and the frame. -/
structure Returns (c c' : Cpu) : Prop where
  rbx : c'.regs .rbx = c.regs .rbx
  frame : Mem.AgreeOn c.mem c'.mem (c.regs .rdi) 168

variable {c : Cpu} {top : Nat} {error : Option Nat}

end CrapOs
