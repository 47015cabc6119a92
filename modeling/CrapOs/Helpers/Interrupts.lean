/-! # The interrupt flag

Interrupts are on while bit 9 of RFLAGS is set. The kernel turns them off by saving the
register and clearing the bit, and back on by loading what it has saved.
-/

namespace CrapOs

def interruptsEnabled (rflags : BitVec 64) : Bool := rflags.getLsbD 9

def clearInterruptFlag (rflags : BitVec 64) : BitVec 64 := rflags &&& ~~~(1#64 <<< 9)

def disableInterruptsSave (rflags : BitVec 64) : BitVec 64 × BitVec 64 :=
  (rflags, clearInterruptFlag rflags)

/-- `popfq` loads the register from a value that `pushfq` has stored. -/
def restoreInterrupts (flags : BitVec 64) : BitVec 64 := flags

@[simp] theorem interruptsEnabled_cli (rflags : BitVec 64) :
    interruptsEnabled (clearInterruptFlag rflags) = false := by
  simp [interruptsEnabled, clearInterruptFlag]

end CrapOs
