import Q2os.ByteMemory

/- The checked copies between kernel and user memory. -/
namespace UserMemory
open ByteMemory

def taskSize : Nat := 0x00007fffffffffff

/- The sum is taken in an unsigned long. -/
def verifyArea (addr size : Nat) : Bool :=
  (addr + size) % 2 ^ 64 ≤ taskSize

def copyToUser (kernel : Memory) (src : Nat) (user : Memory) (to_ size : Nat) : Memory :=
  if verifyArea to_ size then copy kernel src user to_ size else user

theorem verifyArea_of_le {addr size : Nat} (inside : addr + size ≤ taskSize) :
    verifyArea addr size = true := by
  have small : addr + size < 2 ^ 64 := by simp only [taskSize] at inside; omega
  simp only [verifyArea, Nat.mod_eq_of_lt small, decide_eq_true_eq]
  exact inside

theorem copyToUser_valid {kernel user : Memory} {src to_ size : Nat}
    (inside : to_ + size ≤ taskSize) :
    copyToUser kernel src user to_ size = copy kernel src user to_ size := by
  simp [copyToUser, verifyArea_of_le inside]

end UserMemory
