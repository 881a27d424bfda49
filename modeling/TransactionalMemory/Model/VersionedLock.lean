import TransactionalMemory.Model.Address

/-!
# Versioned locks

A versioned lock is one `atomic_int`: the low bit is the lock, the rest the version. Each function
of `versioned_lock.c` is one atomic access, or two for `vl_try_lock`; what is defined here is what
they compute from the value they load and what they leave behind.
-/

namespace TransactionalMemory

def vlInit : Int := 0

def vlLocked (word : Int) : Bool := word % 2 = 1

/-- The test of `vl_try_lock` between its load and its compare-and-exchange. -/
def vlTryLockRefuses (prev rv : Int) : Bool := vlLocked prev || decide (rv < prev / 2)

/-- `prev | 0x1`, the value `vl_try_lock` exchanges in. -/
def vlTaken (prev : Int) : Int := if vlLocked prev then prev else prev + 1

/-- `vl_read_version`, given the value it loads. -/
def vlReadVersion (read : Int) : Int := if vlLocked read then -1 else read / 2

/-- `vl_unlock`, an unconditional `atomic_fetch_sub`. -/
def vlUnlock (word : Int) : Int := toInt (word - 1)

def vlUnlockUpdate (version : Int) : Int := toInt (version * 2)

/-- The lock word of a version, taken or not. -/
def lockWord (version : Nat) (taken : Bool) : Int := 2 * version + if taken then 1 else 0

@[simp]
theorem vlLocked_lockWord (version : Nat) (taken : Bool) :
    vlLocked (lockWord version taken) = taken := by
  cases taken <;> simp [vlLocked, lockWord]

@[simp]
theorem lockWord_div (version : Nat) (taken : Bool) : lockWord version taken / 2 = version := by
  unfold lockWord
  split <;> omega

@[simp]
theorem vlTaken_lockWord (version : Nat) :
    vlTaken (lockWord version false) = lockWord version true := by
  simp [vlTaken, lockWord, vlLocked]

theorem vlReadVersion_lockWord (version : Nat) (taken : Bool) :
    vlReadVersion (lockWord version taken) = if taken then -1 else (version : Int) := by
  simp [vlReadVersion]

theorem vlUnlock_lockWord {version : Nat} (hbound : version < 2 ^ 30) :
    vlUnlock (lockWord version true) = lockWord version false := by
  rw [vlUnlock, toInt_eq_self] <;> simp [lockWord] <;> omega

theorem vlUnlockUpdate_eq {version : Nat} (hbound : version < 2 ^ 30) :
    vlUnlockUpdate version = lockWord version false := by
  rw [vlUnlockUpdate, toInt_eq_self] <;> simp [lockWord] <;> omega

end TransactionalMemory
