import Mathlib.Data.BitVec
import PreTeO.Lib.Run

/-!
# The recursive mutex (`core/sync/mutex_api.cpp`)

A mutex is three words: the lock flag that an atomic exchange takes, the recursion counter and the
handle counter. The handle of the mutex is computed from the handle counter and the mutex's own
address, so it names the last acquisition and stays valid as a number after the last unlock. Each
call is one atomic step.
-/

namespace PreTeO.Sync
set_option autoImplicit false

def lockMagic : BitVec 32 := 0xdd7799cc#32
def unlockMagic : BitVec 32 := 0x82df317d#32

theorem lockMagic_ne : lockMagic ≠ unlockMagic := by decide

/-- `_mutex_t`, with the address it lives at (`GET_HANDLE` reads it). -/
structure Mutex where
  addr : BitVec 64
  lockCount : BitVec 32
  handleCount : BitVec 32
  lockFlag : BitVec 32
deriving DecidableEq, Repr

/-- `GET_HANDLE` for the mutex at `addr` after `count` acquisitions. -/
def handleAt (addr : BitVec 64) (count : BitVec 32) : BitVec 64 :=
  (count.setWidth 64 <<< 32) ||| (addr.setWidth 32).setWidth 64

/-- `GET_HANDLE(p_mutex)`. -/
def Mutex.getHandle (m : Mutex) : BitVec 64 := handleAt m.addr m.handleCount

/-- `mutex_try_lock`: the returned handle (0 for failure) and the mutex afterwards. -/
def mutexTryLock (m : Mutex) (hm : BitVec 64) : BitVec 64 × Mutex :=
  if hm ≠ m.getHandle then
    let rlock := m.lockFlag
    let m := { m with lockFlag := lockMagic }
    if rlock = unlockMagic then
      let m := { m with lockCount := 1#32, handleCount := m.handleCount + 1#32 }
      (m.getHandle, m)
    else (0#64, m)
  else (hm, { m with lockCount := m.lockCount + 1#32 })

/-- `mutex_unlock`. -/
def mutexUnlock (m : Mutex) (hm : BitVec 64) : Mutex :=
  if hm = m.getHandle then
    let m := { m with lockCount := if m.lockCount ≠ 0#32 then m.lockCount - 1#32 else m.lockCount }
    if m.lockCount = 0#32 then { m with lockFlag := unlockMagic } else m
  else m

/-- `mutex_reset`. -/
def mutexReset (m : Mutex) : Mutex :=
  { m with lockCount := 0#32, lockFlag := unlockMagic, handleCount := 0#32 }

/-- The upper half of a handle is the handle counter. -/
theorem handleAt_high (addr : BitVec 64) (count : BitVec 32) :
    (handleAt addr count >>> 32).setWidth 32 = count := by
  apply BitVec.eq_of_getLsbD_eq
  intro i hi
  have high : 32 + i < 64 ∧ ¬ 32 + i < 32 := by omega
  simp [handleAt, hi, high]

/-- Two acquisitions of one mutex have one handle only if the counter is the same. -/
theorem handleAt_inj {addr : BitVec 64} {a b : BitVec 32} (h : handleAt addr a = handleAt addr b) :
    a = b := by
  rw [← handleAt_high addr a, h, handleAt_high]

/-- The handle value 0 (no handle) can only arise while the counter is 0. -/
theorem handleAt_eq_zero {addr : BitVec 64} {count : BitVec 32} (h : handleAt addr count = 0#64) :
    count = 0#32 := by
  rw [← handleAt_high addr count, h]
  rfl

end PreTeO.Sync
