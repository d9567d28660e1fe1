import Mathlib.Algebra.Group.Nat.Defs

/-!
# Requests to drivers

`_driver_io_t` of `iDriver.h`, the commands of `driver_ioctl` and the results of the file system.
-/

namespace PreTeO.Sys
set_option autoImplicit false

def dioctlSread : Nat := 12
def dioctlBread : Nat := 13
def dioctlFread : Nat := 14
def dioctlSwrite : Nat := 16
def dioctlBwrite : Nat := 17
def dioctlFwrite : Nat := 18
def dioctlFseek : Nat := 20
def dioctlFopen : Nat := 101
def dioctlFclose : Nat := 102
def dioctlFcreate : Nat := 103
def dioctlFdelete : Nat := 104
def dioctlFlink : Nat := 105
def dioctlFslink : Nat := 106
def dioctlFmove : Nat := 107
def dioctlFpmask : Nat := 108
def dioctlFsize : Nat := 109
def dioctlFinfo : Nat := 110

def fsResultOk : Nat := 0
def fsResultErr : Nat := 2 ^ 32 - 1
def fsResultInvalidHandle : Nat := 2 ^ 32 - 5

/-- `_fs_file_info_t`; the names are pointers. -/
structure FileInfo where
  fname : Nat
  lname : Nat
  fsize : Nat
  ctime : Nat
  mtime : Nat
  usrid : Nat
  pmask : Nat
deriving DecidableEq, Repr

/-- `_driver_io_t`. `destName` and `destHandle` are `_name` and `_handle`, `offset` is `lba` too, and `count`, `result` and
`result64` are the one word `result64`. `info` is what `p_data` points to. -/
structure DriverIo where
  buffer : Nat
  size : Nat
  name : Nat
  destName : Nat
  userId : Nat
  pmask : Nat
  destHandle : Nat
  offset : Nat
  result64 : Nat
  handle : Nat
  error : Nat
  info : FileInfo
deriving DecidableEq, Repr

namespace DriverIo

/-- `result` and `count`: the low half of the word. -/
def result (dio : DriverIo) : Nat := dio.result64 % 2 ^ 32

/-- `result` is written. -/
def setResult (dio : DriverIo) (r : Nat) : DriverIo :=
  { dio with result64 := dio.result64 / 2 ^ 32 * 2 ^ 32 + r % 2 ^ 32 }

/-- `error` is `FS_RESULT_OK`. -/
def ok (dio : DriverIo) : DriverIo := { dio with error := fsResultOk }

end DriverIo

end PreTeO.Sys
