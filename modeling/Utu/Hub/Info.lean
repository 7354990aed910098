import Utu.Bstring
import Utu.Lib.Outcome

/-!
# Information from the file system

The three operations of `info.c` that the services use. What the file system
answers is a parameter; every call can leave any `errno`, also one that works.
-/

namespace Utu.Hub
open Outcome
set_option autoImplicit false

/-- The answers of the file system: whether a call works, and the `errno` behind it. `closedir` and
`fclose` find the one that was left before them. -/
structure Disk where
  opendir : Bytes → Bool × Nat
  readdir : Bytes → List Bytes × Nat
  closedir : Nat → Nat
  stat : Bytes → Option (Int × Int × Int) × Nat
  fopen : Bytes → Bool × Nat
  fread : Bytes → Option Bytes × Nat
  fclose : Nat → Nat
  strerror : Nat → Bytes

/-- What an operation returns, its `error`, and the `errno` that it leaves. -/
structure Info where
  data : Option Bytes
  error : Option Bytes
  errno : Nat
deriving DecidableEq, Repr

namespace Disk
variable (disk : Disk) (path : Bytes)

/-- The loop of `Info_list`: the names, each with a newline -/
def listing : List Bytes → Bytes → Run Bytes
  | [], str => pure str
  | name :: rest, str => do
    let (_, str) ← bconcat str (some (cstr (some name)))
    listing rest (bconchar str 10).2

/-- `Info_list` -/
def infoList : Run Info := do
  let (dir, errno) := disk.opendir path
  if dir && errno == 0 then
    let (names, errno) := disk.readdir path
    let str ← listing names []
    if 64 * 1024 - 200 < str.length then
      pure ⟨some str, some (ascii "Requested listing is larger than allowed message size."), disk.closedir 0⟩
    else pure ⟨some str, none, disk.closedir errno⟩
  else pure ⟨none, some (disk.strerror errno), if dir then disk.closedir 0 else 0⟩

/-- `%d` -/
def printInt (n : Int) : Bytes := if n < 0 then 45 :: Decimal.print n.natAbs else Decimal.print n.natAbs

/-- `Info_tag` -/
def infoTag : Run Info :=
  match disk.stat path with
  | (some (ino, size, mtime), 0) =>
    let tag := printInt (ino.bmod (2 ^ 32)) ++ 45 :: printInt (size.bmod (2 ^ 32)) ++
      45 :: printInt (mtime.bmod (2 ^ 32))
    pure ⟨bformat 8 tag, none, 0⟩
  | (_, errno) => pure ⟨none, some (disk.strerror errno), 0⟩

/-- `Info_get` -/
def infoGet : Run Info :=
  match disk.fopen path with
  | (true, 0) =>
    match disk.fread path with
    | (some data, 0) => pure ⟨some data, none, disk.fclose 0⟩
    | (data, errno) => pure ⟨data, some (disk.strerror errno), disk.fclose 0⟩
  | (true, errno) => pure ⟨none, some (disk.strerror errno), disk.fclose 0⟩
  | (false, errno) => pure ⟨none, some (disk.strerror errno), 0⟩

end Disk

end Utu.Hub
