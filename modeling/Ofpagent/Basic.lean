/-
# The C types the modules share

The host is the one the sources are configured for: little-endian, with 32-bit `int` and
64-bit pointers.  `U8`, `U16` and `U32` are `UInt8`, `UInt16` and `UInt32`; an `int` that the
code computes with is an `ℤ`, and its conversions to and from `U32` are written out.
-/
import Ofpagent.Lib.Runs
import Ofpagent.Lib.Chain
import Ofpagent.Lib.DeltaQueue

namespace Ofpagent

/-- A non-NULL address. -/
abbrev Addr := { a : UInt64 // a ≠ 0 }

/-- A C pointer: `none` is NULL. -/
abbrev Ptr := Option Addr

/-- Two addresses, for runs on given inputs. -/
def addr1 : Addr := ⟨4096, by decide⟩
def addr2 : Addr := ⟨8192, by decide⟩

/-- `tIPC_ID`. -/
abbrev IpcId := ℤ

/-- The conversion of an `int` to `U32`. -/
def u32OfInt (d : ℤ) : UInt32 := UInt32.ofNat (d % 2 ^ 32).toNat

/-- The conversion of a `U32` to `int`. -/
def intOfU32 (u : UInt32) : ℤ := if u.toNat < 2 ^ 31 then u.toNat else (u.toNat : ℤ) - 2 ^ 32

theorem u32OfInt_toNat {d : ℤ} (h0 : 0 ≤ d) (h1 : d < 2 ^ 32) : (u32OfInt d).toNat = d.toNat := by
  have h : d % 2 ^ 32 = d := Int.emod_eq_of_lt h0 h1
  rw [u32OfInt, h, UInt32.toNat_ofNat_of_lt']
  simp only [UInt32.size]
  omega

theorem intOfU32_of_lt {u : UInt32} (h : u.toNat < 2 ^ 31) : intOfU32 u = u.toNat := by
  rw [intOfU32, if_pos h]

/-- An `int` comes back from its conversion to `U32`. -/
theorem intOfU32_u32OfInt {d : ℤ} (h0 : -2 ^ 31 ≤ d) (h1 : d < 2 ^ 31) :
    intOfU32 (u32OfInt d) = d := by
  have hnat : (u32OfInt d).toNat = (d % 2 ^ 32).toNat := by
    rw [u32OfInt, UInt32.toNat_ofNat_of_lt']
    simp only [UInt32.size]
    omega
  rw [intOfU32, hnat]
  split_ifs <;> omega

/-- `IPC_EV_TYPE_DRV` and `IPC_EV_TYPE_TMR` of `ipc.h`. -/
def ipcEvTypeDrv : UInt16 := 3
def ipcEvTypeTmr : UInt16 := 4

/-- `tIPC_PRIM`: what the timer task sends when a timer fires. -/
structure IpcPrim where
  type : UInt16
  evt : UInt8
  ccb : Ptr
  deriving DecidableEq

end Ofpagent
