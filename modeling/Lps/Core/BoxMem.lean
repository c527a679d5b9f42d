import Lps.Core.Box
import Lps.Core.Mmap

/-!
# The memory of a box

A box maps, unmaps and protects ranges of its own addresses: its tracker decides
where, and the host's `mmap` and `mprotect` do it.  What is unmapped is reserved
again at once, by the callback of the tracker.
-/

namespace Lps.Core

open Lps.Program

def PROT_NONE : CInt := 0

def PROT_READ : CInt := 1

def PROT_WRITE : CInt := 2

def MAP_PRIVATE : CInt := 2

def MAP_FIXED : CInt := 16

def MAP_ANONYMOUS : CInt := 32

/-- `struct LPSBox`: where the box is, and its tracker. -/
structure LPSBox extends LPSBoxInfo where
  mm : MMAddrSpace
  deriving DecidableEq

/-- The box `lps_box_new` returns for a range of the box map. -/
def LPSBoxInfo.track (box : LPSBoxInfo) : LPSBox where
  toLPSBoxInfo := box
  mm := mmInit box.base box.size (4 * 1024)

/-- The host's `mmap`. -/
def mmap (addr len : Word) (prot flags : CInt) (fd : Int) (off : Word) : HostProg Word :=
  .ask (HostCall.mmap addr len prot flags fd off)

/-- The host's `mprotect`. -/
def mprotect (addr len : Word) (prot : CInt) : HostProg Int :=
  .ask (HostCall.mprotect addr len prot)

/-- `cbunmap`. -/
def cbunmap : UpdateFn := fun start len _ => do
  let p ← mmap start len PROT_NONE (MAP_ANONYMOUS ||| MAP_PRIVATE ||| MAP_FIXED) (-1) 0
  Prog.check (p = start) .cbunmap

namespace LPSBox

/-- `addr >= box->base && addr + size <= box->base + box->size`. -/
def holds (box : LPSBox) (addr size : Word) : Bool :=
  addr ≥ box.base && addr + size ≤ box.base + box.size

/-- What `lps_box_mapat` and `lps_box_mapany` do once the tracker has chosen the
address: map it, and take it back from the tracker when the host refuses. -/
def mapTracked (box : LPSBox) (addr size : Word) (prot flags : CInt) (fd : Int) (off : Word) :
    HostProg (Word × LPSBox) := do
  let mem ← mmap addr size prot (flags ||| MAP_FIXED) fd off
  if mem = -1 then
    let (_, mm) ← box.mm.mmUnmap addr size
    return (-1, { box with mm := mm })
  return (mem, box)

end LPSBox

/-- `lps_box_mapat`. -/
def lpsBoxMapat (box : LPSBox) (addr size : Word) (prot flags : CInt) (fd : Int) (off : Word) :
    HostProg (Word × LPSBox) := do
  Prog.check (box.holds addr size) .boxMapat
  let (addr, mm) ← box.mm.mmMapatCb addr size prot flags fd off cbunmap
  if addr = -1 then return (-1, { box with mm := mm })
  LPSBox.mapTracked { box with mm := mm } addr size prot flags fd off

/-- `lps_box_mapany`. -/
def lpsBoxMapany (box : LPSBox) (size : Word) (prot flags : CInt) (fd : Int) (off : Word) :
    HostProg (Word × LPSBox) := do
  let (addr, mm) ← box.mm.mmMapany size prot flags fd off
  if addr = -1 then return (-1, { box with mm := mm })
  LPSBox.mapTracked { box with mm := mm } addr size prot flags fd off

/-- `lps_box_munmap`. -/
def lpsBoxMunmap (box : LPSBox) (addr size : Word) : HostProg (Int × LPSBox) := do
  if box.holds addr size then
    let (r, mm) ← box.mm.mmUnmapCb addr size cbunmap
    return (r, { box with mm := mm })
  return (-1, box)

/-- `lps_box_mprotect`. -/
def lpsBoxMprotect (box : LPSBox) (addr size : Word) (prot : CInt) : HostProg Int := do
  Prog.check (box.holds addr size) .boxMprotect
  mprotect addr size prot

end Lps.Core
