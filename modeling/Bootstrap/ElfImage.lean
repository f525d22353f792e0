import Bootstrap.ByteMemory
import Bootstrap.CInt
import Mathlib.Data.List.Perm.Basic

/-! An ELF file as the loader has mapped it: what xh_elf_init makes of its headers and of its
dynamic section. -/
namespace Bootstrap.Xhook
open CInt ByteLayout ByteMemory

/- What the calls return when they fail; an errno is less. -/
def XH_ERRNO_UNKNOWN : Nat := 1001
def XH_ERRNO_INVAL : Nat := 1002
def XH_ERRNO_BADMAPS : Nat := 1006
def XH_ERRNO_FORMAT : Nat := 1007
def XH_ERRNO_SEGVERR : Nat := 1009

structure Target where
  machine : Nat
  jumpSlot : Nat
  globDat : Nat
  abs : Nat
  deriving DecidableEq, Repr

def x86_64 : Target := ⟨62, 7, 6, 1⟩

def checkElfheader (target : Target) (memory : Memory) (baseAddr : Nat) : Except Nat Unit := do
  if load memory baseAddr 4 ≠ [0x7f, 0x45, 0x4c, 0x46] then throw XH_ERRNO_FORMAT
  if word memory (baseAddr + 4) 1 ≠ 2 then throw XH_ERRNO_FORMAT
  if word memory (baseAddr + 5) 1 ≠ 1 then throw XH_ERRNO_FORMAT
  if word memory (baseAddr + 6) 1 ≠ 1 then throw XH_ERRNO_FORMAT
  if word memory (baseAddr + 16) 2 ≠ 2 ∧ word memory (baseAddr + 16) 2 ≠ 3 then throw XH_ERRNO_FORMAT
  if word memory (baseAddr + 18) 2 ≠ target.machine then throw XH_ERRNO_FORMAT
  if word memory (baseAddr + 20) 4 ≠ 1 then throw XH_ERRNO_FORMAT

structure Phdr where
  pType : Nat
  pOffset : Nat
  pVaddr : Nat
  pMemsz : Nat
  deriving DecidableEq, Repr

def PT_LOAD : Nat := 1
def PT_DYNAMIC : Nat := 2

def phdrAt (memory : Memory) (address : Nat) : Phdr where
  pType := word memory address 4
  pOffset := word memory (address + 8) 8
  pVaddr := word memory (address + 16) 8
  pMemsz := word memory (address + 40) 8

structure Dyn where
  dTag : Nat
  dVal : Nat
  deriving DecidableEq, Repr

def dynAt (memory : Memory) (address : Nat) : Dyn := ⟨word memory address 8, word memory (address + 8) 8⟩

/-- xh_elf_t. A pointer is its address; ehdr is base_addr. -/
structure Elf where
  pathname : Bytes
  baseAddr : Nat
  biasAddr : Nat := 0
  phdr : Nat := 0
  dyn : Nat := 0
  dynSz : Nat := 0
  strtab : Nat := 0
  symtab : Nat := 0
  relplt : Nat := 0
  relpltSz : Nat := 0
  reldyn : Nat := 0
  reldynSz : Nat := 0
  relandroid : Nat := 0
  relandroidSz : Nat := 0
  bucket : Nat := 0
  bucketCnt : Nat := 0
  chain : Nat := 0
  chainCnt : Nat := 0
  symoffset : Nat := 0
  bloom : Nat := 0
  bloomSz : Nat := 0
  bloomShift : Nat := 0
  isUseRela : Bool := false
  isUseGnuHash : Bool := false
  deriving DecidableEq, Repr

inductive DynCase where
  | strtab | symtab | pltrel | jmprel | pltrelsz | reldyn | reldynsz | relandroid | relandroidsz | hash | gnuHash
  deriving DecidableEq, Repr

def DT_NULL : Nat := 0
def DT_RELA : Nat := 7

def dynCase (dTag : Nat) : Option DynCase :=
  match dTag with
  | 5 => some .strtab
  | 6 => some .symtab
  | 20 => some .pltrel
  | 23 => some .jmprel
  | 2 => some .pltrelsz
  | 7 => some .reldyn
  | 17 => some .reldyn
  | 8 => some .reldynsz
  | 18 => some .reldynsz
  | 0x6000000f => some .relandroid
  | 0x60000011 => some .relandroid
  | 0x60000010 => some .relandroidsz
  | 0x60000012 => some .relandroidsz
  | 4 => some .hash
  | 0x6ffffef5 => some .gnuHash
  | _ => none

def DynCase.takesPointer : DynCase → Bool
  | .pltrel | .pltrelsz | .reldynsz | .relandroidsz => false
  | _ => true

namespace Elf

def pointer (self : Elf) (dVal : Nat) : Nat := u64 (self.biasAddr + dVal)

def put (memory : Memory) (self : Elf) (dVal : Nat) : DynCase → Elf
  | .strtab => { self with strtab := self.pointer dVal }
  | .symtab => { self with symtab := self.pointer dVal }
  | .pltrel => { self with isUseRela := dVal == DT_RELA }
  | .jmprel => { self with relplt := self.pointer dVal }
  | .pltrelsz => { self with relpltSz := u32 dVal }
  | .reldyn => { self with reldyn := self.pointer dVal }
  | .reldynsz => { self with reldynSz := u32 dVal }
  | .relandroid => { self with relandroid := self.pointer dVal }
  | .relandroidsz => { self with relandroidSz := u32 dVal }
  | .hash =>
    let raw := self.pointer dVal
    let bucketCnt := word memory raw 4
    { self with
      bucketCnt
      chainCnt := word memory (u64 (raw + 4)) 4
      bucket := u64 (raw + 8)
      chain := u64 (raw + 8 + 4 * bucketCnt) }
  | .gnuHash =>
    let raw := self.pointer dVal
    let bucketCnt := word memory raw 4
    let bloomSz := word memory (u64 (raw + 8)) 4
    { self with
      bucketCnt
      symoffset := word memory (u64 (raw + 4)) 4
      bloomSz
      bloomShift := word memory (u64 (raw + 12)) 4
      bloom := u64 (raw + 16)
      bucket := u64 (raw + 16 + 8 * bloomSz)
      chain := u64 (raw + 16 + 8 * bloomSz + 4 * bucketCnt)
      isUseGnuHash := true }

def dynStep (memory : Memory) (self : Elf) (d : Dyn) : Except Nat Elf :=
  match dynCase d.dTag with
  | none => .ok self
  | some c =>
    if c.takesPointer ∧ self.pointer d.dVal < self.baseAddr then .error XH_ERRNO_FORMAT
    else .ok (self.put memory d.dVal c)

def check (self : Elf) : Bool :=
  self.baseAddr != 0 && self.biasAddr != 0 && self.phdr != 0 && self.strtab != 0 && self.symtab != 0 &&
    self.bucket != 0 && self.chain != 0 && !(self.isUseGnuHash && self.bloom == 0)

def parse (memory : Memory) (self : Elf) (entries : List Dyn) : Except Nat Elf := do
  let self ← (entries.takeWhile (fun d => d.dTag ≠ DT_NULL)).foldlM (dynStep memory) self
  let self ← if self.relandroid = 0 then .ok self
    else if self.relandroidSz < 4 ∨ load memory self.relandroid 4 ≠ [0x41, 0x50, 0x53, 0x32] then .error XH_ERRNO_FORMAT
    else .ok { self with relandroid := u64 (self.relandroid + 4), relandroidSz := self.relandroidSz - 4 }
  if self.check then .ok self else .error XH_ERRNO_FORMAT

def phdrs (memory : Memory) (self : Elf) : List Phdr :=
  (List.range (word memory (self.baseAddr + 56) 2)).map (fun i => phdrAt memory (u64 (self.phdr + 56 * i)))

def getFirstSegmentByType (memory : Memory) (self : Elf) (type : Nat) : Option Phdr :=
  (self.phdrs memory).find? (fun phdr => phdr.pType == type)

def getFirstSegmentByTypeOffset (memory : Memory) (self : Elf) (type offset : Nat) : Option Phdr :=
  (self.phdrs memory).find? (fun phdr => phdr.pType == type && phdr.pOffset == offset)

def dynamic (memory : Memory) (self : Elf) : List Dyn :=
  (List.range (self.dynSz / 16)).map (fun i => dynAt memory (u64 (self.dyn + 16 * i)))

def init (memory : Memory) (baseAddr : Nat) (pathname : Bytes) : Except Nat Elf :=
  if baseAddr = 0 then .error XH_ERRNO_INVAL
  else
    let self : Elf := { pathname, baseAddr, phdr := u64 (baseAddr + word memory (baseAddr + 32) 8) }
    match self.getFirstSegmentByTypeOffset memory PT_LOAD 0 with
    | none => .error XH_ERRNO_FORMAT
    | some phdr0 =>
      if baseAddr < phdr0.pVaddr then .error XH_ERRNO_FORMAT
      else
        let self := { self with biasAddr := baseAddr - phdr0.pVaddr }
        match self.getFirstSegmentByType memory PT_DYNAMIC with
        | none => .error XH_ERRNO_FORMAT
        | some dhdr =>
          let self := { self with dyn := self.pointer dhdr.pVaddr, dynSz := u32 dhdr.pMemsz }
          self.parse memory (self.dynamic memory)

end Elf

end Bootstrap.Xhook
