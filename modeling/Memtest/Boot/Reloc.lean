import Mathlib.Data.BitVec
import Memtest.Lib.Cells
import Memtest.Tests.RunTest

/-!
# Moving the program (`reloc` in `system/reloc64.c`, `run_at` in `app/main.c`)

The program is linked at address 0. Where it has been loaded, `reloc` adjusts the pointers in its
image, which the entries of two tables list. It notes the address in the image, so that after this
has been copied elsewhere, what has been adjusted before is only moved on. Among it are the
addresses of the two tables, which are in the dynamic section and are changed in place.

A pointer wraps around at the end of the address space.
-/

namespace Memtest

namespace Reloc

/-- The memory of a 64-bit machine. -/
abbrev Memory := BitVec 64 → UInt8

/-- Where the linker has put what the code finds by itself: `last_load_addr`, the GOT, `_DYNAMIC`,
and `_stacks`, at which the image ends. An AArch64 build does not read the GOT. -/
structure Layout where
  aarch64 : Bool
  size : ℕ
  lastLoadAddr : ℕ
  got : ℕ
  dynamic : ℕ
  deriving DecidableEq, Repr

/-- `dyn_info`. -/
abbrev DynInfo := ℕ → Option (BitVec 64)

/-! ### The code -/

/-- `DT_PLTRELSZ`. -/
def dtPltrelsz : ℕ := 2

/-- `DT_RELA`. -/
def dtRela : ℕ := 7

/-- `DT_RELASZ`. -/
def dtRelasz : ℕ := 8

/-- `DT_RELAENT`. -/
def dtRelaent : ℕ := 9

/-- `DT_PLTREL`. -/
def dtPltrel : ℕ := 20

/-- `DT_JMPREL`. -/
def dtJmprel : ℕ := 23

/-- `DT_NUM`. -/
def dtNum : ℕ := 34

/-- `sizeof(Elf64_Dyn)`. -/
def dynSize : ℕ := 16

/-- `sizeof(Elf64_Rela)`. -/
def relaSize : ℕ := 24

/-- A loop that takes more steps than there are places for its pointer does not end. -/
def maxSteps : ℕ := 2 ^ 61 + 1

/-- `BSP_STACK_SIZE`. -/
def bspStackSize : ℕ := 16384

/-- `AP_STACK_SIZE`. -/
def apStackSize : ℕ := 2048

/-- `STACKS_SIZE`. -/
def stacksSize : ℕ := bspStackSize + 511 * apStackSize

/-- `LOCALS_SIZE`. -/
def localsSize : ℕ := 16

def load64 (mem : Memory) (addr : BitVec 64) : BitVec 64 := BitVec.ofNat 64 (Cells.load mem 8 addr)

def store64 (mem : Memory) (addr value : BitVec 64) : Memory := Cells.store mem 8 addr value.toNat

/-- `memmove` and `memcpy`. -/
def memmove (mem : Memory) (dst src : BitVec 64) (n : ℕ) : Memory := fun addr =>
  if (addr - dst).toNat < n then mem (src + (addr - dst)) else mem addr

/-- The loop of `get_dynamic_info`, with so many entries left: each tag below `DT_NUM` has its
last entry noted, until the tag 0. A tag below 0 would be an index in front of the array, which is
`none` here, as is a table that does not end. -/
def scanDynamic (mem : Memory) : ℕ → BitVec 64 → DynInfo → Option DynInfo
  | 0, _, _ => none
  | left + 1, dyn, info =>
      let tag := load64 mem dyn
      if tag = 0 then some info
      else if tag.toInt < dtNum then
        if tag.toInt < 0 then none
        else scanDynamic mem left (dyn + dynSize) (Function.update info tag.toNat (some dyn))
      else scanDynamic mem left (dyn + dynSize) info

/-- `d_un` of an `Elf64_Dyn`. -/
def dUn (mem : Memory) (dyn : BitVec 64) : BitVec 64 := load64 mem (dyn + 8)

/-- What `get_dynamic_info` does with `DT_RELA`, with its assertion: the address of the
relocations is raised by the load offset in the table itself, and the entries must have the size
of an `Elf64_Rela`. Without a `DT_RELA` there is nothing to do. -/
def adjustRela (mem : Memory) (loadOffs : BitVec 64) (info : DynInfo) : Option Memory :=
  match info dtRela with
  | none => some mem
  | some rela =>
      match info dtRelaent with
      | none => none
      | some relaent =>
          if dUn mem relaent = relaSize then some (store64 mem (rela + 8) (dUn mem rela + loadOffs))
          else none

/-- The assertion of `get_dynamic_info` for `DT_PLTREL`. -/
def checkPltrel (mem : Memory) (info : DynInfo) : Bool :=
  match info dtPltrel with
  | none => true
  | some pltrel => dUn mem pltrel = dtRela

/-- What `get_dynamic_info` does with `DT_JMPREL`. -/
def adjustJmprel (mem : Memory) (loadOffs : BitVec 64) (info : DynInfo) : Memory :=
  match info dtJmprel with
  | none => mem
  | some jmprel => store64 mem (jmprel + 8) (dUn mem jmprel + loadOffs)

/-- `get_dynamic_info`; `none` where it fails an assertion or does not end. -/
def getDynamicInfo (mem : Memory) (dynSection loadOffs : BitVec 64) : Option (DynInfo × Memory) :=
  (scanDynamic mem maxSteps dynSection fun _ => none).bind fun info =>
    (adjustRela mem loadOffs info).bind fun mem =>
      if checkPltrel mem info then some (info, adjustJmprel mem loadOffs info) else none

/-- `ELF64_R_TYPE` is that of a relative relocation. -/
def isRelative (info : BitVec 64) : Bool :=
  let type := info &&& 0xffffffff
  type = 8 || type = 3 || type = 1027

/-- `ELF64_R_TYPE` is that of no relocation. -/
def isNone (info : BitVec 64) : Bool := info &&& 0xffffffff = 0

/-- `do_relocation`. A relative relocation is set from its addend when the program is relocated
for the first time, which is when the offset is the load address itself. Later on the word already
has a value, and is moved by the offset. Any other kind of relocation but `NONE` is not supported.
-/
def doRelocation (loadAddr loadOffs : BitVec 64) (mem : Memory) (rel : BitVec 64) :
    Option Memory :=
  let target := loadAddr + load64 mem rel
  let info := load64 mem (rel + 8)
  if isRelative info then
    if loadOffs = loadAddr then some (store64 mem target (loadAddr + load64 mem (rel + 16)))
    else some (store64 mem target (load64 mem target + loadOffs))
  else if isNone info then some mem
  else none

/-- The loop of `do_relocations`. -/
def relocationLoop (loadAddr loadOffs relEnd : BitVec 64) : ℕ → BitVec 64 → Memory → Option Memory
  | 0, _, _ => none
  | left + 1, rel, mem =>
      if rel < relEnd then
        (doRelocation loadAddr loadOffs mem rel).bind
          (relocationLoop loadAddr loadOffs relEnd left (rel + relaSize))
      else some mem

/-- `do_relocations`. -/
def doRelocations (loadAddr loadOffs relAddr relSize : BitVec 64) (mem : Memory) : Option Memory :=
  relocationLoop loadAddr loadOffs (relAddr + relSize) maxSteps relAddr mem

/-- The relocations of the PLT in `reloc`. -/
def relocPlt (loadAddr loadOffs : BitVec 64) (info : DynInfo) (mem : Memory) : Option Memory :=
  match info dtPltrel with
  | none => some mem
  | some pltrel =>
      if dUn mem pltrel = dtRela then
        (info dtJmprel).bind fun jmprel => (info dtPltrelsz).bind fun pltrelsz =>
          doRelocations loadAddr loadOffs (dUn mem jmprel) (dUn mem pltrelsz) mem
      else some mem

namespace Layout

variable (img : Layout)

/-- `get_dynamic_section_offset`. -/
def getDynamicSectionOffset (mem : Memory) (loadAddr : BitVec 64) : BitVec 64 :=
  if img.aarch64 then img.dynamic else load64 mem (loadAddr + img.got)

/-- `reloc`, for the address at which the program runs; `none` where it fails an assertion, follows
a null pointer, or does not end. -/
def reloc (loadAddr : BitVec 64) (mem : Memory) : Option Memory :=
  let lastLoadAddr := load64 mem (loadAddr + img.lastLoadAddr)
  let loadOffs := loadAddr - lastLoadAddr
  if loadAddr = lastLoadAddr then some mem
  else
    let mem := store64 mem (loadAddr + img.lastLoadAddr) loadAddr
    let dynSection := loadAddr + img.getDynamicSectionOffset mem loadAddr
    (getDynamicInfo mem dynSection loadOffs).bind fun (info, mem) =>
      (info dtRela).bind fun rela => (info dtRelasz).bind fun relasz =>
        (doRelocations loadAddr loadOffs (dUn mem rela) (dUn mem relasz) mem).bind
          (relocPlt loadAddr loadOffs info)

/-- What `run_at` copies: the image, and the thread-local storage of each CPU. -/
def runAt (numAvailableCpus : ℕ) (addr start : BitVec 64) (mem : Memory) : Memory :=
  (List.range numAvailableCpus).foldl (fun mem cpuNum =>
    let localsOffset : BitVec 64 :=
      ((img.size + bspStackSize - localsSize + apStackSize * cpuNum : ℕ) : BitVec 64)
    memmove mem (addr + localsOffset) (start + localsOffset) localsSize)
    (memmove mem addr start img.size)

end Layout

/-! ### The image -/

/-- An `Elf64_Rela`. -/
structure Rela where
  offset : BitVec 64
  info : BitVec 64
  addend : BitVec 64
  deriving DecidableEq, Repr

/-- An `Elf64_Dyn`. -/
structure Dyn where
  tag : BitVec 64
  val : BitVec 64
  deriving DecidableEq, Repr

/-- A program as it has been linked: the dynamic section up to `DT_NULL`, and the two tables of
relocations with their places. -/
structure Image extends Layout where
  dyn : List Dyn
  relaAt : ℕ
  rela : List Rela
  pltAt : ℕ
  plt : List Rela
  deriving DecidableEq, Repr

/-- Two regions have no byte in common. -/
def Disj (a n b m : ℕ) : Prop := a + n ≤ b ∨ b + m ≤ a

instance (a n b m : ℕ) : Decidable (Disj a n b m) :=
  inferInstanceAs (Decidable (a + n ≤ b ∨ b + m ≤ a))

/-- The last place of each tag in a dynamic section. -/
def indexFrom : List Dyn → ℕ → (ℕ → Option ℕ) → ℕ → Option ℕ
  | [], _, index => index
  | d :: ds, i, index =>
      indexFrom ds (i + 1)
        (if d.tag.toInt < dtNum then Function.update index d.tag.toNat (some i) else index)

/-- The number at an offset in an image. -/
def word (mem : Memory) (loadAddr : BitVec 64) (offset : ℕ) : BitVec 64 :=
  load64 mem (loadAddr + offset)

/-- The entries of a table are in memory. -/
def TableAt (mem : Memory) (loadAddr : BitVec 64) (place : ℕ) (entries : List Rela) : Prop :=
  ∀ i e, entries[i]? = some e →
    word mem loadAddr (place + relaSize * i) = e.offset ∧
      word mem loadAddr (place + relaSize * i + 8) = e.info ∧
      word mem loadAddr (place + relaSize * i + 16) = e.addend

namespace Image

variable (img : Image)

/-- All relocations. -/
def relocs : List Rela := img.rela ++ img.plt

/-- The offsets of the pointers that are adjusted. -/
def slots : List ℕ := (img.relocs.filter fun e => isRelative e.info).map fun e => e.offset.toNat

/-- The place of a tag in the dynamic section. -/
def dynIndex (tag : ℕ) : Option ℕ := indexFrom img.dyn 0 (fun _ => none) tag

/-- The value of a tag, as it has been linked. -/
def dynVal (tag : ℕ) : Option (BitVec 64) :=
  (img.dynIndex tag).bind fun i => img.dyn[i]?.map Dyn.val

/-- The size of the dynamic section. -/
def dynamicSize : ℕ := dynSize * (img.dyn.length + 1)

/-- The regions that `reloc` reads but does not change. -/
def readOnly : List (ℕ × ℕ) :=
  [(img.got, if img.aarch64 then 0 else 8), (img.relaAt, relaSize * img.rela.length),
    (img.pltAt, relaSize * img.plt.length)]

/-- What `reloc` relies on. -/
def metadata : List (ℕ × ℕ) :=
  (img.lastLoadAddr, 8) :: (img.dynamic, img.dynamicSize) :: img.readOnly

/-- The dynamic section describes the tables, whose entries are relative relocations with distinct
slots, or none. Nothing that `reloc` changes lies in what else it relies on, and all is inside the
image. -/
structure WellFormed : Prop where
  tags : ∀ d ∈ img.dyn, 0 < d.tag.toInt
  rela : img.dynVal dtRela = some (img.relaAt : BitVec 64)
  relasz : img.dynVal dtRelasz = some ((relaSize * img.rela.length : ℕ) : BitVec 64)
  relaent : img.dynVal dtRelaent = some (relaSize : BitVec 64)
  plt : img.dynIndex dtPltrel = none ∧ img.plt = [] ∨
    img.dynVal dtPltrel = some (dtRela : BitVec 64) ∧
      img.dynVal dtJmprel = some (img.pltAt : BitVec 64) ∧
      img.dynVal dtPltrelsz = some ((relaSize * img.plt.length : ℕ) : BitVec 64)
  types : ∀ e ∈ img.relocs, isRelative e.info ∨ isNone e.info
  distinct : img.slots.Pairwise fun o o' => Disj o 8 o' 8
  slots_metadata : ∀ o ∈ img.slots, ∀ r ∈ img.metadata, Disj o 8 r.1 r.2
  readOnly : ∀ r ∈ img.readOnly,
    Disj img.lastLoadAddr 8 r.1 r.2 ∧ Disj img.dynamic img.dynamicSize r.1 r.2
  dynamic : Disj img.lastLoadAddr 8 img.dynamic img.dynamicSize
  inside : ∀ r ∈ img.metadata, r.1 + r.2 ≤ img.size
  slots_inside : ∀ o ∈ img.slots, o + 8 ≤ img.size

/-- What is added to a value in the dynamic section, if it is the address of a table. -/
def adjustment (relaBase pltBase : BitVec 64) (i : ℕ) : BitVec 64 :=
  (if img.dynIndex dtRela = some i then relaBase else 0) +
    if img.dynIndex dtJmprel = some i then pltBase else 0

/-- The dynamic section and the tables are in memory, with other bases for the addresses of the two
tables. -/
structure Intact (mem : Memory) (loadAddr relaBase pltBase : BitVec 64) : Prop where
  got : img.aarch64 = false → word mem loadAddr img.got = img.dynamic
  tags : ∀ i d, img.dyn[i]? = some d → word mem loadAddr (img.dynamic + dynSize * i) = d.tag
  vals : ∀ i d, img.dyn[i]? = some d → word mem loadAddr (img.dynamic + dynSize * i + 8) =
    d.val + img.adjustment relaBase pltBase i
  null : word mem loadAddr (img.dynamic + dynSize * img.dyn.length) = 0
  rela : TableAt mem loadAddr img.relaAt img.rela
  plt : TableAt mem loadAddr img.pltAt img.plt

/-- The image is in memory, with the addresses of the tables as they are at a base. -/
structure BasedAt (mem : Memory) (loadAddr base : BitVec 64) : Prop where
  last : word mem loadAddr img.lastLoadAddr = base
  intact : img.Intact mem loadAddr base base

/-- The image with its stacks has room at an address, which is not 0. -/
structure HasRoom (loadAddr : BitVec 64) : Prop where
  ne_zero : loadAddr ≠ 0
  room : loadAddr.toNat + img.size + stacksSize ≤ 2 ^ 64

/-- The pointers are those to their targets in the image. -/
def PointersTo (targets : BitVec 64 → BitVec 64) (mem : Memory) (loadAddr : BitVec 64) : Prop :=
  ∀ e ∈ img.relocs, isRelative e.info →
    load64 mem (loadAddr + e.offset) = targets e.offset + loadAddr

end Image

/-- The machine between the runs of `reloc`: its memory, where the program runs, and the targets of
the pointers, relative to the beginning of the image. -/
structure Machine where
  mem : Memory
  loadAddr : BitVec 64
  targets : BitVec 64 → BitVec 64

/-- The states that are reached: `reloc` runs after the program has been loaded, after it has been
copied to another address by `run_at`, and again. In between, the program changes whatever it
likes, but not what `reloc` relies on, and the pointers only to others into the image. The
`targets` of a state are the offsets that the pointers stand for. -/
inductive Reachable (img : Image) : Machine → Prop
  | boot {loadAddr : BitVec 64} {mem mem' : Memory} {targets : BitVec 64 → BitVec 64} :
      img.HasRoom loadAddr → img.BasedAt mem loadAddr 0 →
      (∀ e ∈ img.relocs, isRelative e.info → targets e.offset = e.addend) →
      img.reloc loadAddr mem = some mem' → Reachable img ⟨mem', loadAddr, targets⟩
  | again {s : Machine} {mem' : Memory} : Reachable img s →
      img.reloc s.loadAddr s.mem = some mem' → Reachable img { s with mem := mem' }
  | program {s : Machine} {mem' : Memory} {targets' : BitVec 64 → BitVec 64} : Reachable img s →
      (∀ r ∈ img.metadata, ∀ o, r.1 ≤ o → o < r.1 + r.2 →
        mem' (s.loadAddr + (o : BitVec 64)) = s.mem (s.loadAddr + (o : BitVec 64))) →
      img.PointersTo targets' mem' s.loadAddr →
      (∀ e ∈ img.relocs, isRelative e.info →
        targets' e.offset = s.targets e.offset ∨ (targets' e.offset).toNat < img.size) →
      Reachable img ⟨mem', s.loadAddr, targets'⟩
  | move {s : Machine} {loadAddr : BitVec 64} {mem' : Memory} {numAvailableCpus : ℕ} :
      Reachable img s → img.HasRoom loadAddr → numAvailableCpus ≤ maxCpus →
      img.reloc loadAddr (img.runAt numAvailableCpus loadAddr s.loadAddr s.mem) = some mem' →
      Reachable img ⟨mem', loadAddr, s.targets⟩

/-- `reloc` has left the image as it is to be: each pointer is that to its target at the address
where the image is, and the tables are found from there. -/
structure Relocated (img : Image) (s : Machine) : Prop where
  slots : img.PointersTo s.targets s.mem s.loadAddr
  tables : img.BasedAt s.mem s.loadAddr s.loadAddr

end Reloc

end Memtest
