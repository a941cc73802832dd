import OS161.AddressSpace
import OS161.CopyInOut

/-!
# Loading an executable

`load_elf` reads the header of the file, goes through the program headers once
to define the regions and once more to load the segments, and reports the first
thing that is wrong. What the reads of the file return is supplied, with each
read on its own: a read that has succeeded once may fail the next time.
-/

set_option autoImplicit false

namespace OS161.LoadElf

open Function OS161.Vfs OS161.CopyInOut OS161.AddressSpace OS161.PhysicalMemory

/-- The fields of `Elf_Ehdr` that are looked at. -/
structure Ehdr where
  ident : List ℕ
  etype : ℕ
  machine : ℕ
  version : ℕ
  entry : ℕ
  phoff : ℕ
  phentsize : ℕ
  phnum : ℕ

/-- The fields of `Elf_Phdr` that are looked at. -/
structure Phdr where
  ptype : ℕ
  offset : ℕ
  vaddr : ℕ
  filesz : ℕ
  memsz : ℕ

def PT_NULL : ℕ := 0
def PT_LOAD : ℕ := 1
def PT_PHDR : ℕ := 6
def PT_MIPS_REGINFO : ℕ := 0x70000000

/-- The answers of `VOP_READ`. A header that is cut short is `none`; of a segment
they are the bytes that are transferred and the error that comes after them.
`loading` tells the two passes over the program headers apart. -/
structure Image where
  ehdr : Except Vfs.Errno (Option Ehdr)
  phdr : (loading : Bool) → (offset : ℕ) → Except Vfs.Errno (Option Phdr)
  segment : (offset filesize : ℕ) → List UInt8 × Option Vfs.Errno

/-- An address space and what a process that has it reads at each address. -/
structure Space where
  regions : AddrSpace
  mem : UserMemory

/-- `as_create`. -/
def asCreate : Space := ⟨emptySpace, fun _ => none⟩

/-- The machine-independent names of the errors of `dumbvm.c`. -/
def errno : AddressSpace.Errno → Vfs.Errno
  | .ENOMEM => .enomem
  | .ENOSYS => .enosys
  | .EFAULT => .efault

/-- What `load_elf` accepts: magic number, 32 bits, big-endian, version, type and machine. -/
def Ehdr.valid (eh : Ehdr) : Bool :=
  eh.ident.take 7 == [0x7f, 0x45, 0x4c, 0x46, 1, 2, 1] && eh.version == 1 && eh.etype == 2 && eh.machine == 8

def Ehdr.phdrOffset (eh : Ehdr) (i : ℕ) : ℕ := (eh.phoff + i * eh.phentsize) % 2^32

/-- One program header: skipped, to be loaded, or an error. -/
def readPhdr (image : Image) (loading : Bool) (offset : ℕ) : Except Vfs.Errno (Option Phdr) :=
  match image.phdr loading offset with
  | .error e => .error e
  | .ok none => .error .enoexec
  | .ok (some ph) =>
    if ph.ptype = PT_NULL ∨ ph.ptype = PT_PHDR ∨ ph.ptype = PT_MIPS_REGINFO then .ok none
    else if ph.ptype = PT_LOAD then .ok (some ph)
    else .error .enoexec

/-- The first pass over the program headers. -/
def defineRegions (image : Image) (eh : Ehdr) : List ℕ → AddrSpace → Option Vfs.Errno × AddrSpace
  | [], as => (none, as)
  | i::is, as =>
    match readPhdr image false (eh.phdrOffset i) with
    | .error e => (some e, as)
    | .ok none => defineRegions image eh is as
    | .ok (some ph) =>
      match as.defineRegion ph.vaddr ph.memsz with
      | (some e, as') => (some (errno e), as')
      | (none, as') => defineRegions image eh is as'

/-- `uiomove` to a process, over the bytes that are left; `false` if it runs
into an address that is the kernel's or not mapped. -/
def moveOut : ℕ → List UInt8 → UserMemory → Bool × UserMemory
  | _, [], m => (true, m)
  | va, b::bs, m =>
    if va < USERSPACETOP ∧ m va ≠ none then moveOut (va+1) bs (update m va (some b)) else (false, m)

/-- The first access is a fault, which asserts that both regions are there. -/
def loadSegment (image : Image) (ph : Phdr) (sp : Space) : Except AddressSpace.Stop (Option Vfs.Errno × Space) :=
  let filesize := min ph.filesz ph.memsz
  let (bs, answer) := image.segment ph.offset filesize
  if bs ≠ [] ∧ ph.vaddr < USERSPACETOP ∧ ¬sp.regions.IsSetUp then .error .assertion
  else match moveOut ph.vaddr (bs.take filesize) sp.mem with
    | (false, m) => .ok (some .efault, { sp with mem := m })
    | (true, m) =>
      match answer with
      | some e => .ok (some e, { sp with mem := m })
      | none => .ok (if bs.length < filesize then some .enoexec else none, { sp with mem := m })

/-- The second pass over the program headers. -/
def loadSegments (image : Image) (eh : Ehdr) :
    List ℕ → Space → Except AddressSpace.Stop (Option Vfs.Errno × Space)
  | [], sp => .ok (none, sp)
  | i::is, sp =>
    match readPhdr image true (eh.phdrOffset i) with
    | .error e => .ok (some e, sp)
    | .ok none => loadSegments image eh is sp
    | .ok (some ph) =>
      match loadSegment image ph sp with
      | .error stop => .error stop
      | .ok (some e, sp') => .ok (some e, sp')
      | .ok (none, sp') => loadSegments image eh is sp'

/-- The memory of a space whose pages have just been cleared. -/
def cleared (as : AddrSpace) : UserMemory := fun va => (as.translate va).map (fun _ => 0)

/-- The result is the entry point or an error. The space is left as far as it has got. -/
def loadElf (image : Image) (sp : Space) (phys : Physical) :
    Except AddressSpace.Stop (Except Vfs.Errno ℕ × Space × Physical) :=
  match image.ehdr with
  | .error e => .ok (.error e, sp, phys)
  | .ok none => .ok (.error .enoexec, sp, phys)
  | .ok (some eh) =>
    if !eh.valid then .ok (.error .enoexec, sp, phys)
    else match defineRegions image eh (List.range eh.phnum) sp.regions with
      | (some e, as) => .ok (.error e, { sp with regions := as }, phys)
      | (none, as) =>
        match as.prepareLoad phys with
        | .error stop => .error stop
        | .ok (some e, as', phys') => .ok (.error (errno e), { sp with regions := as' }, phys')
        | .ok (none, as', phys') =>
          match loadSegments image eh (List.range eh.phnum) ⟨as', cleared as'⟩ with
          | .error stop => .error stop
          | .ok (some e, sp') => .ok (.error e, sp', phys')
          | .ok (none, sp') => .ok (.ok eh.entry, sp', phys')

end OS161.LoadElf
