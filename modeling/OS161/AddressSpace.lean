import OS161.PhysicalMemory
import OS161.Runs

/-!
# Address spaces

An address space of `dumbvm.c` is two regions and a stack, each of them
contiguous in physical memory. `as_define_region` rounds a region to pages in
32 bits; `as_prepare_load` takes its memory from `ram_stealmem` and clears it;
`vm_fault` translates an address and enters the result into the TLB of its CPU,
which `as_activate` empties. Calls are taken one after the other. What lies
outside of RAM cannot be cleared: the machine stops.
-/

set_option autoImplicit false

namespace OS161.AddressSpace

open Function PhysicalMemory Regions

def stackPages : ℕ := 18

def userstack : ℕ := kseg0

def numTlb : ℕ := 64

structure AddrSpace where
  vbase1 : ℕ
  pbase1 : ℕ
  npages1 : ℕ
  vbase2 : ℕ
  pbase2 : ℕ
  npages2 : ℕ
  stackpbase : ℕ
deriving DecidableEq

/-- `as_create` -/
def emptySpace : AddrSpace := ⟨0, 0, 0, 0, 0, 0, 0⟩

inductive Errno where
  | ENOMEM
  | ENOSYS
  | EFAULT
deriving DecidableEq

/-- Why a step is not taken or the machine stops. -/
inductive Stop where
  | notReady
  | assertion
  | busError
deriving DecidableEq

/-- The number of pages of a region, after its base and its length have been aligned. -/
def regionPages (vaddr sz : ℕ) : ℕ :=
  let sz := (sz + vaddr % pageSize) % 2 ^ 32
  let sz := (sz + pageSize - 1) % 2 ^ 32 / pageSize * pageSize
  sz / pageSize

def AddrSpace.defineRegion (as : AddrSpace) (vaddr sz : ℕ) : Option Errno × AddrSpace :=
  let npages := regionPages vaddr sz
  let vaddr := vaddr / pageSize * pageSize
  if as.vbase1 = 0 then (none, { as with vbase1 := vaddr, npages1 := npages })
  else if as.vbase2 = 0 then (none, { as with vbase2 := vaddr, npages2 := npages })
  else (some .ENOSYS, as)

/-- The part of memory that an address space can use: RAM, its bytes and where it ends. -/
structure Physical where
  ram : Ram
  mem : ℕ → ℕ

/-- `as_zero_region`; the memory that is cleared has to be there. -/
def Physical.zeroRegion (m : Physical) (paddr npages : ℕ) : Except Stop Physical :=
  if paddr + npages * pageSize ≤ m.ram.lastpaddr then
    .ok { m with mem := fun x => if paddr ≤ x ∧ x < paddr + npages * pageSize then 0 else m.mem x }
  else .error .busError

/-- The second half of `as_prepare_load`, which clears the memory that has been got. -/
def AddrSpace.clear (as : AddrSpace) (m : Physical) : Except Stop (Option Errno × AddrSpace × Physical) :=
  match m.zeroRegion as.pbase1 as.npages1 with
  | .error e => .error e
  | .ok m => match m.zeroRegion as.pbase2 as.npages2 with
    | .error e => .error e
    | .ok m => match m.zeroRegion as.stackpbase stackPages with
      | .error e => .error e
      | .ok m => .ok (none, as, m)

/-- `as_prepare_load` from `as_stackpbase` on. -/
def AddrSpace.prepareStack (as : AddrSpace) (m : Physical) : Except Stop (Option Errno × AddrSpace × Physical) :=
  let (pa, ram) := m.ram.stealmem stackPages
  let as := { as with stackpbase := pa }
  let m := { m with ram := ram }
  if pa = 0 then .ok (some .ENOMEM, as, m) else as.clear m

/-- `as_prepare_load` from `as_pbase2` on. -/
def AddrSpace.prepareSecond (as : AddrSpace) (m : Physical) : Except Stop (Option Errno × AddrSpace × Physical) :=
  let (pa, ram) := m.ram.stealmem as.npages2
  let as := { as with pbase2 := pa }
  let m := { m with ram := ram }
  if pa = 0 then .ok (some .ENOMEM, as, m) else as.prepareStack m

def AddrSpace.prepareLoad (as : AddrSpace) (m : Physical) : Except Stop (Option Errno × AddrSpace × Physical) :=
  if as.pbase1 = 0 ∧ as.pbase2 = 0 ∧ as.stackpbase = 0 then
    let (pa, ram) := m.ram.stealmem as.npages1
    let as := { as with pbase1 := pa }
    let m := { m with ram := ram }
    if pa = 0 then .ok (some .ENOMEM, as, m) else as.prepareSecond m
  else .error .assertion

/-- `memmove`, from one place in memory to another. -/
def memmove (mem : ℕ → ℕ) (dst src len : ℕ) : ℕ → ℕ :=
  fun x => if dst ≤ x ∧ x < dst + len then mem (src + (x - dst)) else mem x

/-- `as_copy`; without a copy if there is not enough memory, and the memory got by then is lost. -/
def AddrSpace.copy (old : AddrSpace) (m : Physical) : Except Stop (Option AddrSpace × Physical) :=
  let new := { emptySpace with
    vbase1 := old.vbase1
    npages1 := old.npages1
    vbase2 := old.vbase2
    npages2 := old.npages2 }
  match new.prepareLoad m with
  | .error e => .error e
  | .ok (some _, _, m) => .ok (none, m)
  | .ok (none, new, m) =>
    let mem := memmove m.mem new.pbase1 old.pbase1 (old.npages1 * pageSize)
    let mem := memmove mem new.pbase2 old.pbase2 (old.npages2 * pageSize)
    let mem := memmove mem new.stackpbase old.stackpbase (stackPages * pageSize)
    .ok (some new, { m with mem := mem })

/-- Whether `vm_fault` finds the address space set up properly. -/
def AddrSpace.IsSetUp (as : AddrSpace) : Prop :=
  as.vbase1 ≠ 0 ∧ as.pbase1 ≠ 0 ∧ as.npages1 ≠ 0 ∧ as.vbase2 ≠ 0 ∧ as.pbase2 ≠ 0 ∧ as.npages2 ≠ 0 ∧
    as.stackpbase ≠ 0 ∧ as.vbase1 % pageSize = 0 ∧ as.pbase1 % pageSize = 0 ∧ as.vbase2 % pageSize = 0 ∧
    as.pbase2 % pageSize = 0 ∧ as.stackpbase % pageSize = 0

instance decidableIsSetUp (as : AddrSpace) : Decidable as.IsSetUp :=
  inferInstanceAs (Decidable (as.vbase1 ≠ 0 ∧ as.pbase1 ≠ 0 ∧ as.npages1 ≠ 0 ∧ as.vbase2 ≠ 0 ∧ as.pbase2 ≠ 0 ∧
    as.npages2 ≠ 0 ∧ as.stackpbase ≠ 0 ∧ as.vbase1 % pageSize = 0 ∧ as.pbase1 % pageSize = 0 ∧
    as.vbase2 % pageSize = 0 ∧ as.pbase2 % pageSize = 0 ∧ as.stackpbase % pageSize = 0))

/-- Where a page of a region that starts at `vbase` is, in 32 bits. -/
def inRegion (vbase npages pbase faultaddress : ℕ) : Option ℕ :=
  if vbase ≤ faultaddress ∧ faultaddress < (vbase + npages * pageSize) % 2 ^ 32 then
    some ((faultaddress - vbase + pbase) % 2 ^ 32)
  else none

/-- The frame that `vm_fault` finds for the page of an address, if any. -/
def AddrSpace.translate (as : AddrSpace) (faultaddress : ℕ) : Option ℕ :=
  let page := faultaddress / pageSize * pageSize
  let stackbase := userstack - stackPages * pageSize
  match inRegion as.vbase1 as.npages1 as.pbase1 page with
  | some paddr => some paddr
  | none => match inRegion as.vbase2 as.npages2 as.pbase2 page with
    | some paddr => some paddr
    | none => if stackbase ≤ page ∧ page < userstack then some ((page - stackbase + as.stackpbase) % 2 ^ 32) else none

/-- Entries of the TLB of a CPU: a page and its frame. -/
abbrev Tlb := List (ℕ × ℕ)

def Tlb.lookup (tlb : Tlb) (page : ℕ) : Option ℕ :=
  (tlb.find? (fun e => decide (e.1 = page))).map Prod.snd

/--
The machine: `spaces` are the address spaces that have been created and not
destroyed, `kernel` the memory of `alloc_kpages`, in physical addresses.
-/
structure Machine (A C : Type*) where
  phys : Physical
  spaces : A → Option AddrSpace
  kernel : ℕ → ℕ × ℕ
  nkernel : ℕ
  current : C → Option A
  tlb : C → Tlb

inductive Act (A C : Type*) where
  | create (a : A)
  | defineRegion (a : A) (vaddr sz : ℕ)
  | prepareLoad (a : A)
  | copy (old new : A)
  | destroy (a : A)
  | allocKpages (npages : ℕ)
  | kernelStore (k offset v : ℕ)
  | activate (c : C) (o : Option A)
  | fault (c : C) (va : ℕ)
  | store (c : C) (va v : ℕ)

variable {A C : Type*} [DecidableEq A] [DecidableEq C]

def Machine.withSpace (s : Machine A C) (a : A) (f : AddrSpace → Except Stop (Machine A C)) :
    Except Stop (Machine A C) :=
  match s.spaces a with
  | some as => f as
  | none => .error .notReady

def Machine.create (s : Machine A C) (a : A) : Except Stop (Machine A C) :=
  if s.spaces a = none then .ok { s with spaces := update s.spaces a (some emptySpace) } else .error .notReady

def Machine.prepareLoad (s : Machine A C) (a : A) (as : AddrSpace) : Except Stop (Machine A C) :=
  match as.prepareLoad s.phys with
  | .error e => .error e
  | .ok (_, as, m) => .ok { s with phys := m, spaces := update s.spaces a (some as) }

def Machine.copy (s : Machine A C) (new : A) (old : AddrSpace) : Except Stop (Machine A C) :=
  if s.spaces new = none then
    match old.copy s.phys with
    | .error e => .error e
    | .ok (as, m) => .ok { s with phys := m, spaces := update s.spaces new as }
  else .error .notReady

/-- A successful call is recorded; a refused one returns 0. -/
def Machine.allocKpages (s : Machine A C) (npages : ℕ) : Machine A C :=
  let (pa, ram) := s.phys.ram.stealmem npages
  if pa = 0 then { s with phys := { s.phys with ram := ram } }
  else { s with
    phys := { s.phys with ram := ram }
    kernel := update s.kernel s.nkernel (pa, npages * pageSize)
    nkernel := s.nkernel + 1 }

/-- The kernel writes to memory it has allocated. -/
def Machine.kernelStore (s : Machine A C) (k offset v : ℕ) : Except Stop (Machine A C) :=
  if offset < (s.kernel k).2 then
    .ok { s with phys := { s.phys with mem := update s.phys.mem ((s.kernel k).1 + offset) v } }
  else .error .notReady

/-- A process comes to run on a CPU, or a thread of the kernel that has no address space. -/
def Machine.activate (s : Machine A C) (c : C) : Option A → Except Stop (Machine A C)
  | none => .ok { s with current := update s.current c none }
  | some a => s.withSpace a (fun _ =>
    .ok { s with current := update s.current c (some a), tlb := update s.tlb c [] })

/-- `vm_fault`; what cannot be mapped is an error of the process. -/
def Machine.fault (s : Machine A C) (c : C) (va : ℕ) : Except Stop (Machine A C) :=
  match s.current c with
  | none => .ok s
  | some a => s.withSpace a (fun as =>
    if as.IsSetUp then
      match as.translate va with
      | none => .ok s
      | some paddr =>
        if paddr % pageSize = 0 then
          if (s.tlb c).length < numTlb then
            .ok { s with tlb := update s.tlb c ((va / pageSize * pageSize, paddr)::s.tlb c) }
          else .ok s
        else .error .assertion
    else .error .assertion)

/-- A process stores to an address whose page is in the TLB. -/
def Machine.store (s : Machine A C) (c : C) (va v : ℕ) : Except Stop (Machine A C) :=
  match s.current c, (s.tlb c).lookup (va / pageSize * pageSize) with
  | some _, some paddr => .ok { s with phys := { s.phys with mem := update s.phys.mem (paddr + va % pageSize) v } }
  | _, _ => .error .notReady

def step : Act A C → Machine A C → Except Stop (Machine A C)
  | .create a, s => s.create a
  | .defineRegion a vaddr sz, s => s.withSpace a (fun as =>
    .ok { s with spaces := update s.spaces a (some (as.defineRegion vaddr sz).2) })
  | .prepareLoad a, s => s.withSpace a (s.prepareLoad a)
  | .copy old new, s => s.withSpace old (s.copy new)
  | .destroy a, s => s.withSpace a (fun _ => .ok { s with spaces := update s.spaces a none })
  | .allocKpages npages, s => .ok (s.allocKpages npages)
  | .kernelStore k offset v, s => s.kernelStore k offset v
  | .activate c o, s => s.activate c o
  | .fault c va, s => s.fault c va
  | .store c va v, s => s.store c va v

/-- What a process that has the address space reads at an address, once the page is mapped. -/
def Machine.view (s : Machine A C) (a : A) (va : ℕ) : Option ℕ :=
  match s.spaces a with
  | none => none
  | some as => if as.IsSetUp then (as.translate va).map (fun paddr => s.phys.mem (paddr + va % pageSize)) else none

end OS161.AddressSpace
