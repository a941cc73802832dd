import OS161.LoadElf

/-!
# Faults after an executable is loaded

`vm_fault` asserts that both regions of an address space and its stack have been
set up. `load_elf` does not see to that: it takes what `as_define_region` makes of
the program headers, of which there may be one, or none, or some whose sizes wrap
around when they are rounded to pages.
-/

set_option autoImplicit false

namespace OS161.LoadElf

open Function OS161.Vfs OS161.CopyInOut OS161.AddressSpace OS161.PhysicalMemory

/-- What a pass over the program headers finds, up to the first that is an error. -/
def script (image : Image) (loading : Bool) (eh : Ehdr) : List ℕ → List (Except Vfs.Errno Phdr)
  | [] => []
  | i::is =>
    match readPhdr image loading (eh.phdrOffset i) with
    | .error e => [.error e]
    | .ok none => script image loading eh is
    | .ok (some ph) => .ok ph :: script image loading eh is

def headers (image : Image) (loading : Bool) (eh : Ehdr) : List (Except Vfs.Errno Phdr) :=
  script image loading eh (List.range eh.phnum)

/-- The bytes of a segment that are in the file. -/
def Phdr.filesize (ph : Phdr) : ℕ := min ph.filesz ph.memsz

/-- A size stays the same number when it is rounded to pages. -/
def Phdr.NoWrap (ph : Phdr) : Prop := ph.vaddr % pageSize + ph.memsz + (pageSize-1) < 2^32

def Inside (vbase npages va : ℕ) : Prop := vbase ≤ va ∧ va < vbase + npages * pageSize

/-- In one of the regions that have been defined. -/
def InRegions (as : AddrSpace) (va : ℕ) : Prop := Inside as.vbase1 as.npages1 va ∨ Inside as.vbase2 as.npages2 va

/-- No assertion of `vm_fault` fails, wherever the fault is. -/
def Faultless (as : AddrSpace) : Prop := as.IsSetUp ∧ ∀ va paddr, as.translate va = some paddr → paddr % pageSize = 0

/-- An error, or an address space without faults and with all that is written in its regions. -/
def Right (image : Image) : Except AddressSpace.Stop (Except Vfs.Errno ℕ × Space × Physical) → Prop
  | .error _ => False
  | .ok (.error _, _, _) => True
  | .ok (.ok _, sp, _) => Faultless sp.regions ∧ ∀ eh, image.ehdr = .ok (some eh) →
      (∀ ph, .ok ph ∈ headers image false eh → ph.NoWrap) ∧
      ∀ ph, .ok ph ∈ headers image true eh →
        ∀ va, ph.vaddr ≤ va → va < ph.vaddr + ph.filesize → InRegions sp.regions va

/-- The file does not change between the passes; a read may fail. -/
def Fixed (image : Image) : Prop :=
  ∀ offset x y, image.phdr false offset = .ok x → image.phdr true offset = .ok y → x = y

/-- The address space with the memory that `as_prepare_load` asks for. -/
def frames (as : AddrSpace) (ram : Ram) : AddrSpace :=
  let (pa1, ram1) := ram.stealmem as.npages1
  let (pa2, ram2) := ram1.stealmem as.npages2
  { as with pbase1 := pa1, pbase2 := pa2, stackpbase := (ram2.stealmem stackPages).1 }

/-- Some of it is refused. -/
def Denied (as : AddrSpace) : Prop := as.pbase1 = 0 ∨ as.pbase2 = 0 ∨ as.stackpbase = 0

instance decidableDenied (as : AddrSpace) : Decidable (Denied as) :=
  inferInstanceAs (Decidable (as.pbase1 = 0 ∨ as.pbase2 = 0 ∨ as.stackpbase = 0))

/-- All of it is memory that is there. -/
def InRam (as : AddrSpace) (lastpaddr : ℕ) : Prop :=
  as.pbase1 + as.npages1 * pageSize ≤ lastpaddr ∧ as.pbase2 + as.npages2 * pageSize ≤ lastpaddr ∧
    as.stackpbase + stackPages * pageSize ≤ lastpaddr

instance decidableInRam (as : AddrSpace) (lastpaddr : ℕ) : Decidable (InRam as lastpaddr) :=
  inferInstanceAs (Decidable (as.pbase1 + as.npages1 * pageSize ≤ lastpaddr ∧
    as.pbase2 + as.npages2 * pageSize ≤ lastpaddr ∧ as.stackpbase + stackPages * pageSize ≤ lastpaddr))

/-- The segments that do not begin in the first page. -/
def highs : List (Except Vfs.Errno Phdr) → List Phdr
  | [] => []
  | .error _ :: hs => highs hs
  | .ok ph :: hs => if pageSize ≤ ph.vaddr then ph :: highs hs else highs hs

/-- Two segments that are not empty lie outside of the first page, and no size wraps around. -/
def Proper (hs : List (Except Vfs.Errno Phdr)) : Prop :=
  (highs hs).length = 2 ∧ (∀ ph ∈ highs hs, 0 < ph.vaddr % pageSize + ph.memsz) ∧ ∀ ph, .ok ph ∈ hs → ph.NoWrap

/-- The first byte of the segment is copied, and that is a fault. -/
def Touches (image : Image) (ph : Phdr) : Prop :=
  (image.segment ph.offset ph.filesize).1 ≠ [] ∧ ph.vaddr < USERSPACETOP

/-- The address space is not ready for the segment. -/
def Panics (image : Image) (as : AddrSpace) : Except Vfs.Errno Phdr → Prop
  | .error _ => False
  | .ok ph => Touches image ph ∧ ¬as.IsSetUp

/-- The segment is read as a whole, to where memory is mapped. -/
def Passes (image : Image) (as : AddrSpace) : Except Vfs.Errno Phdr → Prop
  | .error _ => False
  | .ok ph => ¬Panics image as (.ok ph) ∧ (image.segment ph.offset ph.filesize).2 = none ∧
      ph.filesize ≤ (image.segment ph.offset ph.filesize).1.length ∧
      ∀ va, ph.vaddr ≤ va → va < ph.vaddr + ph.filesize → va < USERSPACETOP ∧ as.translate va ≠ none

/-- The first header that does not pass is an error. -/
def Fails (image : Image) (as : AddrSpace) (hs : List (Except Vfs.Errno Phdr)) : Prop :=
  ∃ before h after, hs = before ++ h :: after ∧ (∀ x ∈ before, Passes image as x) ∧
    ¬Passes image as h ∧ ¬Panics image as h

variable {image : Image} {eh : Ehdr} {is : List ℕ} {hs : List (Except Vfs.Errno Phdr)} {as as' : AddrSpace}
  {ph : Phdr} {phs : List Phdr} {phys phys' : Physical} {va : ℕ} {bs : List UInt8} {m : UserMemory}

theorem moveOut_outside {x : ℕ} (hx : x < va ∨ va+bs.length ≤ x) : (moveOut va bs m).2 x = m x := by
  induction bs generalizing va m with
  | nil => rfl
  | cons b bs ih =>
    rw [List.length_cons] at hx
    unfold moveOut
    split_ifs
    · rw [ih (by omega), update_of_ne (by omega)]
    · rfl

/-- The memory of the process is where the address space says. -/
def Backed (sp : Space) : Prop := ∀ va, sp.mem va = none ↔ sp.regions.translate va = none

theorem loadSegment_panics {sp : Space} (h : Panics image sp.regions (.ok ph)) :
    loadSegment image ph sp = .error .assertion := by
  unfold loadSegment
  exact if_pos ⟨h.1.1, h.1.2, h.2⟩

theorem loadSegment_move {sp : Space} (h : ¬Panics image sp.regions (.ok ph)) :
    loadSegment image ph sp =
      match moveOut ph.vaddr ((image.segment ph.offset ph.filesize).1.take ph.filesize) sp.mem with
      | (false, m) => .ok (some .efault, { sp with mem := m })
      | (true, m) =>
        match (image.segment ph.offset ph.filesize).2 with
        | some e => .ok (some e, { sp with mem := m })
        | none => .ok (if (image.segment ph.offset ph.filesize).1.length < ph.filesize then some .enoexec else none,
            { sp with mem := m }) := by
  unfold loadSegment
  exact if_neg fun hall => h ⟨⟨hall.1, hall.2.1⟩, hall.2.2⟩

/-- Nothing is written outside of the segments. -/
theorem loadSegments_outside {sp sp' : Space} {r : Option Vfs.Errno} (is : List ℕ)
    (hload : loadSegments image eh is sp = .ok (r, sp'))
    (hout : ∀ ph, .ok ph ∈ script image true eh is → va < ph.vaddr ∨ ph.vaddr + ph.filesize ≤ va) :
    sp'.mem va = sp.mem va := by
  induction is generalizing sp with
  | nil =>
    cases hload
    rfl
  | cons i is ih =>
    unfold loadSegments at hload
    unfold script at hout
    cases hread : readPhdr image true (eh.phdrOffset i) with
    | error e =>
      simp only [hread] at hload
      cases hload
      rfl
    | ok found =>
      cases found with
      | none =>
        simp only [hread] at hload hout
        exact ih hload hout
      | some ph =>
        simp only [hread] at hload hout
        have hseg : ∀ o sp₁, loadSegment image ph sp = .ok (o, sp₁) → sp₁.mem va = sp.mem va := by
          intro o sp₁ hone
          have hlength : ((image.segment ph.offset ph.filesize).1.take ph.filesize).length ≤ ph.filesize :=
            List.length_take_le ..
          have hva := hout ph List.mem_cons_self
          have hmove : (moveOut ph.vaddr ((image.segment ph.offset ph.filesize).1.take ph.filesize) sp.mem).2 va =
              sp.mem va := moveOut_outside (by omega)
          by_cases hpanic : Panics image sp.regions (.ok ph)
          · rw [loadSegment_panics hpanic] at hone
            cases hone
          · rw [loadSegment_move hpanic] at hone
            rcases hm : moveOut ph.vaddr ((image.segment ph.offset ph.filesize).1.take ph.filesize) sp.mem with ⟨done, m⟩
            rw [hm] at hone hmove
            cases done with
            | false =>
              cases hone
              exact hmove
            | true =>
              cases hanswer : (image.segment ph.offset ph.filesize).2 <;> simp only [hanswer] at hone <;>
                cases hone <;> exact hmove
        cases hone : loadSegment image ph sp with
        | error stop => simp [hone] at hload
        | ok out =>
          obtain ⟨o, sp₁⟩ := out
          cases o with
          | some e =>
            simp only [hone] at hload
            cases hload
            exact hseg _ _ hone
          | none =>
            simp only [hone] at hload
            exact (ih hload fun ph' hmem => hout ph' (List.mem_cons_of_mem _ hmem)).trans (hseg _ _ hone)

section Machine

variable {A C : Type*} [DecidableEq A] [DecidableEq C] {s : Machine A C} {c : C} {a : A}

omit [DecidableEq A] in
theorem fault_goes_on (h : Faultless as) (hc : s.current c = some a) (hs : s.spaces a = some as) (va : ℕ) :
    ∃ s', s.fault c va = .ok s' ∧ s'.current = s.current ∧ s'.spaces = s.spaces := by
  simp only [Machine.fault, Machine.withSpace, hc, hs, if_pos h.1]
  cases hva : as.translate va with
  | none => exact ⟨s, rfl, rfl, rfl⟩
  | some paddr =>
    simp only [if_pos (h.2 va paddr hva)]
    split_ifs
    · exact ⟨_, rfl, rfl, rfl⟩
    · exact ⟨s, rfl, rfl, rfl⟩

/-- The first fault and every later one. -/
theorem faults_go_on (h : Faultless as) (hc : s.current c = some a) (hs : s.spaces a = some as) (vas : List ℕ) :
    ∃ s', Runs.run step (vas.map (Act.fault c)) s = .ok s' ∧ s'.spaces a = some as := by
  induction vas generalizing s with
  | nil => exact ⟨s, rfl, hs⟩
  | cons va vas ih =>
    obtain ⟨s₁, hfault, hcurrent, hspaces⟩ := fault_goes_on h hc hs va
    obtain ⟨s', hrun, hs'⟩ := ih (by rw [hcurrent, hc]) (by rw [hspaces, hs])
    exact ⟨s', Runs.run_cons_ok.mpr ⟨s₁, hfault, hrun⟩, hs'⟩

end Machine

end OS161.LoadElf
