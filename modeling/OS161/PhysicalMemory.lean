import OS161.Regions

/-!
# Physical memory before the VM system

`ram_stealmem` hands out memory by moving `firstpaddr` up. All of it is
arithmetic in 32 bits: the size in bytes, the sum that is compared with
`lastpaddr` and the new `firstpaddr` can each wrap around.
-/

set_option autoImplicit false

namespace OS161.PhysicalMemory

open Regions

def pageSize : ℕ := 4096

def kseg0 : ℕ := 0x80000000

def kseg1 : ℕ := 0xa0000000

/-- The limit that `ram_bootstrap` puts on the size of RAM. -/
def maxRam : ℕ := 512 * 1024 * 1024

structure Ram where
  firstpaddr : ℕ
  lastpaddr : ℕ
deriving DecidableEq

/-- The size in bytes, as a `size_t`. -/
def stealSize (npages : ℕ) : ℕ := npages * pageSize % 2 ^ 32

def Ram.stealmem (r : Ram) (npages : ℕ) : ℕ × Ram :=
  if r.lastpaddr < (r.firstpaddr + stealSize npages) % 2 ^ 32 then (0, r)
  else (r.firstpaddr, { r with firstpaddr := (r.firstpaddr + stealSize npages) % 2 ^ 32 })

/-- `PADDR_TO_KVADDR` -/
def paddrToKvaddr (pa : ℕ) : ℕ := (pa + kseg0) % 2 ^ 32

def Ram.allocKpages (r : Ram) (npages : ℕ) : ℕ × Ram :=
  let (pa, r') := r.stealmem npages
  if pa = 0 then (0, r') else (paddrToKvaddr pa, r')

theorem stealmem_lastpaddr (r : Ram) (n : ℕ) : (r.stealmem n).2.lastpaddr = r.lastpaddr := by
  unfold Ram.stealmem
  split <;> rfl

theorem allocKpages_lastpaddr (r : Ram) (n : ℕ) : (r.allocKpages n).2.lastpaddr = r.lastpaddr := by
  have hlast := stealmem_lastpaddr r n
  unfold Ram.allocKpages
  cases hx : r.stealmem n with
  | mk pa r' =>
    rw [hx] at hlast
    by_cases hpa : pa = 0
    · simpa [hpa] using hlast
    · simpa [hpa] using hlast

/-- How `ram_bootstrap` leaves memory, and what holds as long as nothing wraps around. -/
structure Ram.Good (r : Ram) : Prop where
  aligned : r.firstpaddr % pageSize = 0
  positive : 0 < r.firstpaddr
  fits : r.firstpaddr ≤ r.lastpaddr
  small : r.lastpaddr ≤ maxRam

instance decidableGood (r : Ram) : Decidable r.Good :=
  decidable_of_iff (r.firstpaddr % pageSize = 0 ∧ 0 < r.firstpaddr ∧ r.firstpaddr ≤ r.lastpaddr ∧
      r.lastpaddr ≤ maxRam)
    ⟨fun h => ⟨h.1, h.2.1, h.2.2.1, h.2.2.2⟩, fun h => ⟨h.aligned, h.positive, h.fits, h.small⟩⟩

/-- Neither the size in bytes nor the new `firstpaddr` leaves 32 bits. -/
def Ram.NoWrap (r : Ram) (npages : ℕ) : Prop := r.firstpaddr + npages * pageSize < 2 ^ 32

instance decidableNoWrap (r : Ram) (npages : ℕ) : Decidable (r.NoWrap npages) :=
  inferInstanceAs (Decidable (r.firstpaddr + npages * pageSize < 2 ^ 32))

variable {r : Ram} {n : ℕ}

/-- Without a wrap around, memory is refused or lies between the old and the new `firstpaddr`. -/
theorem stealmem_spec (hw : r.NoWrap n) :
    r.stealmem n = (0, r) ∨
      r.stealmem n = (r.firstpaddr, { r with firstpaddr := r.firstpaddr + n * pageSize }) ∧
        r.firstpaddr + n * pageSize ≤ r.lastpaddr := by
  have hsize : stealSize n = n * pageSize := by
    refine Nat.mod_eq_of_lt ?_
    unfold Ram.NoWrap at hw
    omega
  unfold Ram.NoWrap at hw
  rw [Ram.stealmem, hsize, Nat.mod_eq_of_lt hw]
  by_cases hout : r.lastpaddr < r.firstpaddr + n * pageSize
  · exact .inl (if_pos hout)
  · exact .inr ⟨if_neg hout, by omega⟩

theorem Ram.Good.advance (h : r.Good) (hle : r.firstpaddr + n * pageSize ≤ r.lastpaddr) :
    Ram.Good { r with firstpaddr := r.firstpaddr + n * pageSize } where
  aligned := by
    have := h.aligned
    unfold pageSize at *
    simp only
    omega
  positive := Nat.add_pos_left h.positive _
  fits := hle
  small := h.small

theorem paddrToKvaddr_eq (h : r.Good) : paddrToKvaddr r.firstpaddr = kseg0 + r.firstpaddr := by
  have h1 := h.fits
  have h2 := h.small
  unfold maxRam at h2
  unfold paddrToKvaddr kseg0
  omega

theorem allocKpages_spec (h : r.Good) (hw : r.NoWrap n) :
    r.allocKpages n = (0, r) ∨
      r.allocKpages n = (kseg0 + r.firstpaddr, { r with firstpaddr := r.firstpaddr + n * pageSize }) ∧
        r.firstpaddr + n * pageSize ≤ r.lastpaddr := by
  have hpos : r.firstpaddr ≠ 0 := Nat.ne_of_gt h.positive
  obtain heq | ⟨heq, hle⟩ := stealmem_spec hw
  · exact .inl (by simp [Ram.allocKpages, heq])
  · refine .inr ⟨?_, hle⟩
    simp [Ram.allocKpages, heq, hpos, paddrToKvaddr_eq h]

/-- One page is always asked for without a wrap around. -/
theorem noWrap_one (h : r.Good) : r.NoWrap 1 := by
  have h1 := h.fits
  have h2 := h.small
  unfold maxRam at h2
  unfold Ram.NoWrap pageSize
  omega

/-- A wrap around is not noticed: memory is returned that does not have that many bytes. -/
theorem stealmem_wrap (h : r.Good) (hn : stealSize n = n * pageSize) (hw : ¬r.NoWrap n) :
    (r.stealmem n).1 = r.firstpaddr := by
  have h1 := h.fits
  have h2 := h.small
  have hlt : n * pageSize < 2 ^ 32 := hn ▸ Nat.mod_lt _ (by decide)
  unfold maxRam at h2
  unfold Ram.NoWrap at hw
  have hno : ¬r.lastpaddr < (r.firstpaddr + stealSize n) % 2 ^ 32 := by
    rw [hn]
    omega
  rw [Ram.stealmem, if_neg hno]

end OS161.PhysicalMemory
