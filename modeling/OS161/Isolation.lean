import OS161.AddressSpace
import Mathlib.Data.Fintype.Basic
import Mathlib.Order.Nat

/-!
# Isolation of address spaces

Regions, stacks and kernel memory are all taken from the same `firstpaddr`, so
they are apart as long as it only moves up. A translation then stays in the
parts of its own address space, and what one process stores no other reads.
Two things break this: sizes that take `firstpaddr` past 2^32, and a region
that is defined to be larger after its memory has been got.
-/

set_option autoImplicit false

namespace OS161.AddressSpace

open Function PhysicalMemory Regions Runs

inductive Part where
  | first
  | second
  | stack
deriving DecidableEq

/-- Who physical memory can belong to. -/
inductive Owner (A : Type*) where
  | part (a : A) (p : Part)
  | kernel (k : ℕ)
deriving DecidableEq

/-- The memory at a base; none has been got as long as the base is 0. -/
def stretch (pbase npages : ℕ) : ℕ × ℕ := if pbase = 0 then (0, 0) else (pbase, npages * pageSize)

def AddrSpace.part (as : AddrSpace) : Part → ℕ × ℕ
  | .first => stretch as.pbase1 as.npages1
  | .second => stretch as.pbase2 as.npages2
  | .stack => stretch as.stackpbase stackPages

variable {A C : Type*} [DecidableEq A] [DecidableEq C]

def rangeOf (spaces : A → Option AddrSpace) (kernel : ℕ → ℕ × ℕ) : Owner A → ℕ × ℕ
  | .part a p => match spaces a with
    | none => (0, 0)
    | some as => as.part p
  | .kernel k => kernel k

/-- The physical range of each owner. -/
def Machine.range (s : Machine A C) : Owner A → ℕ × ℕ := rangeOf s.spaces s.kernel

section Prepare

variable {X : Type*} [DecidableEq X] {f : X → ℕ × ℕ} {first : ℕ} {as : AddrSpace} {m : Physical} {x y z : X}

/-- Neither region takes `firstpaddr` past 2^32. -/
def PrepareFits (r : Ram) (as : AddrSpace) : Prop :=
  r.NoWrap as.npages1 ∧
    (r.firstpaddr + as.npages1 * pageSize ≤ r.lastpaddr → r.NoWrap (as.npages1 + as.npages2))

instance decidablePrepareFits (r : Ram) (as : AddrSpace) : Decidable (PrepareFits r as) :=
  inferInstanceAs (Decidable (_ ∧ (_ → _)))

/-- The address space is as it was but for the memory it has got. -/
structure SameRegions (as as' : AddrSpace) : Prop where
  vbase1 : as'.vbase1 = as.vbase1
  npages1 : as'.npages1 = as.npages1
  vbase2 : as'.vbase2 = as.vbase2
  npages2 : as'.npages2 = as.npages2

/-- What `as_prepare_load` leaves: parts that are apart from all there was, cleared above the old `firstpaddr`. -/
structure Prepared (first : ℕ) (f : X → ℕ × ℕ) (x y z : X) (as : AddrSpace) (m : Physical) (o : Option Errno)
    (as' : AddrSpace) (m' : Physical) : Prop where
  spread : Spread first m'.ram.firstpaddr
    (update (update (update f x (as'.part .first)) y (as'.part .second)) z (as'.part .stack))
  good : m'.ram.Good
  grows : m.ram.firstpaddr ≤ m'.ram.firstpaddr
  last : m'.ram.lastpaddr = m.ram.lastpaddr
  mem : ∀ p < m.ram.firstpaddr, m'.mem p = m.mem p
  same : SameRegions as as'
  order : as'.pbase1 = 0 → as'.pbase2 = 0 ∧ as'.stackpbase = 0
  above : o = none → m.ram.firstpaddr ≤ as'.pbase1 ∧ m.ram.firstpaddr ≤ as'.pbase2 ∧
    m.ram.firstpaddr ≤ as'.stackpbase

theorem noWrap_stack {r : Ram} (h : r.Good) : r.NoWrap stackPages := by
  have h1 := h.fits
  have h2 := h.small
  unfold maxRam at h2
  unfold Ram.NoWrap stackPages pageSize
  omega

theorem stretch_of_ne {pbase npages : ℕ} (h : pbase ≠ 0) : stretch pbase npages = (pbase, npages * pageSize) :=
  if_neg h

theorem stretch_zero {npages : ℕ} : stretch 0 npages = (0, 0) := if_pos rfl

theorem update_none {a : X} (h : f a = (0, 0)) : update f a (0, 0) = f := by
  rw [← h, update_eq_self]

theorem zeroRegion_ok {paddr npages : ℕ} {m' : Physical} (h : m.zeroRegion paddr npages = .ok m') :
    m'.ram = m.ram ∧ ∀ p < paddr, m'.mem p = m.mem p := by
  unfold Physical.zeroRegion at h
  split at h
  · cases h
    refine ⟨rfl, ?_⟩
    intro p hp
    exact if_neg (by omega)
  · cases h

/-- Clearing leaves alone what lies below all of the parts. -/
theorem clear_ok {o : Option Errno} {as' : AddrSpace} {m' : Physical} (h : as.clear m = .ok (o, as', m')) :
    as' = as ∧ m'.ram = m.ram ∧ ∀ p < as.pbase1, p < as.pbase2 → p < as.stackpbase → m'.mem p = m.mem p := by
  unfold AddrSpace.clear at h
  cases ha : m.zeroRegion as.pbase1 as.npages1 with
  | error e => simp [ha] at h
  | ok ma =>
    simp only [ha] at h
    cases hb : ma.zeroRegion as.pbase2 as.npages2 with
    | error e => simp [hb] at h
    | ok mb =>
      simp only [hb] at h
      cases hc : mb.zeroRegion as.stackpbase stackPages with
      | error e => simp [hc] at h
      | ok mc =>
        simp only [hc] at h
        cases h
        obtain ⟨hra, hma⟩ := zeroRegion_ok ha
        obtain ⟨hrb, hmb⟩ := zeroRegion_ok hb
        obtain ⟨hrc, hmc⟩ := zeroRegion_ok hc
        refine ⟨rfl, by rw [hrc, hrb, hra], ?_⟩
        intro p h1 h2 h3
        rw [hmc p h3, hmb p h2, hma p h1]

theorem prepareLoad_prepared {o : Option Errno} {as' : AddrSpace} {m' : Physical} (hgood : m.ram.Good)
    (hlow : first ≤ m.ram.firstpaddr) (hs : Spread first m.ram.firstpaddr f) (hx : f x = (0, 0)) (hy : f y = (0, 0))
    (hz : f z = (0, 0)) (hxy : x ≠ y) (hxz : x ≠ z) (hyz : y ≠ z) (hfit : PrepareFits m.ram as)
    (h : as.prepareLoad m = .ok (o, as', m')) : Prepared first f x y z as m o as' m' := by
  unfold AddrSpace.prepareLoad at h
  split at h
  case isFalse => cases h
  rename_i hfresh
  obtain ⟨hp1, hp2, hp3⟩ := hfresh
  have hsteal1 := stealmem_spec hfit.1
  generalize m.ram.stealmem as.npages1 = r1 at h hsteal1
  obtain rfl | ⟨rfl, hle1⟩ := hsteal1
  · -- the first region is refused
    cases h
    refine ⟨?_, hgood, le_refl _, rfl, fun _ _ => rfl, ⟨rfl, rfl, rfl, rfl⟩, fun _ => ⟨hp2, hp3⟩, by simp⟩
    simpa [AddrSpace.part, hp2, hp3, stretch_zero, update_none hx, update_none hy, update_none hz] using hs
  have hne1 : m.ram.firstpaddr ≠ 0 := Nat.ne_of_gt hgood.positive
  have hgood1 := hgood.advance hle1
  have hs1 := hs.bump (a := x) (n := as.npages1 * pageSize) hlow (le_refl _)
  set f1 := update f x (m.ram.firstpaddr, as.npages1 * pageSize) with hf1
  have hy1 : f1 y = (0, 0) := by rw [hf1, update_of_ne (Ne.symm hxy), hy]
  have hz1 : f1 z = (0, 0) := by rw [hf1, update_of_ne (Ne.symm hxz), hz]
  have hfit2 : Ram.NoWrap { m.ram with firstpaddr := m.ram.firstpaddr + as.npages1 * pageSize } as.npages2 := by
    have := hfit.2 hle1
    simp only [Ram.NoWrap, Nat.add_mul] at this ⊢
    omega
  simp only [if_neg hne1, AddrSpace.prepareSecond] at h
  have hsteal2 := stealmem_spec hfit2
  generalize Ram.stealmem _ as.npages2 = r2 at h hsteal2
  obtain rfl | ⟨rfl, hle2⟩ := hsteal2
  · -- the second region is refused
    cases h
    refine ⟨?_, hgood1, Nat.le_add_right _ _, rfl, fun _ _ => rfl, ⟨rfl, rfl, rfl, rfl⟩, fun h0 => absurd h0 hne1, by simp⟩
    simpa [AddrSpace.part, hp3, stretch_zero, stretch_of_ne hne1, ← hf1, update_none hy1, update_none hz1] using hs1
  have hgood2 := hgood1.advance hle2
  have hne2 : m.ram.firstpaddr + as.npages1 * pageSize ≠ 0 := Nat.ne_of_gt hgood1.positive
  have hs2 := hs1.bump (a := y) (n := as.npages2 * pageSize) (hlow.trans (Nat.le_add_right _ _)) (le_refl _)
  set f2 := update f1 y (m.ram.firstpaddr + as.npages1 * pageSize, as.npages2 * pageSize) with hf2
  have hz2 : f2 z = (0, 0) := by rw [hf2, update_of_ne (Ne.symm hyz), hz1]
  simp only [if_neg hne2, AddrSpace.prepareStack] at h
  have hsteal3 := stealmem_spec (noWrap_stack hgood2)
  generalize Ram.stealmem _ stackPages = r3 at h hsteal3
  obtain rfl | ⟨rfl, hle3⟩ := hsteal3
  · -- the stack is refused
    cases h
    refine ⟨?_, hgood2, ?_, rfl, fun _ _ => rfl, ⟨rfl, rfl, rfl, rfl⟩, fun h0 => absurd h0 hne1, by simp⟩
    · simpa [AddrSpace.part, stretch_zero, stretch_of_ne hne1, stretch_of_ne hne2, ← hf1, ← hf2,
        update_none hz2] using hs2
    · simp only
      omega
  have hne3 : m.ram.firstpaddr + as.npages1 * pageSize + as.npages2 * pageSize ≠ 0 := Nat.ne_of_gt hgood2.positive
  simp only [if_neg hne3] at h
  obtain ⟨rfl, hram, hmem⟩ := clear_ok h
  refine ⟨?_, ?_, ?_, ?_, ?_, ⟨rfl, rfl, rfl, rfl⟩, fun h0 => absurd h0 hne1, fun _ => ?_⟩
  · have hs3 := hs2.bump (a := z) (n := stackPages * pageSize)
      ((hlow.trans (Nat.le_add_right _ _)).trans (Nat.le_add_right _ _)) (le_refl _)
    simpa [AddrSpace.part, stretch_of_ne hne1, stretch_of_ne hne2, stretch_of_ne hne3, ← hf1, ← hf2, hram] using hs3
  · rw [hram]
    exact hgood2.advance hle3
  · rw [hram]
    simp only
    omega
  · rw [hram]
  · intro p hp
    refine hmem p ?_ ?_ ?_ <;> simp only <;> omega
  · simp only
    omega

end Prepare

section Translate

variable {as : AddrSpace} {va paddr : ℕ}

/-- The part of an address space that a frame is in. -/
def FrameIn (as : AddrSpace) (paddr : ℕ) : Prop :=
  paddr % pageSize = 0 ∧ ∃ p, (as.part p).1 ≤ paddr ∧ paddr + pageSize ≤ (as.part p).1 + (as.part p).2

theorem inRegion_frame {vbase npages pbase page : ℕ} (h : inRegion vbase npages pbase page = some paddr)
    (hv : vbase % pageSize = 0) (hp : pbase % pageSize = 0) (hpage : page % pageSize = 0)
    (hbound : pbase + npages * pageSize ≤ maxRam) :
    paddr % pageSize = 0 ∧ pbase ≤ paddr ∧ paddr + pageSize ≤ pbase + npages * pageSize := by
  unfold inRegion at h
  split at h
  · rename_i hin
    cases h
    have hwrap : (vbase + npages * pageSize) % 2 ^ 32 ≤ vbase + npages * pageSize := Nat.mod_le _ _
    have hlt : page < vbase + npages * pageSize := Nat.lt_of_lt_of_le hin.2 hwrap
    unfold maxRam at hbound
    unfold pageSize at *
    omega
  · cases h

/-- A translation stays in the parts of the address space. -/
theorem translate_frame (hset : as.IsSetUp) (hbound : ∀ p, (as.part p).1 + (as.part p).2 ≤ maxRam)
    (h : as.translate va = some paddr) : FrameIn as paddr := by
  obtain ⟨-, hp1, -, -, hp2, -, hp3, hv1, ha1, hv2, ha2, ha3⟩ := hset
  have hpage : va / pageSize * pageSize % pageSize = 0 := Nat.mul_mod_left _ _
  unfold AddrSpace.translate at h
  simp only at h
  split at h
  · rename_i q hq
    cases h
    have hb := hbound .first
    rw [AddrSpace.part, stretch_of_ne hp1] at hb
    obtain ⟨hmod, hlo, hhi⟩ := inRegion_frame hq hv1 ha1 hpage hb
    refine ⟨hmod, .first, ?_⟩
    rw [AddrSpace.part, stretch_of_ne hp1]
    exact ⟨hlo, hhi⟩
  · split at h
    · rename_i q hq
      cases h
      have hb := hbound .second
      rw [AddrSpace.part, stretch_of_ne hp2] at hb
      obtain ⟨hmod, hlo, hhi⟩ := inRegion_frame hq hv2 ha2 hpage hb
      refine ⟨hmod, .second, ?_⟩
      rw [AddrSpace.part, stretch_of_ne hp2]
      exact ⟨hlo, hhi⟩
    · split at h
      · rename_i hin
        cases h
        have hb := hbound .stack
        rw [AddrSpace.part, stretch_of_ne hp3] at hb
        have hframe : (va / pageSize * pageSize - (userstack - stackPages * pageSize) + as.stackpbase) % 2 ^ 32 % pageSize = 0 ∧
            as.stackpbase ≤ (va / pageSize * pageSize - (userstack - stackPages * pageSize) + as.stackpbase) % 2 ^ 32 ∧
            (va / pageSize * pageSize - (userstack - stackPages * pageSize) + as.stackpbase) % 2 ^ 32 + pageSize ≤
              as.stackpbase + stackPages * pageSize := by
          unfold maxRam at hb
          unfold userstack kseg0 stackPages at *
          unfold pageSize at *
          omega
        refine ⟨hframe.1, .stack, ?_⟩
        rw [AddrSpace.part, stretch_of_ne hp3]
        exact hframe.2
      · cases h

theorem translate_page : as.translate (va / pageSize * pageSize) = as.translate va := by
  have hpage : va / pageSize * pageSize / pageSize * pageSize = va / pageSize * pageSize := by
    rw [Nat.mul_div_cancel _ (by decide)]
  simp only [AddrSpace.translate, hpage]

theorem FrameIn.inside (h : FrameIn as paddr) : ∃ p, Inside (as.part p) (paddr + va % pageSize) := by
  obtain ⟨-, p, hlo, hhi⟩ := h
  have hlt : va % pageSize < pageSize := Nat.mod_lt _ (by decide)
  exact ⟨p, by omega, by omega⟩

end Translate

/-- Every entry is what `vm_fault` finds for the address space that is current. -/
def Coherent (s : Machine A C) (c : C) (as : AddrSpace) : Prop :=
  ∀ e ∈ s.tlb c, as.IsSetUp ∧ as.translate e.1 = some e.2

structure Inv (first : ℕ) (s : Machine A C) : Prop where
  good : s.phys.ram.Good
  low : first ≤ s.phys.ram.firstpaddr
  spread : Spread first s.phys.ram.firstpaddr s.range
  fresh : ∀ k, s.nkernel ≤ k → s.kernel k = (0, 0)
  order : ∀ a as, s.spaces a = some as → as.pbase1 = 0 → as.pbase2 = 0 ∧ as.stackpbase = 0
  coherent : ∀ c a, s.current c = some a → ∃ as, s.spaces a = some as ∧ Coherent s c as

/-- An address space is destroyed only once no CPU has it. -/
def Proper : Act A C → Machine A C → Prop
  | .destroy a, s => ∀ c, s.current c ≠ some a
  | .defineRegion _ vaddr sz, _ => vaddr < 2 ^ 32 ∧ sz < 2 ^ 32
  | .allocKpages npages, _ => npages < 2 ^ 32
  | _, _ => True

/-- A region of an address space that has got its memory does not become larger. -/
def DefineFits (as : AddrSpace) (vaddr sz : ℕ) : Prop :=
  as.pbase1 = 0 ∨ as.vbase1 ≠ 0 ∧ as.vbase2 ≠ 0 ∨ as.vbase1 = 0 ∧ regionPages vaddr sz ≤ as.npages1 ∨
    as.vbase1 ≠ 0 ∧ as.vbase2 = 0 ∧ regionPages vaddr sz ≤ as.npages2

/-- What is asked for takes `firstpaddr` nowhere beyond 32 bits, and nothing is asked for too late. -/
def Fits : Act A C → Machine A C → Prop
  | .defineRegion a vaddr sz, s => ∀ as, s.spaces a = some as → DefineFits as vaddr sz
  | .prepareLoad a, s => ∀ as, s.spaces a = some as → PrepareFits s.phys.ram as
  | .copy old _, s => ∀ as, s.spaces old = some as → PrepareFits s.phys.ram as
  | .allocKpages npages, s => s.phys.ram.NoWrap npages
  | _, _ => True

def boot (first last : ℕ) (mem : ℕ → ℕ) : Machine A C where
  phys := { ram := ⟨first, last⟩, mem := mem }
  spaces := fun _ => none
  kernel := fun _ => (0, 0)
  nkernel := 0
  current := fun _ => none
  tlb := fun _ => []

variable {s s' : Machine A C} {first : ℕ} {a b : A} {c : C} {as : AddrSpace}

omit [DecidableEq A] [DecidableEq C] in
theorem range_part (h : s.spaces a = some as) (p : Part) : s.range (.part a p) = as.part p := by
  simp [Machine.range, rangeOf, h]

omit [DecidableEq A] [DecidableEq C] in
theorem range_none (h : s.spaces a = none) (p : Part) : s.range (.part a p) = (0, 0) := by
  simp [Machine.range, rangeOf, h]

omit [DecidableEq A] [DecidableEq C] in
theorem boot_inv {last : ℕ} (hram : (Ram.mk first last).Good) (mem : ℕ → ℕ) :
    Inv first (boot (A := A) (C := C) first last mem) where
  good := hram
  low := le_refl _
  spread := by
    have hrange : (boot (A := A) (C := C) first last mem).range = fun _ => (0, 0) := by
      ext x
      all_goals cases x <;> rfl
    rw [hrange]
    exact spread_none
  fresh _ _ := rfl
  order _ _ h := nomatch h
  coherent _ _ h := nomatch h

/-- An address space takes the place of another, or of none. -/
theorem range_update {o : Option AddrSpace} {kernel : ℕ → ℕ × ℕ} {spaces : A → Option AddrSpace} :
    rangeOf (update spaces a o) kernel =
      update (update (update (rangeOf spaces kernel) (.part a .first) (rangeOf (update spaces a o) kernel (.part a .first)))
        (.part a .second) (rangeOf (update spaces a o) kernel (.part a .second)))
        (.part a .stack) (rangeOf (update spaces a o) kernel (.part a .stack)) := by
  funext x
  cases x with
  | part q p =>
    by_cases hq : q = a
    · subst hq
      cases p <;> simp
    · simp [rangeOf, hq]
  | kernel k => simp [rangeOf]

omit [DecidableEq A] [DecidableEq C] in
theorem part_bound (h : Inv first s) (ha : s.spaces a = some as) (p : Part) :
    (as.part p).1 + (as.part p).2 ≤ maxRam := by
  have h1 := h.good.fits
  have h2 := h.good.small
  obtain hz | ⟨-, hhi⟩ := h.spread.within (.part a p)
  · rw [range_part ha] at hz
    rw [hz]
    exact Nat.zero_le _
  · rw [range_part ha] at hhi
    omega

omit [DecidableEq A] [DecidableEq C] in
/-- What a part covers lies below `firstpaddr`. -/
theorem Inv.below (h : Inv first s) (ha : s.spaces a = some as) {p : Part} {x : ℕ} (hx : Inside (as.part p) x) :
    x < s.phys.ram.firstpaddr := by
  unfold Inside at hx
  obtain hz | ⟨-, hhi⟩ := h.spread.within (.part a p)
  · rw [range_part ha] at hz
    rw [hz] at hx
    omega
  · rw [range_part ha] at hhi
    omega

/-- Whose process a call is for. -/
def ActsFor : Act A C → Machine A C → A → Prop
  | .create a, _, b => a = b
  | .defineRegion a _ _, _, b => a = b
  | .prepareLoad a, _, b => a = b
  | .copy _ new, _, b => new = b
  | .destroy a, _, b => a = b
  | .allocKpages _, _, _ => False
  | .kernelStore _ _ _, _, _ => False
  | .activate _ _, _, _ => False
  | .fault _ _, _, _ => False
  | .store c _ _, s, b => s.current c = some b

/-- Neither the address space nor the memory of its parts has changed. -/
structure Untouched (b : A) (s s' : Machine A C) : Prop where
  space : s'.spaces b = s.spaces b
  mem : ∀ as, s.spaces b = some as → ∀ p x, Inside (as.part p) x → s'.phys.mem x = s.phys.mem x

omit [DecidableEq A] [DecidableEq C] in
theorem Untouched.of_mem (hspace : s'.spaces b = s.spaces b) (hmem : s'.phys.mem = s.phys.mem) : Untouched b s s' :=
  ⟨hspace, fun _ _ _ _ _ => by rw [hmem]⟩

omit [DecidableEq A] [DecidableEq C] in
theorem view_untouched (h : Inv first s) (hu : Untouched b s s') (va : ℕ) : s'.view b va = s.view b va := by
  unfold Machine.view
  rw [hu.space]
  cases hb : s.spaces b with
  | none => rfl
  | some as =>
    simp only
    split
    · rename_i hset
      cases ht : as.translate va with
      | none => rfl
      | some paddr =>
        have hframe := translate_frame hset (part_bound h hb) ht
        obtain ⟨p, hin⟩ : ∃ p, Inside (as.part p) (paddr + va % pageSize) := hframe.inside
        simp only [Option.map_some, hu.mem as hb p _ hin]
    · rfl

/-- A step keeps what holds of the machine, and the address spaces it is not for. -/
structure StepOk (first : ℕ) (x : Act A C) (s s' : Machine A C) : Prop where
  inv : Inv first s'
  frame : ∀ b, ¬ActsFor x s b → Untouched b s s'

omit [DecidableEq C] in
theorem create_ok (h : Inv first s) (hs : s.create a = .ok s') : StepOk first (.create a) s s' := by
  unfold Machine.create at hs
  split at hs
  case isFalse => cases hs
  rename_i hnone
  cases hs
  have hne : ∀ c q, s.current c = some q → q ≠ a := by
    rintro c q hc rfl
    obtain ⟨as, hq, -⟩ := h.coherent c q hc
    exact nomatch hnone.symm.trans hq
  constructor
  · refine ⟨h.good, h.low, h.spread.shrink ?_, h.fresh, ?_, ?_⟩
    · intro x
      cases x with
      | part q p =>
        by_cases hq : q = a
        · subst hq
          refine .inl ?_
          cases p <;> simp [Machine.range, rangeOf, AddrSpace.part, emptySpace, stretch]
        · exact .inr (by simp [Machine.range, rangeOf, hq])
      | kernel k => exact .inr ⟨rfl, le_refl _⟩
    · intro q as hq
      by_cases hqa : q = a
      · subst hqa
        simp only [update_self, Option.some.injEq] at hq
        subst hq
        exact fun _ => ⟨rfl, rfl⟩
      · simp only [update_of_ne hqa] at hq
        exact h.order q as hq
    · intro c q hc
      obtain ⟨as, hq, hco⟩ := h.coherent c q hc
      exact ⟨as, by simpa [hne c q hc] using hq, hco⟩
  · intro b hb
    exact .of_mem (update_of_ne (Ne.symm hb) _ _) rfl

omit [DecidableEq C] in
theorem define_ok {vaddr sz : ℕ} (h : Inv first s) (ha : s.spaces a = some as) (hf : DefineFits as vaddr sz) :
    StepOk first (.defineRegion a vaddr sz) s
      { s with spaces := update s.spaces a (some (as.defineRegion vaddr sz).2) } := by
  have hsame : as.vbase1 ≠ 0 → as.vbase2 ≠ 0 → (as.defineRegion vaddr sz).2 = as := by
    intro h1 h2
    simp [AddrSpace.defineRegion, h1, h2]
  have hbases : (as.defineRegion vaddr sz).2.pbase1 = as.pbase1 ∧ (as.defineRegion vaddr sz).2.pbase2 = as.pbase2 ∧
      (as.defineRegion vaddr sz).2.stackpbase = as.stackpbase := by
    unfold AddrSpace.defineRegion
    simp only
    split
    · exact ⟨rfl, rfl, rfl⟩
    · split
      · exact ⟨rfl, rfl, rfl⟩
      · exact ⟨rfl, rfl, rfl⟩
  -- a part is not there or does not become larger
  have hparts : ∀ p, (as.defineRegion vaddr sz).2.part p = (0, 0) ∨
      ((as.defineRegion vaddr sz).2.part p).1 = (as.part p).1 ∧
        ((as.defineRegion vaddr sz).2.part p).2 ≤ (as.part p).2 := by
    obtain ⟨hb1, hb2, hb3⟩ := hbases
    intro p
    obtain h0 | ⟨h1, h2⟩ | ⟨h1, hle⟩ | ⟨h1, h2, hle⟩ := hf
    · obtain ⟨h0', h0''⟩ := h.order a as ha h0
      refine .inl ?_
      cases p
      · rw [AddrSpace.part, hb1, h0, stretch_zero]
      · rw [AddrSpace.part, hb2, h0', stretch_zero]
      · rw [AddrSpace.part, hb3, h0'', stretch_zero]
    · rw [hsame h1 h2]
      exact .inr ⟨rfl, le_refl _⟩
    · refine .inr ?_
      cases p
      · simp only [AddrSpace.part, AddrSpace.defineRegion, if_pos h1, stretch]
        split
        · exact ⟨rfl, le_refl _⟩
        · exact ⟨rfl, Nat.mul_le_mul_right _ hle⟩
      · simp [AddrSpace.part, AddrSpace.defineRegion, h1]
      · simp [AddrSpace.part, AddrSpace.defineRegion, h1]
    · refine .inr ?_
      cases p
      · simp [AddrSpace.part, AddrSpace.defineRegion, h1, h2]
      · simp only [AddrSpace.part, AddrSpace.defineRegion, if_neg h1, if_pos h2, stretch]
        split
        · exact ⟨rfl, le_refl _⟩
        · exact ⟨rfl, Nat.mul_le_mul_right _ hle⟩
      · simp [AddrSpace.part, AddrSpace.defineRegion, h1, h2]
  constructor
  · refine ⟨h.good, h.low, h.spread.shrink ?_, h.fresh, ?_, ?_⟩
    · intro x
      cases x with
      | part q p =>
        by_cases hq : q = a
        · subst hq
          simpa [Machine.range, rangeOf, ha] using hparts p
        · exact .inr (by simp [Machine.range, rangeOf, hq])
      | kernel k => exact .inr ⟨rfl, le_refl _⟩
    · intro q as' hq
      by_cases hqa : q = a
      · subst hqa
        simp only [update_self, Option.some.injEq] at hq
        subst hq
        rw [hbases.1, hbases.2.1, hbases.2.2]
        exact h.order q as ha
      · simp only [update_of_ne hqa] at hq
        exact h.order q as' hq
    · intro c q hc
      obtain ⟨as', hq, hco⟩ := h.coherent c q hc
      by_cases hqa : q = a
      · subst hqa
        obtain rfl : as = as' := Option.some.inj (ha.symm.trans hq)
        refine ⟨_, update_self .., ?_⟩
        intro e he
        obtain ⟨hset, htr⟩ := hco e he
        rw [hsame hset.1 hset.2.2.2.1]
        exact ⟨hset, htr⟩
      · exact ⟨as', by simpa [hqa] using hq, hco⟩
  · intro b hb
    exact .of_mem (update_of_ne (Ne.symm hb) _ _) rfl

omit [DecidableEq A] [DecidableEq C] in
theorem prepareLoad_fresh {o : Option Errno} {as' : AddrSpace} {m m' : Physical}
    (h : as.prepareLoad m = .ok (o, as', m')) : as.pbase1 = 0 ∧ as.pbase2 = 0 ∧ as.stackpbase = 0 := by
  unfold AddrSpace.prepareLoad at h
  split at h
  · assumption
  · cases h

omit [DecidableEq C] in
/-- An address space that has got its memory takes its place; the memory may since have been filled. -/
theorem prepared_inv {o : Option Errno} {new as' : AddrSpace} {m' : Physical} (h : Inv first s)
    (hprep : Prepared first s.range (.part a .first) (.part a .second) (.part a .stack) new s.phys o as' m')
    (mem : ℕ → ℕ) (hcur : ∀ c, s.current c = some a → s.tlb c = []) :
    Inv first { s with phys := { m' with mem := mem }, spaces := update s.spaces a (some as') } where
  good := hprep.good
  low := h.low.trans hprep.grows
  spread := by
    have hrange : rangeOf (update s.spaces a (some as')) s.kernel = _ := range_update (a := a)
    simp only [rangeOf, update_self] at hrange
    rw [Machine.range, hrange]
    exact hprep.spread
  fresh := h.fresh
  order q as hq := by
    by_cases hqa : q = a
    · subst hqa
      simp only [update_self, Option.some.injEq] at hq
      subst hq
      exact hprep.order
    · simp only [update_of_ne hqa] at hq
      exact h.order q as hq
  coherent c q hc := by
    obtain ⟨as, hq, hco⟩ := h.coherent c q hc
    by_cases hqa : q = a
    · subst hqa
      refine ⟨as', update_self .., ?_⟩
      intro e he
      rw [hcur c hc] at he
      cases he
    · exact ⟨as, by simpa [hqa] using hq, hco⟩

omit [DecidableEq C] in
theorem prepareLoad_ok (h : Inv first s) (ha : s.spaces a = some as) (hfit : PrepareFits s.phys.ram as)
    (hs : s.prepareLoad a as = .ok s') : StepOk first (.prepareLoad a) s s' := by
  unfold Machine.prepareLoad at hs
  cases hp : as.prepareLoad s.phys with
  | error e => simp [hp] at hs
  | ok y =>
    obtain ⟨o, as', m'⟩ := y
    simp only [hp, Except.ok.injEq] at hs
    subst hs
    obtain ⟨h1, h2, h3⟩ := prepareLoad_fresh hp
    have hnone : ∀ p, s.range (.part a p) = (0, 0) := by
      intro p
      rw [range_part ha]
      cases p
      · rw [AddrSpace.part, h1, stretch_zero]
      · rw [AddrSpace.part, h2, stretch_zero]
      · rw [AddrSpace.part, h3, stretch_zero]
    have hprep := prepareLoad_prepared h.good h.low h.spread (hnone .first) (hnone .second) (hnone .stack) (by simp)
      (by simp) (by simp) hfit hp
    have hcur : ∀ c, s.current c = some a → s.tlb c = [] := by
      intro c hc
      obtain ⟨q, hq, hco⟩ := h.coherent c a hc
      obtain rfl : as = q := Option.some.inj (ha.symm.trans hq)
      refine List.eq_nil_iff_forall_not_mem.mpr ?_
      intro e he
      exact (hco e he).1.2.1 h1
    refine ⟨prepared_inv h hprep m'.mem hcur, ?_⟩
    intro b hb
    refine ⟨update_of_ne (Ne.symm hb) _ _, ?_⟩
    intro q hq p x hx
    exact hprep.mem x (h.below hq hx)

theorem memmove_of_lt {mem : ℕ → ℕ} {dst src len x : ℕ} (hx : x < dst) : memmove mem dst src len x = mem x :=
  if_neg (by omega)

omit [DecidableEq C] in
theorem copy_ok {old : A} (h : Inv first s) (hfit : PrepareFits s.phys.ram as) (hs : s.copy a as = .ok s') :
    StepOk first (.copy old a) s s' := by
  unfold Machine.copy at hs
  split at hs
  case isFalse => cases hs
  rename_i hnone
  have hnocur : ∀ c, s.current c = some a → s.tlb c = [] := by
    intro c hc
    obtain ⟨q, hq, -⟩ := h.coherent c a hc
    exact nomatch hnone.symm.trans hq
  unfold AddrSpace.copy at hs
  simp only at hs
  have hfit' : PrepareFits s.phys.ram { emptySpace with
      vbase1 := as.vbase1, npages1 := as.npages1, vbase2 := as.vbase2, npages2 := as.npages2 } := hfit
  cases hp : AddrSpace.prepareLoad { emptySpace with
      vbase1 := as.vbase1, npages1 := as.npages1, vbase2 := as.vbase2, npages2 := as.npages2 } s.phys with
  | error e => simp [hp] at hs
  | ok y =>
    obtain ⟨o, as', m'⟩ := y
    have hprep := prepareLoad_prepared h.good h.low h.spread (range_none hnone .first) (range_none hnone .second)
      (range_none hnone .stack) (by simp) (by simp) (by simp) hfit' hp
    cases o with
    | some e =>
      -- the memory got by then is lost
      simp only [hp, Except.ok.injEq] at hs
      subst hs
      have hspaces : update s.spaces a none = s.spaces := by rw [← hnone, update_eq_self]
      rw [hspaces]
      refine ⟨⟨hprep.good, h.low.trans hprep.grows, h.spread.raise hprep.grows, h.fresh, h.order, h.coherent⟩, ?_⟩
      intro b _
      exact ⟨rfl, fun q hq p x hx => hprep.mem x (h.below hq hx)⟩
    | none =>
      simp only [hp, Except.ok.injEq] at hs
      subst hs
      obtain ⟨h1, h2, h3⟩ := hprep.above rfl
      refine ⟨prepared_inv h hprep _ hnocur, ?_⟩
      intro b hb
      refine ⟨update_of_ne (Ne.symm hb) _ _, ?_⟩
      intro q hq p x hx
      have hlt := h.below hq hx
      simp only
      rw [memmove_of_lt (by omega), memmove_of_lt (by omega), memmove_of_lt (by omega), hprep.mem x hlt]

omit [DecidableEq C] in
theorem destroy_ok (h : Inv first s) (hp : ∀ c, s.current c ≠ some a) :
    StepOk first (.destroy a) s { s with spaces := update s.spaces a none } := by
  constructor
  · refine ⟨h.good, h.low, h.spread.shrink ?_, h.fresh, ?_, ?_⟩
    · intro x
      cases x with
      | part q p =>
        by_cases hq : q = a
        · subst hq
          exact .inl (by simp [Machine.range, rangeOf])
        · exact .inr (by simp [Machine.range, rangeOf, hq])
      | kernel k => exact .inr ⟨rfl, le_refl _⟩
    · intro q as' hq
      by_cases hqa : q = a
      · subst hqa
        simp at hq
      · simp only [update_of_ne hqa] at hq
        exact h.order q as' hq
    · intro c q hc
      obtain ⟨as', hq, hco⟩ := h.coherent c q hc
      have hqa : q ≠ a := by
        rintro rfl
        exact hp c hc
      exact ⟨as', by simpa [hqa] using hq, hco⟩
  · intro b hb
    exact .of_mem (update_of_ne (Ne.symm hb) _ _) rfl

omit [DecidableEq C] in
theorem allocKpages_ok {n : ℕ} (h : Inv first s) (hw : s.phys.ram.NoWrap n) :
    StepOk first (.allocKpages n) s (s.allocKpages n) := by
  have hspec := stealmem_spec hw
  unfold Machine.allocKpages
  generalize s.phys.ram.stealmem n = r at hspec
  obtain rfl | ⟨rfl, hle⟩ := hspec
  · exact ⟨h, fun b _ => .of_mem rfl rfl⟩
  · have hne : s.phys.ram.firstpaddr ≠ 0 := Nat.ne_of_gt h.good.positive
    simp only [if_neg hne]
    refine ⟨⟨h.good.advance hle, h.low.trans (Nat.le_add_right _ _), ?_, ?_, h.order, h.coherent⟩,
      fun b _ => .of_mem rfl rfl⟩
    · have hbump := h.spread.bump (a := .kernel s.nkernel) (n := n * pageSize) h.low (le_refl _)
      convert hbump using 1
      funext x
      cases x with
      | part q p => simp [Machine.range, rangeOf]
      | kernel k =>
        by_cases hk : k = s.nkernel
        · subst hk
          simp [Machine.range, rangeOf]
        · simp [Machine.range, rangeOf, hk]
    · intro k hk
      simp only at hk
      have hne : k ≠ s.nkernel := by omega
      simpa [hne] using h.fresh k (by omega)

omit [DecidableEq A] [DecidableEq C] in
/-- A store within one owner's range is not seen in the parts of another's. -/
theorem untouched_of_apart {x : Owner A} {y v : ℕ} (h : Inv first s) (hy : Inside (s.range x) y)
    (hb : ∀ p, x ≠ .part b p) : Untouched b s { s with phys := { s.phys with mem := update s.phys.mem y v } } := by
  refine ⟨rfl, ?_⟩
  intro as hq p z hz
  refine update_of_ne ?_ _ _
  rintro rfl
  have hapart := h.spread.apart x (.part b p) (hb p)
  rw [range_part hq] at hapart
  exact hapart.not_inside hy hz

omit [DecidableEq C] [DecidableEq A] in
theorem kernelStore_ok {k offset v : ℕ} (h : Inv first s) (hs : s.kernelStore k offset v = .ok s') :
    StepOk first (.kernelStore k offset v) s s' := by
  unfold Machine.kernelStore at hs
  split at hs
  case isFalse => cases hs
  rename_i hin
  cases hs
  refine ⟨⟨h.good, h.low, h.spread, h.fresh, h.order, h.coherent⟩, ?_⟩
  intro b _
  refine untouched_of_apart (x := .kernel k) h ?_ (by simp)
  exact ⟨Nat.le_add_right _ _, Nat.add_lt_add_left hin _⟩

omit [DecidableEq A] in
theorem activate_ok {o : Option A} (h : Inv first s) (hs : s.activate c o = .ok s') :
    StepOk first (.activate c o) s s' := by
  cases o with
  | none =>
    cases hs
    refine ⟨⟨h.good, h.low, h.spread, h.fresh, h.order, ?_⟩, fun b _ => .of_mem rfl rfl⟩
    intro d q hd
    by_cases hdc : d = c
    · subst hdc
      simp at hd
    · simp only [update_of_ne hdc] at hd
      exact h.coherent d q hd
  | some a =>
    simp only [Machine.activate, Machine.withSpace] at hs
    cases ha : s.spaces a with
    | none => simp [ha] at hs
    | some as =>
      simp only [ha, Except.ok.injEq] at hs
      subst hs
      refine ⟨⟨h.good, h.low, h.spread, h.fresh, h.order, ?_⟩, fun b _ => .of_mem rfl rfl⟩
      intro d q hd
      by_cases hdc : d = c
      · subst hdc
        simp only [update_self, Option.some.injEq] at hd
        subst hd
        exact ⟨as, ha, by simp [Coherent]⟩
      · simp only [update_of_ne hdc] at hd
        obtain ⟨as', hq, hco⟩ := h.coherent d q hd
        exact ⟨as', hq, by simpa [Coherent, hdc] using hco⟩

omit [DecidableEq A] in
theorem fault_ok {va : ℕ} (h : Inv first s) (hs : s.fault c va = .ok s') : StepOk first (.fault c va) s s' := by
  have hsame : StepOk first (.fault c va) s s := ⟨h, fun b _ => .of_mem rfl rfl⟩
  unfold Machine.fault at hs
  cases hc : s.current c with
  | none =>
    simp only [hc, Except.ok.injEq] at hs
    exact hs ▸ hsame
  | some a =>
    obtain ⟨as, ha, hco⟩ := h.coherent c a hc
    simp only [hc, Machine.withSpace, ha] at hs
    split at hs
    case isFalse => cases hs
    rename_i hset
    cases ht : as.translate va with
    | none =>
      simp only [ht, Except.ok.injEq] at hs
      exact hs ▸ hsame
    | some paddr =>
      simp only [ht] at hs
      split at hs
      case isFalse => cases hs
      split at hs
      case isFalse =>
        cases hs
        exact hsame
      cases hs
      refine ⟨⟨h.good, h.low, h.spread, h.fresh, h.order, ?_⟩, fun b _ => .of_mem rfl rfl⟩
      intro d q hd
      obtain ⟨as', hq, hco'⟩ := h.coherent d q hd
      refine ⟨as', hq, ?_⟩
      by_cases hdc : d = c
      · subst hdc
        obtain rfl : a = q := Option.some.inj (hc.symm.trans hd)
        obtain rfl : as = as' := Option.some.inj (ha.symm.trans hq)
        intro e he
        simp only [update_self] at he
        obtain rfl | he := List.mem_cons.mp he
        · exact ⟨hset, by rw [translate_page, ht]⟩
        · exact hco e he
      · simpa [Coherent, hdc] using hco'

omit [DecidableEq A] [DecidableEq C] in
theorem lookup_mem {tlb : Tlb} {page paddr : ℕ} (h : tlb.lookup page = some paddr) : (page, paddr) ∈ tlb := by
  obtain ⟨e, he, rfl⟩ := Option.map_eq_some_iff.mp h
  have hpage : e.1 = page := by simpa using List.find?_some he
  rw [← hpage]
  exact List.mem_of_find?_eq_some he

omit [DecidableEq A] [DecidableEq C] in
/-- The frames in the TLB of a CPU are in the parts of the address space that is current. -/
theorem Inv.frame (h : Inv first s) (hc : s.current c = some a) {e : ℕ × ℕ} (he : e ∈ s.tlb c) :
    ∃ as, s.spaces a = some as ∧ as.IsSetUp ∧ as.translate e.1 = some e.2 ∧ FrameIn as e.2 := by
  obtain ⟨as, ha, hco⟩ := h.coherent c a hc
  obtain ⟨hset, htr⟩ := hco e he
  exact ⟨as, ha, hset, htr, translate_frame hset (part_bound h ha) htr⟩

omit [DecidableEq A] [DecidableEq C] in
theorem store_ok {va v : ℕ} (h : Inv first s) (hs : s.store c va v = .ok s') : StepOk first (.store c va v) s s' := by
  unfold Machine.store at hs
  cases hc : s.current c with
  | none => simp [hc] at hs
  | some a =>
    cases hl : (s.tlb c).lookup (va / pageSize * pageSize) with
    | none => simp [hc, hl] at hs
    | some paddr =>
      simp only [hc, hl, Except.ok.injEq] at hs
      subst hs
      obtain ⟨as, ha, -, -, hframe⟩ := h.frame hc (lookup_mem hl)
      obtain ⟨p, hin⟩ : ∃ p, Inside (as.part p) (paddr + va % pageSize) := hframe.inside
      refine ⟨⟨h.good, h.low, h.spread, h.fresh, h.order, h.coherent⟩, ?_⟩
      intro b hb
      refine untouched_of_apart (x := .part a p) h (by rwa [range_part ha]) ?_
      rintro q heq
      cases heq
      exact hb hc

theorem step_ok {x : Act A C} (h : Inv first s) (hp : Proper x s) (hf : Fits x s) (hs : step x s = .ok s') :
    StepOk first x s s' := by
  cases x with
  | create a => exact create_ok h hs
  | defineRegion a vaddr sz =>
    simp only [step, Machine.withSpace] at hs
    cases ha : s.spaces a with
    | none => simp [ha] at hs
    | some as =>
      simp only [ha, Except.ok.injEq] at hs
      exact hs ▸ define_ok h ha (hf as ha)
  | prepareLoad a =>
    simp only [step, Machine.withSpace] at hs
    cases ha : s.spaces a with
    | none => simp [ha] at hs
    | some as =>
      simp only [ha] at hs
      exact prepareLoad_ok h ha (hf as ha) hs
  | copy old new =>
    simp only [step, Machine.withSpace] at hs
    cases ha : s.spaces old with
    | none => simp [ha] at hs
    | some as =>
      simp only [ha] at hs
      exact copy_ok h (hf as ha) hs
  | destroy a =>
    simp only [step, Machine.withSpace] at hs
    cases ha : s.spaces a with
    | none => simp [ha] at hs
    | some as =>
      simp only [ha, Except.ok.injEq] at hs
      exact hs ▸ destroy_ok h hp
  | allocKpages n =>
    simp only [step, Except.ok.injEq] at hs
    exact hs ▸ allocKpages_ok h hf
  | kernelStore k offset v => exact kernelStore_ok h hs
  | activate c o => exact activate_ok h hs
  | fault c va => exact fault_ok h hs
  | store c va v => exact store_ok h hs

/--
Ranges are apart and in RAM, each frame in a TLB is in a range of the address
space that is current on its CPU, and what the CPU reads there is what that
address space has.
-/
structure Isolated (first : ℕ) (s : Machine A C) : Prop where
  ram : s.phys.ram.firstpaddr ≤ s.phys.ram.lastpaddr
  apart : Spread first s.phys.ram.firstpaddr s.range
  frames : ∀ c a, s.current c = some a → ∀ e ∈ s.tlb c, ∃ p,
    (s.range (.part a p)).1 ≤ e.2 ∧ e.2 + pageSize ≤ (s.range (.part a p)).1 + (s.range (.part a p)).2
  reads : ∀ c a, s.current c = some a → ∀ va paddr, (s.tlb c).lookup (va / pageSize * pageSize) = some paddr →
    s.view a va = some (s.phys.mem (paddr + va % pageSize))

omit [DecidableEq A] [DecidableEq C] in
theorem Inv.isolated (h : Inv first s) : Isolated first s where
  ram := h.good.fits
  apart := h.spread
  frames c a hc e he := by
    obtain ⟨as, ha, -, -, -, p, hframe⟩ := h.frame hc he
    exact ⟨p, by rwa [range_part ha]⟩
  reads c a hc va paddr hl := by
    obtain ⟨as, ha, hset, htr, -⟩ := h.frame hc (lookup_mem hl)
    rw [translate_page] at htr
    simp [Machine.view, ha, hset, htr]

/--
While nothing takes `firstpaddr` past 2^32 and no region grows after its memory
has been got, every state reached is isolated, and no step, a store least of
all, changes what the processes read that it is not for.
-/
theorem isolation {last : ℕ} (hram : (Ram.mk first last).Good) {mem : ℕ → ℕ} {xs : List (Act A C)}
    (hg : Guarded step (fun x s => Proper x s ∧ Fits x s) xs (boot first last mem))
    (hr : run step xs (boot first last mem) = .ok s) :
    Isolated first s ∧ ∀ x s', Proper x s → Fits x s → step x s = .ok s' →
      Isolated first s' ∧ ∀ b, ¬ActsFor x s b → ∀ va, s'.view b va = s.view b va := by
  have hinv : Inv first s := by
    refine guarded_invariant ?_ hg (boot_inv hram mem) hr
    intro x u u' hi hx hs
    exact (step_ok hi hx.1 hx.2 hs).inv
  refine ⟨hinv.isolated, ?_⟩
  intro x s' hp hf hs
  have hstep := step_ok hinv hp hf hs
  exact ⟨hstep.inv.isolated, fun b hb va => view_untouched hinv (hstep.frame b hb) va⟩

instance decidableProper [Fintype C] : ∀ (x : Act A C) (s : Machine A C), Decidable (Proper x s)
  | .create _, _ => isTrue trivial
  | .defineRegion _ vaddr sz, _ => inferInstanceAs (Decidable (vaddr < 2 ^ 32 ∧ sz < 2 ^ 32))
  | .prepareLoad _, _ => isTrue trivial
  | .copy _ _, _ => isTrue trivial
  | .destroy a, s => inferInstanceAs (Decidable (∀ c, s.current c ≠ some a))
  | .allocKpages npages, _ => inferInstanceAs (Decidable (npages < 2 ^ 32))
  | .kernelStore _ _ _, _ => isTrue trivial
  | .activate _ _, _ => isTrue trivial
  | .fault _ _, _ => isTrue trivial
  | .store _ _ _, _ => isTrue trivial

instance decidableDefineFits (as : AddrSpace) (vaddr sz : ℕ) : Decidable (DefineFits as vaddr sz) :=
  inferInstanceAs (Decidable (as.pbase1 = 0 ∨ as.vbase1 ≠ 0 ∧ as.vbase2 ≠ 0 ∨
    as.vbase1 = 0 ∧ regionPages vaddr sz ≤ as.npages1 ∨
      as.vbase1 ≠ 0 ∧ as.vbase2 = 0 ∧ regionPages vaddr sz ≤ as.npages2))

instance decidableFits : ∀ (x : Act A C) (s : Machine A C), Decidable (Fits x s)
  | .create _, _ => isTrue trivial
  | .defineRegion a vaddr sz, s => inferInstanceAs (Decidable (∀ as ∈ s.spaces a, DefineFits as vaddr sz))
  | .prepareLoad a, s => inferInstanceAs (Decidable (∀ as ∈ s.spaces a, PrepareFits s.phys.ram as))
  | .copy old _, s => inferInstanceAs (Decidable (∀ as ∈ s.spaces old, PrepareFits s.phys.ram as))
  | .destroy _, _ => isTrue trivial
  | .allocKpages npages, s => inferInstanceAs (Decidable (s.phys.ram.NoWrap npages))
  | .kernelStore _ _ _, _ => isTrue trivial
  | .activate _ _, _ => isTrue trivial
  | .fault _ _, _ => isTrue trivial
  | .store _ _ _, _ => isTrue trivial

/-- A process with two small regions. -/
def smallProgram (a : ℕ) : List (Act ℕ Unit) :=
  [.create a, .defineRegion a 0x400000 4096, .defineRegion a 0x10000000 100, .prepareLoad a]

def forked : List (Act ℕ Unit) :=
  smallProgram 1 ++ [.copy 1 2, .activate () (some 2), .fault () 0x400000]

/-- A process and its copy. -/
theorem isolation_forked :
    ∃ s, run step forked (boot 0x40000 0x140000 (fun _ => 0)) = .ok s ∧
      s.range (.part 1 .first) = (0x40000, 4096) ∧ s.range (.part 2 .first) = (0x54000, 4096) ∧
      Isolated 0x40000 s ∧ ∀ x s', Proper x s → Fits x s → step x s = .ok s' →
        Isolated 0x40000 s' ∧ ∀ b, ¬ActsFor x s b → ∀ va, s'.view b va = s.view b va := by
  have hr : ∃ s, run step forked (boot 0x40000 0x140000 (fun _ => 0)) = .ok s ∧
      s.range (.part 1 .first) = (0x40000, 4096) ∧ s.range (.part 2 .first) = (0x54000, 4096) := by
    decide +kernel
  obtain ⟨s, hr, h1, h2⟩ := hr
  exact ⟨s, hr, h1, h2, isolation (by decide) (by decide +kernel) hr⟩

/-- A program whose first region takes `firstpaddr` back to 0x40000, and whose second is refused. -/
def greedyProgram : List (Act ℕ Unit) :=
  [.create 2, .defineRegion 2 0x400000 0xfffec000, .defineRegion 2 0x10000000 0x10000000, .prepareLoad 2]

def robbed : List (Act ℕ Unit) :=
  smallProgram 1 ++ greedyProgram ++ smallProgram 3 ++ [.activate () (some 3), .fault () 0x400000]

/--
The program that is refused has the frames of the first process given to the
third, and what the third one stores the first one reads.
-/
theorem frames_shared :
    (Ram.mk 0x40000 0x140000).Good ∧ Guarded step Proper robbed (boot 0x40000 0x140000 (fun _ => 0)) ∧
      ∃ s, run step robbed (boot 0x40000 0x140000 (fun _ => 0)) = .ok s ∧
        s.range (.part 1 .first) = (0x40000, 4096) ∧ s.range (.part 3 .first) = (0x40000, 4096) ∧
        s.current () = some 3 ∧ s.view 1 0x400000 = some 0 ∧
        ∃ s', step (.store () 0x400000 7) s = .ok s' ∧ s'.view 1 0x400000 = some 7 := by
  decide +kernel

end OS161.AddressSpace
