import OS161.SharedDescriptor

/-!
# The calls have the results of some order, and which one

The lock of the descriptor is held from before a call's first look at the
position until after its last write to it. Whatever the interleaving, the calls
behave as if executed one after another in the order in which they took it.
-/

set_option autoImplicit false

namespace OS161.DescriptorOrder

open Function OS161.Vfs OS161.Serial OS161.SharedDescriptor

variable {ω : Type} (v : Vnode ω) (space : ℕ → ℕ)

/-- An answer together with the position it leaves. -/
def withLeft (x : Answer × Desc ω) : (Answer × Int64) × Desc ω := ((x.1, x.2.seekLocation), x.2)

/-- The steps of one call between taking and giving back the lock. -/
def micro (x : ℕ × Call × Inside) (d : Desc ω) : (ℕ × Call × Inside) × Desc ω :=
  match x with
  | (t, c, .locked) => ((t, c, (checked v c d).1), (checked v c d).2)
  | (t, c, .wantFile y) => ((t, c, .inFile y), d)
  | (t, c, .inFile y) => ((t, c, .leaveFile (moveData v space t y d).1), (moveData v space t y d).2)
  | (t, c, .leaveFile a) => ((t, c, .leaving a), d)
  | (t, c, .leaving a) => ((t, c, .leaving a), d)

def result (x : ℕ × Call × Inside) (d : Desc ω) : Option (Answer × Int64) :=
  match x with
  | (_, _, .leaving a) => some (a, d.seekLocation)
  | _ => none

/-- What a call has still to do. -/
def rest (x : ℕ × Call × Inside) (d : Desc ω) : (Answer × Int64) × Desc ω :=
  match x with
  | (t, c, .locked) => withLeft (lockedCall v space t c d)
  | (t, _, .wantFile y) => withLeft (moveData v space t y d)
  | (t, _, .inFile y) => withLeft (moveData v space t y d)
  | (_, _, .leaveFile a) => withLeft (a, d)
  | (_, _, .leaving a) => withLeft (a, d)

theorem rest_checked (t : ℕ) (c : Call) (d : Desc ω) :
    rest v space (t, c, (checked v c d).1) (checked v c d).2 = withLeft (lockedCall v space t c d) := by
  cases c with
  | read buf size =>
    by_cases hf : d.flags = O_WRONLY
    · simp [checked, lockedCall, readFromDisk, rest, hf]
    · simp [checked, lockedCall, readFromDisk, rest, hf]
  | write buf size =>
    by_cases hf : d.flags = O_RDONLY
    · simp [checked, lockedCall, writeToDisk, rest, hf]
    · simp [checked, lockedCall, writeToDisk, rest, hf]
  | lseek pos whence => rfl

def body : Body (ℕ × Call) (ℕ × Call × Inside) (Desc ω) (Answer × Int64) where
  enter x := (x.1, x.2, .locked)
  micro := micro v space
  result := result
  rest := rest v space
  rest_micro := by
    rintro ⟨t, c, i⟩ d -
    cases i with
    | locked => exact rest_checked v space t c d
    | _ => rfl
  rest_result := by
    rintro ⟨t, c, i⟩ d r hi
    cases i with
    | leaving a =>
      cases hi
      rfl
    | _ => cases hi

def Inside.holdsFile : Inside → Bool
  | .inFile _ => true
  | .leaveFile _ => true
  | _ => false

/-- Thread `t` holds the lock of the descriptor, and no one else is inside. -/
structure Held (s : State ω) (t : ℕ) (c : Call) (i : Inside) : Prop where
  lk : s.lk = some t
  pc : s.pc t = .inside c i
  alone : ∀ u, u ≠ t → ∀ c i, s.pc u ≠ .inside c i
  file : s.fileLk = if Inside.holdsFile i then some t else none

structure Free (s : State ω) : Prop where
  lk : s.lk = none
  file : s.fileLk = none
  pc : ∀ u c i, s.pc u ≠ .inside c i

def calls (log : List Entry) : List (ℕ × Call) := log.map (fun x => (x.thread, x.call))

def outcomes (log : List Entry) : List (Answer × Int64) := log.map (fun x => (x.answer, x.left))

/-- At any moment the finished calls are in order, and at most one is under way. -/
inductive Ordered (d₀ : Desc ω) (s : State ω) : Prop
  | free : Free s → s.order = calls s.log →
      Serialised (body v space) d₀ s.order (outcomes s.log) none s.desc → Ordered d₀ s
  | held {t : ℕ} {c : Call} {i : Inside} : Held s t c i → s.order = calls s.log ++ [(t, c)] →
      Serialised (body v space) d₀ s.order (outcomes s.log) (some (t, c, i)) s.desc → Ordered d₀ s

/-- Only calls with a buffer get as far as the lock. -/
structure Sifted (s : State ω) : Prop where
  calling : ∀ t c, s.pc t = .calling c → c.null = false
  order : ∀ x ∈ s.order, x.2.null = false
  refused : ∀ x ∈ s.refused, x.2.1.null = true ∧ x.2.2 = ⟨.error .efault, none⟩

variable {v space} {d₀ : Desc ω} {s s' : State ω}

theorem Held.self {t u : ℕ} {c c' : Call} {i i' : Inside} (h : Held s t c i)
    (hu : s.pc u = .inside c' i') : u = t ∧ c' = c ∧ i' = i := by
  by_cases hut : u = t
  · subst hut
    rw [h.pc] at hu
    cases hu
    exact ⟨rfl, rfl, rfl⟩
  · exact absurd hu (h.alone u hut c' i')

/-- Whoever is inside is the holder. -/
theorem Ordered.inside (h : Ordered v space d₀ s) {t : ℕ} {c : Call} {i : Inside}
    (ht : s.pc t = .inside c i) : Held s t c i ∧ s.order = calls s.log ++ [(t, c)] ∧
      Serialised (body v space) d₀ s.order (outcomes s.log) (some (t, c, i)) s.desc := by
  cases h with
  | free hf => exact absurd ht (hf.pc t c i)
  | held hh horder hser =>
    obtain ⟨rfl, rfl, rfl⟩ := hh.self ht
    exact ⟨hh, horder, hser⟩

/-- The holder takes a step of its call. -/
theorem Ordered.micro (h : Ordered v space d₀ s) {t : ℕ} {c : Call} {i j : Inside}
    (ht : s.pc t = .inside c i) (hi : ∀ a, i ≠ .leaving a)
    (hmicro : (body v space).micro (t, c, i) s.desc = ((t, c, j), s'.desc))
    (hpc : s'.pc = update s.pc t (.inside c j)) (hlk : s'.lk = s.lk)
    (hfile : s'.fileLk = if Inside.holdsFile j then some t else none)
    (horder : s'.order = s.order) (hlog : s'.log = s.log) : Ordered v space d₀ s' := by
  obtain ⟨hh, ho, hser⟩ := h.inside ht
  refine .held (t := t) (c := c) (i := j) ⟨by rw [hlk, hh.lk], by rw [hpc, update_self], ?_, hfile⟩
    (by rw [horder, hlog, ho]) ?_
  · intro u hu c' i'
    rw [hpc, update_of_ne hu]
    exact hh.alone u hu c' i'
  · have hres : (body v space).result (t, c, i) s.desc = none := by
      cases i with
      | leaving a => exact absurd rfl (hi a)
      | _ => rfl
    have hnext := hser.micro hres
    rw [hmicro] at hnext
    rw [horder, hlog]
    exact hnext

/-- A thread outside goes on outside. -/
theorem Ordered.outside (h : Ordered v space d₀ s) {t : ℕ} {pc : Pc}
    (ht : ∀ c i, s.pc t ≠ .inside c i) (hpc : ∀ c i, pc ≠ .inside c i)
    (hdesc : s'.desc = s.desc) (hpc' : s'.pc = update s.pc t pc) (hlk : s'.lk = s.lk)
    (hfile : s'.fileLk = s.fileLk) (horder : s'.order = s.order) (hlog : s'.log = s.log) :
    Ordered v space d₀ s' := by
  have hinside : ∀ u c i, s'.pc u = .inside c i → s.pc u = .inside c i := by
    intro u c i hu
    rw [hpc'] at hu
    by_cases hut : u = t
    · rw [hut, update_self] at hu
      exact absurd hu (hpc c i)
    · rwa [update_of_ne hut] at hu
  cases h with
  | free hf ho hser =>
    refine .free ⟨by rw [hlk, hf.lk], by rw [hfile, hf.file], ?_⟩ (by rw [horder, hlog, ho]) ?_
    · intro u c i hu
      exact hf.pc u c i (hinside u c i hu)
    · rw [horder, hlog, hdesc]
      exact hser
  | @held u c i hh ho hser =>
    have hut : u ≠ t := by
      rintro rfl
      exact ht c i hh.pc
    refine .held (t := u) (c := c) (i := i) ⟨by rw [hlk, hh.lk], by rw [hpc', update_of_ne hut, hh.pc], ?_,
      by rw [hfile, hh.file]⟩ (by rw [horder, hlog, ho]) ?_
    · intro w hw c' i' hwi
      exact hh.alone w hw c' i' (hinside w c' i' hwi)
    · rw [horder, hlog, hdesc]
      exact hser

theorem acquire_ordered {t : ℕ} {c : Call} (h : Ordered v space d₀ s) (hfree : s.lk = none) :
    Ordered v space d₀ { s with
      lk := some t, pc := update s.pc t (.inside c .locked), order := s.order ++ [(t, c)] } := by
  cases h with
  | held hh =>
    rw [hh.lk] at hfree
    cases hfree
  | free hf ho hser =>
    refine .held (t := t) (c := c) (i := .locked) ⟨rfl, update_self .., ?_, hf.file⟩ ?_ ?_
    · intro u hu c' i'
      simp only [update_of_ne hu]
      exact hf.pc u c' i'
    · simp only [ho]
    · exact hser.acquire (t, c)

theorem release_ordered {t : ℕ} {c : Call} {a : Answer} (h : Ordered v space d₀ s)
    (ht : s.pc t = .inside c (.leaving a)) : Ordered v space d₀ { s with
      lk := none, pc := update s.pc t .idle, log := s.log ++ [⟨t, c, a, s.desc.seekLocation⟩] } := by
  obtain ⟨hh, ho, hser⟩ := h.inside ht
  refine .free ⟨rfl, by simpa [Inside.holdsFile] using hh.file, ?_⟩ ?_ ?_
  · intro u c' i' hu
    by_cases hut : u = t
    · simp [hut] at hu
    · simp only [update_of_ne hut] at hu
      exact hh.alone u hut c' i' hu
  · simp [ho, calls]
  · have hres : (body v space).result (t, c, .leaving a) s.desc = some (a, s.desc.seekLocation) := rfl
    have hnext := hser.release hres
    simpa [outcomes] using hnext

theorem step_ordered {a : Action} (h : Ordered v space d₀ s) (hs : step v space a s = .ok s') :
    Ordered v space d₀ s' := by
  cases a with
  | invoke t c =>
    simp only [step] at hs
    split at hs
    · next hpc =>
      cases hs
      split
      · exact h.outside (t := t) (by simp [hpc]) (show ∀ c i, Pc.idle ≠ .inside c i by simp) rfl
          (by simp [← hpc]) rfl rfl rfl rfl
      · exact h.outside (t := t) (by simp [hpc]) (show ∀ c' i, Pc.calling c ≠ .inside c' i by simp) rfl rfl
          rfl rfl rfl rfl
    · cases hs
  | acquire t =>
    simp only [step] at hs
    split at hs
    · next hlk =>
      cases hs
      exact acquire_ordered h hlk
    · cases hs
  | check t =>
    simp only [step] at hs
    split at hs
    · next c hpc =>
      cases hs
      obtain ⟨hh, -, -⟩ := h.inside hpc
      have hfile : Inside.holdsFile (checked v c s.desc).1 = false := by
        cases c with
        | lseek pos whence => rfl
        | _ =>
          simp only [checked]
          split <;> rfl
      refine h.micro hpc (by simp) rfl rfl rfl ?_ rfl rfl
      rw [hfile]
      exact hh.file
    · cases hs
  | acquireFile t =>
    simp only [step] at hs
    split at hs
    · next c x hpc hlk =>
      cases hs
      exact h.micro hpc (by simp) rfl rfl rfl rfl rfl rfl
    · cases hs
  | transfer t =>
    simp only [step] at hs
    split at hs
    · next c x hpc =>
      cases hs
      obtain ⟨hh, -, -⟩ := h.inside hpc
      exact h.micro hpc (by simp) rfl rfl rfl hh.file rfl rfl
    · cases hs
  | releaseFile t =>
    simp only [step] at hs
    split at hs
    · next c a hpc =>
      split at hs
      · cases hs
        exact h.micro hpc (by simp) rfl rfl rfl rfl rfl rfl
      · cases hs
    · cases hs
  | release t =>
    simp only [step] at hs
    split at hs
    · next c a hpc =>
      split at hs
      · cases hs
        exact release_ordered h hpc
      · cases hs
    · cases hs

theorem step_sifted {a : Action} (h : Sifted s) (hs : step v space a s = .ok s') : Sifted s' := by
  -- only `invoke` brings a new call in, and only `acquire` adds to the order
  have hinside : ∀ {s' : State ω} {t : ℕ} {pc : Pc}, (∀ c, pc ≠ .calling c) →
      s'.pc = update s.pc t pc → s'.order = s.order → s'.refused = s.refused → Sifted s' := by
    intro s' t pc hpc hpc' horder hrefused
    refine ⟨?_, by rw [horder]; exact h.order, by rw [hrefused]; exact h.refused⟩
    intro u c hu
    rw [hpc'] at hu
    by_cases hut : u = t
    · rw [hut, update_self] at hu
      exact absurd hu (hpc c)
    · rw [update_of_ne hut] at hu
      exact h.calling u c hu
  cases a with
  | invoke t c =>
    simp only [step] at hs
    split at hs
    · cases hs
      split
      · next hnull =>
        refine ⟨h.calling, h.order, ?_⟩
        intro x hx
        rcases List.mem_append.mp hx with hx | hx
        · exact h.refused x hx
        · rw [List.mem_singleton.mp hx]
          exact ⟨hnull, rfl⟩
      · next hnull =>
        refine ⟨?_, h.order, h.refused⟩
        intro u c' hu
        by_cases hut : u = t
        · simp only [hut, update_self] at hu
          cases hu
          simpa using hnull
        · simp only [update_of_ne hut] at hu
          exact h.calling u c' hu
    · cases hs
  | acquire t =>
    simp only [step] at hs
    split at hs
    · next c hpc _ =>
      cases hs
      refine ⟨?_, ?_, h.refused⟩
      · intro u c' hu
        by_cases hut : u = t
        · simp [hut] at hu
        · simp only [update_of_ne hut] at hu
          exact h.calling u c' hu
      · intro x hx
        rcases List.mem_append.mp hx with hx | hx
        · exact h.order x hx
        · rw [List.mem_singleton.mp hx]
          exact h.calling t c hpc
    · cases hs
  | check t =>
    simp only [step] at hs
    split at hs
    · cases hs
      exact hinside (by simp) rfl rfl rfl
    · cases hs
  | acquireFile t =>
    simp only [step] at hs
    split at hs
    · cases hs
      exact hinside (by simp) rfl rfl rfl
    · cases hs
  | transfer t =>
    simp only [step] at hs
    split at hs
    · cases hs
      exact hinside (by simp) rfl rfl rfl
    · cases hs
  | releaseFile t =>
    simp only [step] at hs
    split at hs
    · split at hs
      · cases hs
        exact hinside (by simp) rfl rfl rfl
      · cases hs
    · cases hs
  | release t =>
    simp only [step] at hs
    split at hs
    · split at hs
      · cases hs
        exact hinside (by simp) rfl rfl rfl
      · cases hs
    · cases hs

/-- The holder of the lock is never held up: the lock of the file is free when
it comes to it. -/
theorem held_advances {t : ℕ} {c : Call} {i : Inside} (h : Held s t c i) :
    ∃ a s', a.thread = t ∧ step v space a s = .ok s' := by
  have hfile := h.file
  cases i with
  | locked => exact ⟨.check t, _, rfl, by simp only [step, h.pc]; rfl⟩
  | wantFile x =>
    have hnone : s.fileLk = none := hfile
    exact ⟨.acquireFile t, _, rfl, by simp only [step, h.pc, hnone]; rfl⟩
  | inFile x => exact ⟨.transfer t, _, rfl, by simp only [step, h.pc]; rfl⟩
  | leaveFile a =>
    have hheld : s.fileLk = some t := hfile
    exact ⟨.releaseFile t, _, rfl, by simp only [step, h.pc, hheld, if_true]; rfl⟩
  | leaving a => exact ⟨.release t, _, rfl, by simp only [step, h.pc, h.lk, if_true]; rfl⟩

end OS161.DescriptorOrder
