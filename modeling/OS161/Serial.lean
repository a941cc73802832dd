import Mathlib.Logic.Basic

/-!
# Calls under one lock

A call is carried out in small steps by the thread that holds a lock, and only
the holder touches the shared state. `rest` says what a call that has come to
some point will still do if no one interferes; the calls then have the results
of executing them one after another, in the order in which they took the lock.
-/

set_option autoImplicit false

namespace OS161.Serial

variable {κ l σ ρ : Type*}

/-- The body of a call: where it begins, its steps, when it is over and with
which result, and what is left to do at each point. -/
structure Body (κ l σ ρ : Type*) where
  enter : κ → l
  micro : l → σ → l × σ
  result : l → σ → Option ρ
  rest : l → σ → ρ × σ
  rest_micro : ∀ x s, result x s = none → rest (micro x s).1 (micro x s).2 = rest x s
  rest_result : ∀ x s r, result x s = some r → rest x s = (r, s)

def Body.exec (b : Body κ l σ ρ) (c : κ) (s : σ) : ρ × σ := b.rest (b.enter c) s

/-- The calls one after another. -/
def serial (exec : κ → σ → ρ × σ) : List κ → σ → List ρ × σ
  | [], s => ([], s)
  | c::cs, s =>
    let (r, s') := exec c s
    let (rs, t) := serial exec cs s'
    (r::rs, t)

theorem serial_snoc (exec : κ → σ → ρ × σ) (cs : List κ) (c : κ) (s : σ) :
    serial exec (cs++[c]) s =
      ((serial exec cs s).1 ++ [(exec c (serial exec cs s).2).1], (exec c (serial exec cs s).2).2) := by
  induction cs generalizing s with
  | nil => rfl
  | cons d cs ih => simp [serial, ih]

theorem serial_congr {exec exec' : κ → σ → ρ × σ} {cs : List κ} (h : ∀ c ∈ cs, exec c = exec' c)
    (s : σ) : serial exec cs s = serial exec' cs s := by
  induction cs generalizing s with
  | nil => rfl
  | cons c cs ih =>
    have hc := h c (by simp)
    have hcs := fun s => ih (fun d hd => h d (by simp [hd])) s
    simp [serial, hc, hcs]

/-- The lock has been taken for `order`, the calls of `done` are over, and the
holder, if there is one, has come to `inside`. -/
def Serialised (b : Body κ l σ ρ) (s₀ : σ) (order : List κ) (done : List ρ) : Option l → σ → Prop
  | none, s => serial b.exec order s₀ = (done, s)
  | some x, s => ∃ before c s₁, order = before++[c] ∧ serial b.exec before s₀ = (done, s₁) ∧
      b.rest x s = b.exec c s₁

variable {b : Body κ l σ ρ} {s₀ s : σ} {order : List κ} {done : List ρ} {x : l}

theorem Serialised.acquire (h : Serialised b s₀ order done none s) (c : κ) :
    Serialised b s₀ (order++[c]) done (some (b.enter c)) s :=
  ⟨order, c, s, rfl, h, rfl⟩

theorem Serialised.micro (h : Serialised b s₀ order done (some x) s) (hx : b.result x s = none) :
    Serialised b s₀ order done (some (b.micro x s).1) (b.micro x s).2 := by
  obtain ⟨before, c, s₁, horder, hbefore, hrest⟩ := h
  exact ⟨before, c, s₁, horder, hbefore, by rw [b.rest_micro x s hx, hrest]⟩

theorem Serialised.release (h : Serialised b s₀ order done (some x) s) {r : ρ}
    (hx : b.result x s = some r) : Serialised b s₀ order (done++[r]) none s := by
  obtain ⟨before, c, s₁, horder, hbefore, hrest⟩ := h
  rw [b.rest_result x s r hx] at hrest
  show serial b.exec order s₀ = _
  rw [horder, serial_snoc, hbefore, ← hrest]

end OS161.Serial
