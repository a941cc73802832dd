import Mathlib.Data.Finset.Card
import Mathlib.Logic.Function.Basic
import Mathlib.Order.Nat

/-!
# Counted references

Objects with a reference count, and a table that keeps one for each number. A
reference is either out with the users, who are counted together, or in the hand
of one thread, which may also hold the last one of an object that it has taken
out of the table and is about to free.
-/

set_option autoImplicit false

namespace OS161.References

open Function

structure Counted where
  live : Bool
  number : ℕ
  refcount : ℕ
  deriving DecidableEq

variable {T : Type}

structure Balanced (table : List ℕ) (obj : ℕ → Counted) (next : ℕ) (held : ℕ → ℕ) (hand : T → Option ℕ) : Prop where
  nodup : table.Nodup
  unique : ∀ v ∈ table, ∀ w ∈ table, (obj v).number = (obj w).number → v = w
  live : ∀ v ∈ table, (obj v).live = true
  fresh : ∀ v, (obj v).live = true → v < next
  outside : ∀ v, 0 < held v → v ∈ table
  inHand : ∀ t v, hand t = some v → (obj v).live = true
  count : ∀ v, (obj v).live = true → ∃ S : Finset T,
    (∀ t, t ∈ S ↔ hand t = some v) ∧ (obj v).refcount = held v + S.card ∧ 0 < (obj v).refcount

variable {table : List ℕ} {obj : ℕ → Counted} {next : ℕ} {held : ℕ → ℕ} {hand : T → Option ℕ} {v : ℕ} {t : T}

theorem balanced_empty : Balanced (T := T) [] (fun _ => ⟨false, 0, 0⟩) 0 (fun _ => 0) (fun _ => none) := by
  constructor <;> simp

theorem Balanced.live_of_held (h : Balanced table obj next held hand) (hv : held v ≠ 0) : (obj v).live = true :=
  h.live v (h.outside v (Nat.pos_of_ne_zero hv))

theorem Balanced.pos (h : Balanced table obj next held hand) (hv : (obj v).live = true) : 0 < (obj v).refcount := by
  obtain ⟨S, -, -, hpos⟩ := h.count v hv
  exact hpos

/-- Whoever has the last reference is the only one who has any. -/
theorem Balanced.alone (h : Balanced table obj next held hand) (ht : hand t = some v)
    (hone : (obj v).refcount ≤ 1) : held v = 0 ∧ (obj v).refcount = 1 ∧ ∀ u, hand u = some v → u = t := by
  obtain ⟨S, hS, hcount, hpos⟩ := h.count v (h.inHand t v ht)
  have hmem : t ∈ S := (hS t).mpr ht
  have hcard : 0 < S.card := Finset.card_pos.mpr ⟨t, hmem⟩
  refine ⟨by omega, by omega, ?_⟩
  intro u hu
  exact Finset.card_le_one.mp (by omega) u ((hS u).mpr hu) t hmem

/-- Of an object that is not in the table there is one reference. -/
theorem Balanced.single (h : Balanced table obj next held hand) (hv : v ∉ table) (ht : hand t = some v)
    (hone : ∀ u, hand u = some v → u = t) : (obj v).refcount = 1 := by
  obtain ⟨S, hS, hcount, hpos⟩ := h.count v (h.inHand t v ht)
  have hheld : held v = 0 := Nat.eq_zero_of_not_pos (fun hp => hv (h.outside v hp))
  have hle : S.card ≤ 1 := by
    rw [Finset.card_le_one]
    intro a ha b hb
    rw [hone a ((hS a).mp ha), hone b ((hS b).mp hb)]
  omega

/-- A change of one object's count and of the references to it. -/
theorem Balanced.recount (h : Balanced table obj next held hand) {held' : ℕ → ℕ} {hand' : T → Option ℕ} {n : ℕ}
    (hheld : ∀ w, w ≠ v → held' w = held w) (hhand : ∀ u w, w ≠ v → (hand' u = some w ↔ hand u = some w))
    (hin : 0 < held' v → v ∈ table) (hlive : (obj v).live = true)
    (hcount : ∀ S : Finset T, (∀ u, u ∈ S ↔ hand u = some v) → (obj v).refcount = held v + S.card →
      ∃ S' : Finset T, (∀ u, u ∈ S' ↔ hand' u = some v) ∧ n = held' v + S'.card ∧ 0 < n) :
    Balanced table (update obj v { obj v with refcount := n }) next held' hand' := by
  have hsame : ∀ w, (update obj v { obj v with refcount := n } w).live = (obj w).live ∧
      (update obj v { obj v with refcount := n } w).number = (obj w).number := by
    intro w
    by_cases hw : w = v
    · subst hw
      simp
    · simp [update_of_ne hw]
  refine ⟨h.nodup, ?_, ?_, ?_, ?_, ?_, ?_⟩
  · intro a ha b hb
    rw [(hsame a).2, (hsame b).2]
    exact h.unique a ha b hb
  · intro w hw
    rw [(hsame w).1]
    exact h.live w hw
  · intro w hw
    exact h.fresh w ((hsame w).1 ▸ hw)
  · intro w hw
    by_cases hwv : w = v
    · exact hwv ▸ hin (hwv ▸ hw)
    · exact h.outside w (by rwa [hheld w hwv] at hw)
  · intro u w hu
    rw [(hsame w).1]
    by_cases hwv : w = v
    · rwa [hwv]
    · exact h.inHand u w ((hhand u w hwv).mp hu)
  · intro w hw
    rw [(hsame w).1] at hw
    by_cases hwv : w = v
    · subst hwv
      obtain ⟨S, hS, hc, -⟩ := h.count w hw
      obtain ⟨S', hS', hc', hpos⟩ := hcount S hS hc
      exact ⟨S', hS', by rw [update_self]; exact ⟨hc', hpos⟩⟩
    · obtain ⟨S, hS, hc, hpos⟩ := h.count w hw
      refine ⟨S, fun u => (hS u).trans (hhand u w hwv).symm, ?_⟩
      rw [update_of_ne hwv, hheld w hwv]
      exact ⟨hc, hpos⟩

variable [DecidableEq T]

/-- The hand of one thread. -/
theorem hand_update (hand : T → Option ℕ) (t : T) (x : Option ℕ) {w : ℕ} (ht : hand t ≠ some w) (hx : x ≠ some w)
    (u : T) : update hand t x u = some w ↔ hand u = some w := by
  by_cases hu : u = t
  · subst hu
    simp [ht, hx]
  · rw [update_of_ne hu]

theorem Balanced.take (h : Balanced table obj next held hand) (hv : v ∈ table) (ht : hand t = none) :
    Balanced table (update obj v { obj v with refcount := (obj v).refcount+1 }) next held
      (update hand t (some v)) := by
  refine h.recount (fun _ _ => rfl) ?_ (h.outside v) (h.live v hv) ?_
  · intro u w hw
    exact hand_update hand t _ (by simp [ht]) (by simpa using Ne.symm hw) u
  · intro S hS hc
    have hno : t ∉ S := by simp [hS, ht]
    refine ⟨insert t S, ?_, by rw [Finset.card_insert_of_notMem hno, hc]; rfl, by omega⟩
    intro u
    by_cases hu : u = t
    · subst hu
      simp
    · simp [hu, hS]

theorem Balanced.incref (h : Balanced table obj next held hand) (hv : 0 < held v) :
    Balanced table (update obj v { obj v with refcount := (obj v).refcount+1 }) next
      (update held v (held v+1)) hand := by
  refine h.recount (fun w hw => update_of_ne hw _ _) (fun _ _ _ => Iff.rfl) (fun _ => h.outside v hv)
    (h.live v (h.outside v hv)) ?_
  intro S hS hc
  refine ⟨S, hS, ?_, by omega⟩
  rw [update_self]
  omega

/-- A reference is given up that is not the last one. -/
theorem Balanced.drop (h : Balanced table obj next held hand) (hv : 0 < held v) (hmany : 1 < (obj v).refcount) :
    Balanced table (update obj v { obj v with refcount := (obj v).refcount-1 }) next
      (update held v (held v-1)) hand := by
  refine h.recount (fun w hw => update_of_ne hw _ _) (fun _ _ _ => Iff.rfl) (fun _ => h.outside v hv)
    (h.live v (h.outside v hv)) ?_
  intro S hS hc
  refine ⟨S, hS, ?_, by omega⟩
  rw [update_self]
  omega

theorem Balanced.dropHand (h : Balanced table obj next held hand) (ht : hand t = some v)
    (hmany : 1 < (obj v).refcount) :
    Balanced table (update obj v { obj v with refcount := (obj v).refcount-1 }) next held (update hand t none) := by
  refine h.recount (fun _ _ => rfl) ?_ (h.outside v) (h.inHand t v ht) ?_
  · intro u w hw
    exact hand_update hand t none (by rw [ht]; simpa using Ne.symm hw) (by simp) u
  · intro S hS hc
    have hmem : t ∈ S := (hS t).mpr ht
    refine ⟨S.erase t, ?_, by rw [Finset.card_erase_of_mem hmem]; have := Finset.card_pos.mpr ⟨t, hmem⟩; omega, by omega⟩
    intro u
    by_cases hu : u = t
    · subst hu
      simp
    · simp [hu, hS]

/-- From the hand of a thread to the users. -/
theorem Balanced.give (h : Balanced table obj next held hand) (hv : v ∈ table) (ht : hand t = some v) :
    Balanced table obj next (update held v (held v+1)) (update hand t none) := by
  have hr : Balanced table (update obj v { obj v with refcount := (obj v).refcount }) next
      (update held v (held v+1)) (update hand t none) :=
    h.recount (fun w hw => update_of_ne hw _ _) ?_ (fun _ => hv) (h.live v hv) ?_
  · rwa [show update obj v { obj v with refcount := (obj v).refcount } = obj from update_eq_self v obj] at hr
  · intro u w hw
    exact hand_update hand t none (by rw [ht]; simpa using Ne.symm hw) (by simp) u
  · intro S hS hc
    have hmem : t ∈ S := (hS t).mpr ht
    have hpos := Finset.card_pos.mpr ⟨t, hmem⟩
    refine ⟨S.erase t, ?_, by rw [update_self, Finset.card_erase_of_mem hmem]; omega, by omega⟩
    intro u
    by_cases hu : u = t
    · subst hu
      simp
    · simp [hu, hS]

theorem Balanced.grab (h : Balanced table obj next held hand) (hv : 0 < held v) (ht : hand t = none) :
    Balanced table obj next (update held v (held v-1)) (update hand t (some v)) := by
  have hr : Balanced table (update obj v { obj v with refcount := (obj v).refcount }) next
      (update held v (held v-1)) (update hand t (some v)) :=
    h.recount (fun w hw => update_of_ne hw _ _) ?_ (fun _ => h.outside v hv) (h.live v (h.outside v hv)) ?_
  · rwa [show update obj v { obj v with refcount := (obj v).refcount } = obj from update_eq_self v obj] at hr
  · intro u w hw
    exact hand_update hand t _ (by simp [ht]) (by simpa using Ne.symm hw) u
  · intro S hS hc
    have hno : t ∉ S := by simp [hS, ht]
    refine ⟨insert t S, ?_, by rw [update_self, Finset.card_insert_of_notMem hno]; omega, by omega⟩
    intro u
    by_cases hu : u = t
    · subst hu
      simp
    · simp [hu, hS]

/-- A new object, with one reference in the hand of the thread that has made it. -/
theorem Balanced.create (h : Balanced table obj next held hand) {k : ℕ} (hk : ∀ v ∈ table, (obj v).number ≠ k)
    (ht : hand t = none) :
    Balanced (table ++ [next]) (update obj next ⟨true, k, 1⟩) (next+1) held (update hand t (some next)) := by
  have hdead : (obj next).live = false := by
    by_contra hno
    exact absurd (h.fresh next (by simpa using hno)) (Nat.lt_irrefl _)
  have hnew : next ∉ table := fun hm => by simp [h.live next hm] at hdead
  have hne : ∀ w ∈ table, w ≠ next := fun w hw he => hnew (he ▸ hw)
  have hzero : held next = 0 := Nat.eq_zero_of_not_pos (fun hp => hnew (h.outside next hp))
  have hnone : ∀ u, hand u ≠ some next := fun u hu => by simp [h.inHand u next hu] at hdead
  refine ⟨?_, ?_, ?_, ?_, ?_, ?_, ?_⟩
  · exact h.nodup.append (List.nodup_singleton next) (by simpa using hnew)
  · intro a ha b hb hab
    simp only [List.mem_append, List.mem_singleton] at ha hb
    obtain ha | rfl := ha <;> obtain hb | rfl := hb
    · rw [update_of_ne (hne a ha), update_of_ne (hne b hb)] at hab
      exact h.unique a ha b hb hab
    · rw [update_of_ne (hne a ha), update_self] at hab
      exact absurd hab (hk a ha)
    · rw [update_of_ne (hne b hb), update_self] at hab
      exact absurd hab.symm (hk b hb)
    · rfl
  · intro w hw
    simp only [List.mem_append, List.mem_singleton] at hw
    obtain hw | rfl := hw
    · rw [update_of_ne (hne w hw)]
      exact h.live w hw
    · rw [update_self]
  · intro w hw
    by_cases hwn : w = next
    · omega
    · rw [update_of_ne hwn] at hw
      have := h.fresh w hw
      omega
  · intro w hw
    exact List.mem_append_left _ (h.outside w hw)
  · intro u w hu
    by_cases hwn : w = next
    · rw [hwn, update_self]
    · rw [update_of_ne hwn]
      exact h.inHand u w ((hand_update hand t _ (by simp [ht]) (by simpa using Ne.symm hwn) u).mp hu)
  · intro w hw
    by_cases hwn : w = next
    · subst hwn
      refine ⟨{t}, ?_, by simp [hzero], by simp⟩
      intro u
      by_cases hu : u = t
      · subst hu
        simp
      · simp [hu, hnone u]
    · rw [update_of_ne hwn] at hw ⊢
      obtain ⟨S, hS, hc⟩ := h.count w hw
      exact ⟨S, fun u => (hS u).trans (hand_update hand t _ (by simp [ht]) (by simpa using Ne.symm hwn) u).symm, hc⟩

/-- The last reference takes the object out of the table. -/
theorem Balanced.remove (h : Balanced table obj next held hand) (ht : hand t = some v)
    (hone : (obj v).refcount ≤ 1) : Balanced (table.erase v) obj next held hand := by
  obtain ⟨hzero, -, -⟩ := h.alone ht hone
  refine ⟨h.nodup.erase v, ?_, ?_, h.fresh, ?_, h.inHand, h.count⟩
  · intro a ha b hb
    exact h.unique a (List.mem_of_mem_erase ha) b (List.mem_of_mem_erase hb)
  · intro w hw
    exact h.live w (List.mem_of_mem_erase hw)
  · intro w hw
    have hwv : w ≠ v := by
      rintro rfl
      omega
    exact (List.mem_erase_of_ne hwv).mpr (h.outside w hw)

/-- An object out of the table is freed by the thread that has it in its hand. -/
theorem Balanced.free (h : Balanced table obj next held hand) (hv : v ∉ table) (ht : hand t = some v)
    (hone : ∀ u, hand u = some v → u = t) :
    Balanced table (update obj v { obj v with live := false }) next held (update hand t none) := by
  have hne : ∀ w ∈ table, w ≠ v := fun w hw he => hv (he ▸ hw)
  have hhand : ∀ u w, update hand t none u = some w → w ≠ v ∧ hand u = some w := by
    intro u w hu
    by_cases hut : u = t
    · subst hut
      simp at hu
    · rw [update_of_ne hut] at hu
      refine ⟨?_, hu⟩
      rintro rfl
      exact hut (hone u hu)
  refine ⟨h.nodup, ?_, ?_, ?_, h.outside, ?_, ?_⟩
  · intro a ha b hb
    rw [update_of_ne (hne a ha), update_of_ne (hne b hb)]
    exact h.unique a ha b hb
  · intro w hw
    rw [update_of_ne (hne w hw)]
    exact h.live w hw
  · intro w hw
    by_cases hwv : w = v
    · subst hwv
      simp at hw
    · exact h.fresh w (by rwa [update_of_ne hwv] at hw)
  · intro u w hu
    obtain ⟨hwv, hu⟩ := hhand u w hu
    rw [update_of_ne hwv]
    exact h.inHand u w hu
  · intro w hw
    have hwv : w ≠ v := by
      rintro rfl
      simp at hw
    rw [update_of_ne hwv] at hw ⊢
    obtain ⟨S, hS, hc⟩ := h.count w hw
    exact ⟨S, fun u => (hS u).trans (hand_update hand t none (by rw [ht]; simpa using Ne.symm hwv) (by simp) u).symm, hc⟩

end OS161.References
