/-!
# Work in pieces, up to the first that fails

A piece of work starts at a boundary and either ends at the next one or fails,
and then nothing more is done. Where the work ends, and whether it reports an
error, depends only on which pieces can be done.
-/

set_option autoImplicit false

namespace OS161.Pieces

variable {σ ε : Type} {Ok : Nat → Prop} {At Near : Nat → σ → Prop} {i k l : Nat} {e : Option ε} {s s' : σ}

/-- `k` pieces from boundary `i` on. `At` holds at a boundary; `Near` is what is
left of it when a piece has failed. -/
inductive Progress (Ok : Nat → Prop) (At Near : Nat → σ → Prop) (i k : Nat) : Option ε → σ → Prop where
  | done (s : σ) (hok : ∀ c < k, Ok (i+c)) (hat : At (i+k) s) : Progress Ok At Near i k none s
  | failed (e : ε) (s : σ) (m : Nat) (hm : m < k) (hok : ∀ c < m, Ok (i+c)) (hbad : ¬Ok (i+m)) (hnear : Near (i+m) s) :
      Progress Ok At Near i k (some e) s

theorem Progress.none (h : At i s) : Progress Ok At Near i 0 (none : Option ε) s :=
  .done s (fun c hc => absurd hc (Nat.not_lt_zero c)) h

theorem Progress.one (hok : Ok i) (h : At (i+1) s) : Progress Ok At Near i 1 (Option.none : Option ε) s := by
  refine .done s ?_ h
  intro c hc
  have hzero : c = 0 := by omega
  rwa [hzero]

theorem Progress.fail (e : ε) (hbad : ¬Ok i) (h : Near i s) : Progress Ok At Near i 1 (some e) s :=
  .failed e s 0 (Nat.lt_succ_self 0) (fun c hc => absurd hc (Nat.not_lt_zero c)) hbad h

/-- More pieces once the first are done. -/
theorem Progress.next (h : Progress Ok At Near i k (Option.none : Option ε) s)
    (h' : Progress Ok At Near (i+k) l e s') : Progress Ok At Near i (k+l) e s' := by
  cases h with
  | done _ hok hat =>
    have hboth : ∀ m, (∀ c < m, Ok (i+k+c)) → ∀ c < k+m, Ok (i+c) := by
      intro m hm c hc
      by_cases hck : c < k
      · exact hok c hck
      · have hlater := hm (c-k) (by omega)
        rwa [show i+k+(c-k) = i+c by omega] at hlater
    cases h' with
    | done _ hok' hat' =>
      refine .done s' (hboth l hok') ?_
      rwa [← Nat.add_assoc]
    | failed e _ m hm hok' hbad hnear =>
      rw [Nat.add_assoc] at hbad hnear
      exact .failed e s' (k+m) (by omega) (hboth m hok') hbad hnear

/-- No more pieces once one has failed. -/
theorem Progress.stop {e : ε} (h : Progress Ok At Near i k (some e) s) (l : Nat) :
    Progress Ok At Near i (k+l) (some e) s := by
  cases h with
  | failed _ _ m hm hok hbad hnear => exact .failed e s m (by omega) hok hbad hnear

end OS161.Pieces
