import SmallKV.Foundations.Exec

/-!
# Foundations/Interleaving — processes that take turns on a shared state

A schedule names the process that moves next; running it is `runFrom` with the names for calls.  A
process is *good* in a state when it will end as it should if nobody gets in its way.  Its own moves
make no difference to that (`own`), and a move of another may or may not (`others`).  Then a
schedule goes well as long as every move spares the others (`run_of_along`), and all schedules go
well exactly when every move of every schedule does (`safe_iff`).
-/

namespace SmallKV

variable {σ ι : Type} (step : σ → ι → Exec (σ × Unit))

/-- Every schedule returns, in a state with `R`. -/
def Safe (R : σ → Prop) (s : σ) : Prop :=
  ∀ schedule, ∃ s' rs, runFrom step s schedule = .ok (s', rs) ∧ R s'

/-- Processes that end as they should unless another gets in their way: `I` holds of all states,
`Good` of the processes nobody got in the way of, `Spares` of a move that gets in nobody's way, and
`left` bounds the moves a process has left. -/
structure Processes (I R : σ → Prop) (Good Spares : σ → ι → Prop) (left : σ → ι → ℕ) : Prop where
  inv : ∀ {s i s₁ u}, I s → step s i = .ok (s₁, u) → I s₁
  progress : ∀ {s i}, I s → Good s i → ∃ s₁ u, step s i = .ok (s₁, u)
  own : ∀ {s i s₁ u}, I s → step s i = .ok (s₁, u) → (Good s₁ i ↔ Good s i)
  others : ∀ {s i s₁ u}, I s → (∀ j, Good s j) → step s i = .ok (s₁, u) →
    ((∀ j, j ≠ i → Good s₁ j) ↔ Spares s i)
  result : ∀ {s}, I s → (∀ j, Good s j) → R s
  final : ∀ {s i}, R s → left s i = 0 → Good s i
  fewer : ∀ {s i s₁ u}, I s → step s i = .ok (s₁, u) → left s i ≠ 0 → left s₁ i < left s i

variable {step} {I R : σ → Prop} {Good Spares : σ → ι → Prop} {left : σ → ι → ℕ} {s s₁ : σ} {i : ι}
  {u : Unit}

/-- What holds of all schedules holds of all schedules from a later state. -/
theorem Safe.next (h : Safe step R s) (hstep : step s i = .ok (s₁, u)) :
    Safe step R s₁ := by
  intro schedule
  obtain ⟨s', rs, hrun, hresult⟩ := h (i :: schedule)
  obtain ⟨s₂, u', rs', hstep', hrun', -⟩ := (runFrom_cons step).mp hrun
  obtain ⟨rfl, -⟩ := Prod.mk.inj (Except.ok.inj (hstep.symm.trans hstep'))
  exact ⟨s', rs', hrun', hresult⟩

theorem Safe.returns (h : Safe step R s) (i : ι) : ∃ s₁ u, step s i = .ok (s₁, u) := by
  obtain ⟨s', rs, hrun, -⟩ := h [i]
  obtain ⟨s₁, u, -, hstep, -⟩ := (runFrom_cons step).mp hrun
  exact ⟨s₁, u, hstep⟩

namespace Processes

variable (hp : Processes step I R Good Spares left)

include hp

/-- **A move that spares the others leaves all processes good**, and no other does. -/
theorem good_step (hs : I s) (hgood : ∀ j, Good s j) (hstep : step s i = .ok (s₁, u)) :
    (∀ j, Good s₁ j) ↔ Spares s i := by
  rw [← hp.others hs hgood hstep]
  refine ⟨fun h j _ => h j, fun h j => ?_⟩
  by_cases hj : j = i
  · subst hj
    exact (hp.own hs hstep).mpr (hgood j)
  · exact h j hj

/-- **A schedule whose moves spare the others goes well.** -/
theorem run_of_along {schedule : List ι} (hs : I s) (hgood : ∀ j, Good s j)
    (halong : Along step Spares s schedule) :
    ∃ s' rs, runFrom step s schedule = .ok (s', rs) ∧ R s' := by
  obtain ⟨s', rs, hrun, hs', hgood'⟩ :=
    run_total step (I := fun s => I s ∧ ∀ j, Good s j) (fun s i ⟨hs, hgood⟩ hspares => by
      obtain ⟨s₁, u, hstep⟩ := hp.progress hs (hgood i)
      exact ⟨s₁, u, hstep, hp.inv hs hstep, (hp.good_step hs hgood hstep).mpr hspares⟩)
      schedule s ⟨hs, hgood⟩ halong
  exact ⟨s', rs, hrun, hp.result hs' hgood'⟩

/-- Where all schedules go well, all processes are good: let one of them move alone to its end. -/
theorem good_of_safe (i : ι) : ∀ (n : ℕ) (s : σ), left s i = n → I s → Safe step R s →
    Good s i := by
  intro n
  induction n using Nat.strong_induction_on with
  | _ n ih =>
    intro s hn hs hsafe
    by_cases hzero : left s i = 0
    · obtain ⟨s', rs, hrun, hresult⟩ := hsafe []
      obtain ⟨rfl, -⟩ : s = s' ∧ [] = rs := by simpa using hrun
      exact hp.final hresult hzero
    · obtain ⟨s₁, u, hstep⟩ := hsafe.returns i
      exact (hp.own hs hstep).mp
        (ih _ (hn ▸ hp.fewer hs hstep hzero) s₁ rfl (hp.inv hs hstep) (hsafe.next hstep))

/-- **All schedules go well exactly when every move of every schedule spares the others.** -/
theorem safe_iff (hs : I s) (hgood : ∀ j, Good s j) :
    Safe step R s ↔ ∀ schedule, Along step Spares s schedule := by
  refine ⟨fun hsafe schedule => ?_, fun h schedule => hp.run_of_along hs hgood (h schedule)⟩
  induction schedule generalizing s with
  | nil => exact trivial
  | cons i schedule ih =>
    have hnext : ∀ s₁ u, step s i = .ok (s₁, u) → ∀ j, Good s₁ j := fun s₁ u hstep j =>
      hp.good_of_safe j _ s₁ rfl (hp.inv hs hstep) (hsafe.next hstep)
    obtain ⟨s₁, u, hstep⟩ := hsafe.returns i
    refine ⟨(hp.good_step hs hgood hstep).mp (hnext s₁ u hstep), fun s₂ u₂ hstep₂ => ?_⟩
    exact ih (hp.inv hs hstep₂) (hnext s₂ u₂ hstep₂) (hsafe.next hstep₂)

end Processes

end SmallKV
