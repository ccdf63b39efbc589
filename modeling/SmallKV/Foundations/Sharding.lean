import SmallKV.Foundations.Exec

/-!
# Foundations/Sharding — objects that share nothing

A family of objects takes calls, each of which goes to one of them.  The calls on the others do not
touch it, so what holds of one object over the calls made on it holds of every object over its own
part of the calls on all of them (`run_objects`).
-/

namespace SmallKV

variable {O α κ ρ : Type} [DecidableEq O] (step : α → κ → Exec (α × ρ)) (obj : κ → O)

/-- One call, on the object it is for. -/
def onObject (t : O → α) (c : κ) : Exec ((O → α) × ρ) := do
  let (a, r) ← step (t (obj c)) c
  return (Function.update t (obj c) a, r)

/-- The part of a history that is for an object. -/
def ofObject (h : List (κ × ρ)) (o : O) : List (κ × ρ) := h.filter fun e => obj e.1 = o

variable {step obj} {h : List (κ × ρ)} {c : κ} {r : ρ} {o : O}

theorem ofObject_append_self :
    ofObject obj (h ++ [(c, r)]) (obj c) = ofObject obj h (obj c) ++ [(c, r)] := by
  simp [ofObject]

theorem ofObject_append_ne (ho : o ≠ obj c) :
    ofObject obj (h ++ [(c, r)]) o = ofObject obj h o := by
  simp [ofObject, Ne.symm ho]

variable {I : List (κ × ρ) → α → Prop}

/-- **A call keeps what holds of each object over its own calls.** -/
theorem onObject_keeps
    (hstep : ∀ h a c, I h a → ∃ a' r, step a c = .ok (a', r) ∧ I (h ++ [(c, r)]) a')
    (h : List (κ × ρ)) (t : O → α) (c : κ) (hI : ∀ o, I (ofObject obj h o) (t o)) :
    ∃ t' r, onObject step obj t c = .ok (t', r) ∧
      ∀ o, I (ofObject obj (h ++ [(c, r)]) o) (t' o) := by
  obtain ⟨a, r, hrun, ha⟩ := hstep _ _ c (hI (obj c))
  refine ⟨Function.update t (obj c) a, r, by rw [onObject, hrun]; rfl, fun o => ?_⟩
  by_cases ho : o = obj c
  · subst ho
    rwa [ofObject_append_self, Function.update_self]
  · rw [ofObject_append_ne ho, Function.update_of_ne ho]
    exact hI o

variable (step obj) in
/-- **Objects that share nothing run on their own.**  If every call on an object returns and keeps an
invariant of the object and its history, every run of calls on the family returns, and each object
has the invariant over its own part of the calls. -/
theorem run_objects
    (hstep : ∀ h a c, I h a → ∃ a' r, step a c = .ok (a', r) ∧ I (h ++ [(c, r)]) a')
    (cs : List κ) (t : O → α) (hI : ∀ o, I [] (t o)) :
    ∃ t' rs, runFrom (onObject step obj) t cs = .ok (t', rs) ∧
      ∀ o, I (ofObject obj (cs.zip rs) o) (t' o) :=
  run_total_history (onObject step obj) (I := fun h t => ∀ o, I (ofObject obj h o) (t o))
    (onObject_keeps hstep) cs [] t hI

end SmallKV
