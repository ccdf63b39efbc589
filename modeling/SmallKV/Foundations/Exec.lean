import Mathlib.Data.Nat.Basic
import Mathlib.Logic.Function.Basic
import Mathlib.Data.List.Basic

/-!
# Foundations/Exec — fallible steps, and what holds along a run of them

A C++ step either returns or it has no defined result: an assertion aborts, a load leaves its
object, a loop never ends.  `Exec α` is the outcome of such a step.  `runFrom` performs a list of
calls one after the other and stops at the first fault; `run_history` carries an invariant over a
run together with the calls made and the answers given so far, and `Along` says what each call
meets in the state before it.
-/

namespace SmallKV

/-- Why a step has no result. -/
inductive Fault
  /-- an `assert` failed -/
  | assertion
  /-- a null or singular pointer or iterator was followed -/
  | nullPointer
  /-- a load, a store or a copy left its object -/
  | outOfBounds
  /-- a load through an address at which no object lives -/
  | wildPointer
  /-- an integer division by zero -/
  | divByZero
  /-- an exception nobody catches -/
  | uncaught
  /-- a loop that does not end -/
  | diverged
  deriving DecidableEq, Repr

/-- The outcome of a step: a result, or the fault that stopped it. -/
abbrev Exec (α : Type) := Except Fault α

/-- `assert(c)`, and every other check that stops the program. -/
def require (c : Bool) (f : Fault) : Exec Unit := if c then .ok () else .error f

/-- Read through an optional result: `none` is the fault `f`. -/
def orFault {α : Type} (f : Fault) : Option α → Exec α
  | some a => .ok a
  | none => .error f

section Bind

variable {ε α β : Type}

/-- **A sequence of two steps returns exactly when both do.** -/
theorem bind_eq_ok {x : Except ε α} {f : α → Except ε β} {b : β} :
    (x >>= f) = .ok b ↔ ∃ a, x = .ok a ∧ f a = .ok b := by
  cases x <;> simp [bind, Except.bind]

/-- A change of the result returns exactly when the step does. -/
theorem map_eq_ok {x : Except ε α} {f : α → β} {b : β} :
    (f <$> x) = .ok b ↔ ∃ a, x = .ok a ∧ f a = b := by
  cases x <;> simp [Functor.map, Except.map]

theorem ok_ne_error {a : α} {e : ε} : (.ok a : Except ε α) ≠ .error e := fun h => by cases h

/-- A check ends in no other fault than its own. -/
theorem require_ne_error {c : Bool} {f e : Fault} (h : f ≠ e) : require c f ≠ .error e := by
  cases c <;> simp [require, h]

theorem orFault_ne_error {f e : Fault} (h : f ≠ e) {o : Option α} : orFault f o ≠ .error e := by
  cases o <;> simp [orFault, h]

/-- A fault that neither of two steps ends in. -/
theorem bind_ne_error {x : Except ε α} {f : α → Except ε β} {e : ε} (hx : x ≠ .error e)
    (hf : ∀ a, x = .ok a → f a ≠ .error e) : (x >>= f) ≠ .error e := by
  cases x with
  | error e' => exact fun h => hx (congrArg Except.error (Except.error.inj h))
  | ok a => exact hf a rfl

@[simp] theorem ok_bind (a : α) (f : α → Except ε β) : ((.ok a : Except ε α) >>= f) = f a := rfl

@[simp] theorem error_bind (e : ε) (f : α → Except ε β) :
    ((.error e : Except ε α) >>= f) = .error e := rfl

@[simp] theorem pure_eq_ok (a : α) : (pure a : Except ε α) = .ok a := rfl

@[simp] theorem map_ok (f : α → β) (a : α) : (f <$> (.ok a : Except ε α)) = .ok (f a) := rfl

@[simp] theorem map_error (f : α → β) (e : ε) : (f <$> (.error e : Except ε α)) = .error e := rfl

@[simp] theorem require_eq_ok {c : Bool} {f : Fault} {u : Unit} :
    require c f = .ok u ↔ c = true := by
  cases c <;> simp [require]

@[simp] theorem require_true (f : Fault) : require true f = .ok () := rfl

@[simp] theorem require_false (f : Fault) : require false f = .error f := rfl

@[simp] theorem orFault_some (f : Fault) (a : α) : orFault f (some a) = .ok a := rfl

@[simp] theorem orFault_none (f : Fault) : orFault f (none : Option α) = .error f := rfl

@[simp] theorem orFault_eq_ok {f : Fault} {o : Option α} {a : α} :
    orFault f o = .ok a ↔ o = some a := by
  cases o <;> simp

/-- **A change of states that commutes with the second step commutes with both.** -/
theorem bind_map_comm {α' β' : Type} {x : Except ε α} {g : α → α'} {h : β → β'}
    {f : α → Except ε β} {f' : α' → Except ε β'} (hf : ∀ a, f' (g a) = h <$> f a) :
    ((g <$> x) >>= f') = h <$> (x >>= f) := by
  cases x with
  | error e => rfl
  | ok a => exact hf a

end Bind

/-! ## Runs

A run threads a state through a list of calls and collects the answers. -/

section Run

variable {σ κ ρ : Type} (step : σ → κ → Exec (σ × ρ))

/-- The calls `cs`, made one after the other from the state `s`. -/
def runFrom : σ → List κ → Exec (σ × List ρ)
  | s, [] => .ok (s, [])
  | s, c :: cs => do
      let (s₁, r) ← step s c
      let (s₂, rs) ← runFrom s₁ cs
      return (s₂, r :: rs)

@[simp] theorem runFrom_nil (s : σ) : runFrom step s [] = .ok (s, []) := rfl

/-- **A run peels off its first call.** -/
theorem runFrom_cons {s s' : σ} {c : κ} {cs : List κ} {rs : List ρ} :
    runFrom step s (c :: cs) = .ok (s', rs) ↔
      ∃ s₁ r rs', step s c = .ok (s₁, r) ∧ runFrom step s₁ cs = .ok (s', rs') ∧ rs = r :: rs' := by
  simp only [runFrom, bind_eq_ok, Prod.exists, pure_eq_ok, Except.ok.injEq, Prod.mk.injEq]
  constructor
  · rintro ⟨s₁, r, h₁, s₂, rs', h₂, rfl, rfl⟩
    exact ⟨s₁, r, rs', h₁, h₂, rfl⟩
  · rintro ⟨s₁, r, rs', h₁, h₂, rfl⟩
    exact ⟨s₁, r, h₁, s', rs', h₂, rfl, rfl⟩

/-- **A run of two lists of calls is the run of the second from where the first ends.** -/
theorem runFrom_append {cs ds : List κ} {s s' : σ} {rs : List ρ} :
    runFrom step s (cs ++ ds) = .ok (s', rs) ↔ ∃ s₁ rs₁ rs₂, runFrom step s cs = .ok (s₁, rs₁) ∧
      runFrom step s₁ ds = .ok (s', rs₂) ∧ rs = rs₁ ++ rs₂ := by
  induction cs generalizing s rs with
  | nil => simp
  | cons c cs ih =>
    simp only [List.cons_append, runFrom_cons, ih]
    constructor
    · rintro ⟨s₁, r, rs', hc, ⟨s₂, rs₁, rs₂, hcs, hds, rfl⟩, rfl⟩
      exact ⟨s₂, r :: rs₁, rs₂, ⟨s₁, r, rs₁, hc, hcs, rfl⟩, hds, rfl⟩
    · rintro ⟨s₂, rs₁', rs₂, ⟨s₁, r, rs₁, hc, hcs, rfl⟩, hds, rfl⟩
      exact ⟨s₁, r, rs₁ ++ rs₂, hc, ⟨s₂, rs₁, rs₂, hcs, hds, rfl⟩, by simp⟩

theorem length_of_runFrom : ∀ {cs : List κ} {s s' : σ} {rs : List ρ},
    runFrom step s cs = .ok (s', rs) → rs.length = cs.length
  | [], s, s', rs, h => by
      obtain ⟨-, rfl⟩ : s = s' ∧ [] = rs := by simpa using h
      rfl
  | c :: cs, s, s', rs, h => by
      obtain ⟨s₁, r, rs', -, hcs, rfl⟩ := (runFrom_cons step).mp h
      rw [List.length_cons, List.length_cons, length_of_runFrom hcs]

/-- **Steps that do the same on states of two kinds make runs that do so.** -/
theorem runFrom_map {τ : Type} {step' : τ → κ → Exec (τ × ρ)} (e : τ → σ)
    (hstep : ∀ t c, step (e t) c = (fun p => (e p.1, p.2)) <$> step' t c) :
    ∀ (cs : List κ) (t : τ),
      runFrom step (e t) cs = (fun p => (e p.1, p.2)) <$> runFrom step' t cs
  | [], t => rfl
  | c :: cs, t => by
      rw [runFrom, runFrom, hstep]
      cases step' t c with
      | error f => rfl
      | ok p =>
        have hrest := runFrom_map e hstep cs p.1
        simp only [Functor.map, Except.map, ok_bind] at hrest ⊢
        rw [hrest]
        cases runFrom step' p.1 cs <;> rfl

/-- The calls around an entry of a history. -/
theorem calls_of_zip {cs : List κ} {s s' : σ} {rs : List ρ} {before after : List (κ × ρ)} {c : κ}
    {r : ρ} (hrun : runFrom step s cs = .ok (s', rs))
    (hzip : cs.zip rs = before ++ (c, r) :: after) :
    cs = before.map Prod.fst ++ c :: after.map Prod.fst := by
  simpa [hzip] using
    (List.map_fst_zip (Nat.le_of_eq (length_of_runFrom step hrun).symm)).symm

/-- **Every entry of a history was a step**, from the state that the calls before it lead to. -/
theorem exists_step_of_zip {cs : List κ} {s s' : σ} {rs : List ρ} {before after : List (κ × ρ)}
    {c : κ} {r : ρ} (hrun : runFrom step s cs = .ok (s', rs))
    (hzip : cs.zip rs = before ++ (c, r) :: after) :
    ∃ s₁ s₂, runFrom step s (before.map Prod.fst) = .ok (s₁, before.map Prod.snd) ∧
      step s₁ c = .ok (s₂, r) := by
  have hlength := length_of_runFrom step hrun
  obtain rfl := calls_of_zip step hrun hzip
  obtain rfl : rs = before.map Prod.snd ++ r :: after.map Prod.snd := by
    simpa [hzip] using (List.map_snd_zip (Nat.le_of_eq hlength)).symm
  obtain ⟨s₁, rs₁, rs₂, hbefore, hrest, heq⟩ := (runFrom_append step).mp hrun
  obtain ⟨s₂, r', rs', hstep, -, rfl⟩ := (runFrom_cons step).mp hrest
  obtain ⟨rfl, hcons⟩ := List.append_inj heq
    (by rw [length_of_runFrom step hbefore, List.length_map, List.length_map])
  obtain rfl := (List.cons.inj hcons).1
  exact ⟨s₁, s₂, hbefore, hstep⟩

/-- What every call of a run meets: `P` holds of the state before the call and the call. -/
def Along (P : σ → κ → Prop) : σ → List κ → Prop
  | _, [] => True
  | s, c :: cs => P s c ∧ ∀ s₁ r, step s c = .ok (s₁, r) → Along P s₁ cs

@[simp] theorem along_nil (P : σ → κ → Prop) (s : σ) : Along step P s [] := trivial

theorem along_cons {P : σ → κ → Prop} {s : σ} {c : κ} {cs : List κ} :
    Along step P s (c :: cs) ↔ P s c ∧ ∀ s₁ r, step s c = .ok (s₁, r) → Along step P s₁ cs :=
  Iff.rfl

/-- A call that returns passes the guard of a run on to the next state. -/
theorem along_cons_of_step {P : σ → κ → Prop} {s s₁ : σ} {c : κ} {cs : List κ} {r : ρ}
    (hstep : step s c = .ok (s₁, r)) :
    Along step P s (c :: cs) ↔ P s c ∧ Along step P s₁ cs := by
  refine and_congr_right fun _ => ⟨fun h => h s₁ r hstep, fun h s₂ r₂ hstep₂ => ?_⟩
  obtain ⟨rfl, -⟩ := Prod.mk.inj (Except.ok.inj (hstep.symm.trans hstep₂))
  exact h

theorem along_of_forall {P : σ → κ → Prop} (h : ∀ s c, P s c) :
    ∀ (cs : List κ) (s : σ), Along step P s cs
  | [], _ => trivial
  | c :: cs, s => ⟨h s c, fun s₁ _ _ => along_of_forall h cs s₁⟩

theorem along_of_forall_mem {P : σ → κ → Prop} : ∀ (cs : List κ) (s : σ),
    (∀ c ∈ cs, ∀ s, P s c) → Along step P s cs
  | [], _, _ => trivial
  | c :: cs, s, h => ⟨h c List.mem_cons_self s, fun s₁ _ _ =>
      along_of_forall_mem cs s₁ fun c' hc' => h c' (List.mem_cons_of_mem c hc')⟩

/-- A guard is decided along a run by making the run. -/
instance instDecidableAlong {P : σ → κ → Prop} [∀ s c, Decidable (P s c)] :
    ∀ (cs : List κ) (s : σ), Decidable (Along step P s cs)
  | [], _ => isTrue trivial
  | c :: cs, s =>
      match h : step s c with
      | .error _ => decidable_of_iff (P s c) (by simp [along_cons, h])
      | .ok (s₁, r) =>
          have : Decidable (Along step P s₁ cs) := instDecidableAlong cs s₁
          decidable_of_iff (P s c ∧ Along step P s₁ cs) (by
            rw [along_cons, h]
            refine and_congr_right fun _ => ⟨?_, fun hnext => hnext s₁ r rfl⟩
            rintro hnext _ _ ⟨⟩
            exact hnext)

/-- **The invariant rule over histories.**  An invariant of the state and of the calls answered so
far that every guarded step keeps holds at the end of every guarded run. -/
theorem run_history {P : σ → κ → Prop} {I : List (κ × ρ) → σ → Prop}
    (hstep : ∀ h s c s₁ r, I h s → P s c → step s c = .ok (s₁, r) → I (h ++ [(c, r)]) s₁) :
    ∀ (cs : List κ) (h : List (κ × ρ)) (s s' : σ) (rs : List ρ), I h s → Along step P s cs →
      runFrom step s cs = .ok (s', rs) → I (h ++ cs.zip rs) s' := by
  intro cs
  induction cs with
  | nil =>
    intro h s s' rs hI _ hrun
    obtain ⟨rfl, rfl⟩ : s = s' ∧ [] = rs := by simpa using hrun
    simpa using hI
  | cons c cs ih =>
    intro h s s' rs hI hP hrun
    obtain ⟨s₁, r, rs', hc, hcs, rfl⟩ := (runFrom_cons step).mp hrun
    have hnext := ih (h ++ [(c, r)]) s₁ s' rs' (hstep h s c s₁ r hI hP.1 hc) (hP.2 s₁ r hc) hcs
    simpa using hnext

/-- **The invariant rule.**  An invariant that every step keeps holds at the end of every run. -/
theorem run_invariant {I : σ → Prop} (hstep : ∀ s c s₁ r, I s → step s c = .ok (s₁, r) → I s₁)
    (cs : List κ) (s s' : σ) (rs : List ρ) (hI : I s) (hrun : runFrom step s cs = .ok (s', rs)) :
    I s' :=
  run_history step (fun _ s c s₁ r hs _ hc => hstep s c s₁ r hs hc) cs [] s s' rs hI
    (along_of_forall step (fun _ _ => trivial) cs s) hrun

/-- **What holds all along a run, told from its calls**: if a step from a good state with a good
history leads to such a one exactly when it is guarded, all states of a run are good exactly when all
its calls are guarded. -/
theorem run_history_iff {P : σ → κ → Prop} {I Q : List (κ × ρ) → σ → Prop}
    (hstep : ∀ h s c s₁ r, I h s → Q h s → step s c = .ok (s₁, r) →
      I (h ++ [(c, r)]) s₁ ∧ (Q (h ++ [(c, r)]) s₁ ↔ P s c)) :
    ∀ (cs : List κ) (h : List (κ × ρ)) (s s' : σ) (rs : List ρ), I h s → Q h s →
      runFrom step s cs = .ok (s', rs) →
        ((∀ pre, pre <+: cs → ∀ s₁ rs₁, runFrom step s pre = .ok (s₁, rs₁) →
          Q (h ++ pre.zip rs₁) s₁) ↔ Along step P s cs) := by
  intro cs
  induction cs with
  | nil =>
    intro h s s' rs _ hQ _
    refine iff_of_true (fun pre hpre s₁ rs₁ hrun => ?_) trivial
    obtain rfl := List.prefix_nil.mp hpre
    obtain ⟨rfl, -⟩ : s = s₁ ∧ [] = rs₁ := by simpa using hrun
    simpa using hQ
  | cons c cs ih =>
    intro h s s' rs hI hQ hrun
    obtain ⟨s₁, r, rs', hc, hcs, rfl⟩ := (runFrom_cons step).mp hrun
    obtain ⟨hI₁, hiff⟩ := hstep h s c s₁ r hI hQ hc
    constructor
    · intro hall
      have hQ₁ : Q (h ++ [(c, r)]) s₁ := hall [c] ⟨cs, rfl⟩ s₁ [r]
        ((runFrom_cons step).mpr ⟨s₁, r, [], hc, rfl, rfl⟩)
      refine ⟨hiff.mp hQ₁, fun s₂ r₂ hc₂ => ?_⟩
      obtain ⟨rfl, -⟩ := Prod.mk.inj (Except.ok.inj (hc.symm.trans hc₂))
      refine (ih _ s₁ s' rs' hI₁ hQ₁ hcs).mp fun pre hpre s₃ rs₃ hrun₃ => ?_
      have hnext := hall (c :: pre) (List.cons_prefix_cons.mpr ⟨rfl, hpre⟩) s₃ (r :: rs₃)
        ((runFrom_cons step).mpr ⟨s₁, r, rs₃, hc, hrun₃, rfl⟩)
      simpa using hnext
    · rintro ⟨hP, hnext⟩ pre hpre s₂ rs₂ hrun₂
      have hrest := (ih _ s₁ s' rs' hI₁ (hiff.mpr hP) hcs).mpr (hnext s₁ r hc)
      rcases List.prefix_cons_iff.mp hpre with rfl | ⟨pre', rfl, hpre'⟩
      · obtain ⟨rfl, -⟩ : s = s₂ ∧ [] = rs₂ := by simpa using hrun₂
        simpa using hQ
      · obtain ⟨s₃, r₃, rs₃, hc₃, hrun₃, rfl⟩ := (runFrom_cons step).mp hrun₂
        obtain ⟨rfl, rfl⟩ := Prod.mk.inj (Except.ok.inj (hc.symm.trans hc₃))
        have hrest' := hrest pre' hpre' s₂ rs₃ hrun₃
        simpa using hrest'

/-- **What holds in every state of a run, told from its calls**: if a step from a good state leads
to a good state exactly when it is guarded, all states of a run are good exactly when all its calls
are guarded. -/
theorem run_always_iff {P : σ → κ → Prop} {I Q : σ → Prop}
    (hstep : ∀ s c s₁ r, I s → Q s → step s c = .ok (s₁, r) → I s₁ ∧ (Q s₁ ↔ P s c))
    (cs : List κ) (s s' : σ) (rs : List ρ) (hI : I s) (hQ : Q s)
    (hrun : runFrom step s cs = .ok (s', rs)) :
    (∀ pre, pre <+: cs → ∀ s₁ rs₁, runFrom step s pre = .ok (s₁, rs₁) → Q s₁) ↔
      Along step P s cs :=
  run_history_iff step (I := fun _ s => I s) (Q := fun _ s => Q s)
    (fun _ s c s₁ r hI hQ hc => hstep s c s₁ r hI hQ hc) cs [] s s' rs hI hQ hrun

/-- **The total invariant rule.**  If in every state of the invariant a guarded call returns and
keeps it, then every guarded run returns, in a state of the invariant. -/
theorem run_total {P : σ → κ → Prop} {I : σ → Prop}
    (hstep : ∀ s c, I s → P s c → ∃ s₁ r, step s c = .ok (s₁, r) ∧ I s₁) :
    ∀ (cs : List κ) (s : σ), I s → Along step P s cs →
      ∃ s' rs, runFrom step s cs = .ok (s', rs) ∧ I s' := by
  intro cs
  induction cs with
  | nil => exact fun s hI _ => ⟨s, [], rfl, hI⟩
  | cons c cs ih =>
    intro s hI hP
    obtain ⟨s₁, r, hc, hI₁⟩ := hstep s c hI hP.1
    obtain ⟨s', rs, hcs, hI'⟩ := ih s₁ hI₁ (hP.2 s₁ r hc)
    exact ⟨s', r :: rs, (runFrom_cons step).mpr ⟨s₁, r, rs, hc, hcs, rfl⟩, hI'⟩

/-- **The total invariant rule over histories.**  If in every state of the invariant a call returns
and keeps it, then every run returns, in a state of the invariant. -/
theorem run_total_history {I : List (κ × ρ) → σ → Prop}
    (hstep : ∀ h s c, I h s → ∃ s₁ r, step s c = .ok (s₁, r) ∧ I (h ++ [(c, r)]) s₁) :
    ∀ (cs : List κ) (h : List (κ × ρ)) (s : σ), I h s →
      ∃ s' rs, runFrom step s cs = .ok (s', rs) ∧ I (h ++ cs.zip rs) s' := by
  intro cs
  induction cs with
  | nil => exact fun h s hI => ⟨s, [], rfl, by simpa using hI⟩
  | cons c cs ih =>
    intro h s hI
    obtain ⟨s₁, r, hc, hI₁⟩ := hstep h s c hI
    obtain ⟨s', rs, hcs, hI'⟩ := ih (h ++ [(c, r)]) s₁ hI₁
    exact ⟨s', r :: rs, (runFrom_cons step).mpr ⟨s₁, r, rs, hc, hcs, rfl⟩, by simpa using hI'⟩

end Run

/-! ## Histories -/

section Since

variable {α : Type} {P Q : α → Prop} {h : List α} {e : α}

variable (P Q h) in
/-- Some entry of a history is a `Q`, and all those after it are `P`. -/
def Since : Prop := ∃ before e after, h = before ++ e :: after ∧ Q e ∧ ∀ e' ∈ after, P e'

/-- **The step lemma of `Since`**: the new entry is a `Q`, or a `P` after one. -/
theorem since_append : Since P Q (h ++ [e]) ↔ Q e ∨ Since P Q h ∧ P e := by
  constructor
  · rintro ⟨before, x, after, heq, hx, hafter⟩
    rcases List.eq_nil_or_concat after with rfl | ⟨after, y, rfl⟩
    · obtain ⟨-, hlast⟩ := List.append_inj' heq rfl
      exact Or.inl (List.singleton_inj.mp hlast ▸ hx)
    · obtain ⟨rfl, hlast⟩ := List.append_inj' (heq.trans (by simp :
        before ++ x :: after.concat y = (before ++ x :: after) ++ [y])) rfl
      obtain rfl := List.singleton_inj.mp hlast
      exact Or.inr ⟨⟨before, x, after, rfl, hx, fun e' he' => hafter e' (by simp [he'])⟩,
        hafter e (by simp)⟩
  · rintro (he | ⟨⟨before, x, after, rfl, hx, hafter⟩, he⟩)
    · exact ⟨h, e, [], rfl, he, by simp⟩
    · refine ⟨before, x, after ++ [e], by simp, hx, fun e' he' => ?_⟩
      rcases List.mem_append.mp he' with he' | he'
      · exact hafter e' he'
      · exact List.mem_singleton.mp he' ▸ he

end Since

/-! ## Components

A step of a system may act on a component of its state; what it does there depends on the state that
it finds. -/

section Trace

variable {σ τ κ μ ρ ν : Type} (step : σ → κ → Exec (σ × ρ)) (acts : σ → κ → List μ)

/-- What the calls of a run do to a component, one after the other. -/
def traceFrom : σ → List κ → List μ
  | _, [] => []
  | s, c :: cs => acts s c ++
      match step s c with
      | .ok (s₁, _) => traceFrom s₁ cs
      | .error _ => []

variable {step acts} {s s₁ s' : σ} {c : κ} {cs : List κ} {r : ρ} {rs : List ρ}

theorem traceFrom_cons (hstep : step s c = .ok (s₁, r)) (cs : List κ) :
    traceFrom step acts s (c :: cs) = acts s c ++ traceFrom step acts s₁ cs := by
  rw [traceFrom, hstep]

theorem traceFrom_append (hrun : runFrom step s cs = .ok (s₁, rs)) (ds : List κ) :
    traceFrom step acts s (cs ++ ds) = traceFrom step acts s cs ++ traceFrom step acts s₁ ds := by
  induction cs generalizing s rs with
  | nil =>
    obtain ⟨rfl, -⟩ : s = s₁ ∧ [] = rs := by simpa using hrun
    rfl
  | cons c cs ih =>
    obtain ⟨s₂, r, rs', hstep, hrest, -⟩ := (runFrom_cons step).mp hrun
    rw [List.cons_append, traceFrom_cons hstep, traceFrom_cons hstep, ih hrest, List.append_assoc]

variable (acts) in
/-- What is done to the component around an entry of a history. -/
theorem exists_trace_of_zip {before after : List (κ × ρ)} (hrun : runFrom step s cs = .ok (s', rs))
    (hzip : cs.zip rs = before ++ (c, r) :: after) :
    ∃ s₁ s₂, step s₁ c = .ok (s₂, r) ∧ traceFrom step acts s cs =
      traceFrom step acts s (before.map Prod.fst) ++
        (acts s₁ c ++ traceFrom step acts s₂ (after.map Prod.fst)) := by
  obtain ⟨s₁, s₂, hbefore, hstep⟩ := exists_step_of_zip step hrun hzip
  refine ⟨s₁, s₂, hstep, ?_⟩
  rw [calls_of_zip step hrun hzip, traceFrom_append hbefore, traceFrom_cons hstep]

/-- What is done to the component is done by one of the calls. -/
theorem exists_of_mem_traceFrom {a : μ} :
    ∀ {cs : List κ} {s : σ}, a ∈ traceFrom step acts s cs → ∃ c ∈ cs, ∃ s₁, a ∈ acts s₁ c
  | [], _, h => absurd h List.not_mem_nil
  | c :: cs, s, h => by
      rcases List.mem_append.mp h with h | h
      · exact ⟨c, List.mem_cons_self, s, h⟩
      · cases hstep : step s c with
        | error f => simp [hstep] at h
        | ok p =>
          rw [hstep] at h
          obtain ⟨c', hc', hex⟩ := exists_of_mem_traceFrom h
          exact ⟨c', List.mem_cons_of_mem c hc', hex⟩

theorem length_traceFrom_le (hone : ∀ s c, (acts s c).length ≤ 1) :
    ∀ (cs : List κ) (s : σ), (traceFrom step acts s cs).length ≤ cs.length
  | [], _ => Nat.le_refl _
  | c :: cs, s => by
      rw [traceFrom, List.length_append, List.length_cons, Nat.add_comm cs.length]
      refine Nat.add_le_add (hone s c) ?_
      cases step s c with
      | error f => exact Nat.zero_le _
      | ok p => exact length_traceFrom_le hone cs p.1

/-- **A run is a run of its component**, if every step is. -/
theorem run_trace {sub : τ → μ → Exec (τ × ν)} {part : σ → τ}
    (hpart : ∀ {s c s₁ r}, step s c = .ok (s₁, r) →
      ∃ ns, runFrom sub (part s) (acts s c) = .ok (part s₁, ns))
    (hrun : runFrom step s cs = .ok (s', rs)) :
    ∃ ns, runFrom sub (part s) (traceFrom step acts s cs) = .ok (part s', ns) := by
  induction cs generalizing s rs with
  | nil =>
    obtain ⟨rfl, -⟩ : s = s' ∧ [] = rs := by simpa using hrun
    exact ⟨[], rfl⟩
  | cons c cs ih =>
    obtain ⟨s₁, r, rs', hstep, hrest, -⟩ := (runFrom_cons step).mp hrun
    obtain ⟨ns, hfirst⟩ := hpart hstep
    obtain ⟨ns', hrest'⟩ := ih hrest
    rw [traceFrom_cons hstep]
    exact ⟨ns ++ ns', (runFrom_append sub).mpr ⟨part s₁, ns, ns', hfirst, hrest', rfl⟩⟩

end Trace

/-! ## Simulation

A specification is a total step on abstract states; `replay` runs it. -/

section Simulation

variable {σ τ κ ρ : Type} (step : σ → κ → Exec (σ × ρ)) (spec : τ → κ → τ × ρ)

/-- The calls `cs` on the abstract state `t`: the state they lead to and their answers. -/
def replay : τ → List κ → τ × List ρ
  | t, [] => (t, [])
  | t, c :: cs =>
      let (t₁, r) := spec t c
      let (t₂, rs) := replay t₁ cs
      (t₂, r :: rs)

/-- **The simulation rule.**  Steps that return the specification's answer and keep the relation
make runs that do so. -/
theorem run_simulates (R : σ → τ → Prop)
    (hstep : ∀ s t c, R s t → ∃ s₁, step s c = .ok (s₁, (spec t c).2) ∧ R s₁ (spec t c).1) :
    ∀ (cs : List κ) (s : σ) (t : τ), R s t →
      ∃ s', runFrom step s cs = .ok (s', (replay spec t cs).2) ∧ R s' (replay spec t cs).1 := by
  intro cs
  induction cs with
  | nil => exact fun s t hR => ⟨s, rfl, hR⟩
  | cons c cs ih =>
    intro s t hR
    obtain ⟨s₁, hc, hR₁⟩ := hstep s t c hR
    obtain ⟨s', hcs, hR'⟩ := ih s₁ _ hR₁
    exact ⟨s', (runFrom_cons step).mpr ⟨s₁, _, _, hc, hcs, rfl⟩, hR'⟩

/-- **The simulation rule for guarded calls**: it is enough that the steps agree on the calls that
are guarded in the abstract state. -/
theorem run_simulates_along {R : σ → τ → Prop} {P : τ → κ → Prop}
    (hstep : ∀ s t c, R s t → P t c → ∃ s₁, step s c = .ok (s₁, (spec t c).2) ∧ R s₁ (spec t c).1) :
    ∀ (cs : List κ) (s : σ) (t : τ), R s t → Along (fun t c => .ok (spec t c)) P t cs →
      ∃ s', runFrom step s cs = .ok (s', (replay spec t cs).2) ∧ R s' (replay spec t cs).1 := by
  intro cs
  induction cs with
  | nil => exact fun s t hR _ => ⟨s, rfl, hR⟩
  | cons c cs ih =>
    intro s t hR hP
    obtain ⟨s₁, hc, hR₁⟩ := hstep s t c hR hP.1
    obtain ⟨s', hcs, hR'⟩ := ih s₁ _ hR₁ (hP.2 _ _ rfl)
    exact ⟨s', (runFrom_cons step).mpr ⟨s₁, _, _, hc, hcs, rfl⟩, hR'⟩

/-- The specification as a step that never faults. -/
theorem runFrom_spec (cs : List κ) (t : τ) :
    runFrom (fun t c => .ok (spec t c)) t cs = .ok (replay spec t cs) := by
  obtain ⟨t', hrun, rfl⟩ := run_simulates (fun t c => .ok (spec t c)) spec (fun t t' => t = t')
    (fun t _ c h => ⟨(spec t c).1, h ▸ rfl, h ▸ rfl⟩) cs t t rfl
  exact hrun

end Simulation

end SmallKV
