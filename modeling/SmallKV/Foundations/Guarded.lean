import SmallKV.Foundations.Linearize

/-!
# Foundations/Guarded — objects whose methods run under a lock

Every object has a lock.  A method takes the lock, runs its statements one by one, gives the lock
back and returns; a thread that does not get the lock tries again.  `Guard` is a lock as its users
see it, and `Excludes` is the law of one that lets a single thread in at a time.

Under that law no statement of one thread comes between two statements of another on the same
object (`HeldBy.eq_of_inside`), and the methods take effect one at a time (`guarded_simulates`), so
that everything `Foundations/Linearize` says of a simulation holds of them.
-/

namespace SmallKV

variable {α ι κ ρ ℓ O L G : Type}

/-! ## Locks -/

/-- A lock of which the holder has a guard: one attempt to take it, and giving it back. -/
structure Guard (L G ι : Type) where
  enter : L → ι → Exec (L × Option G)
  leave : L → G → ι → Exec L

/-- **The law of mutual exclusion**: a free lock lets anybody in, one that is held lets nobody else
in, and the holder gives it back.  `Holds` says who holds a lock, and by which guard. -/
structure Guard.Excludes (g : Guard L G ι) (Holds : L → Option (ι × G) → Prop) : Prop where
  take : ∀ {l}, Holds l none → ∀ i, ∃ l' k, g.enter l i = .ok (l', some k) ∧ Holds l' (some (i, k))
  wait : ∀ {l i j k}, Holds l (some (j, k)) → j ≠ i →
    ∃ l', g.enter l i = .ok (l', none) ∧ Holds l' (some (j, k))
  give : ∀ {l i k}, Holds l (some (i, k)) → ∃ l', g.leave l k i = .ok l' ∧ Holds l' none

/-! ## Methods -/

/-- The body of a method, statement by statement: a statement changes the object and reads a value,
and what comes next depends on the value. -/
inductive Code (α ℓ ρ : Type)
  | ret (r : ρ)
  | stmt (f : α → Exec (α × ℓ)) (next : ℓ → Code α ℓ ρ)

/-- The body run alone. -/
def Code.run : Code α ℓ ρ → α → Exec (α × ρ)
  | .ret r, a => return (a, r)
  | .stmt f next, a => do
      let (a, x) ← f a
      (next x).run a

@[simp] theorem Code.run_ret (r : ρ) (a : α) :
    (.ret r : Code α ℓ ρ).run a = .ok (a, r) := rfl

/-- After a statement the rest of the body does what the body would have done. -/
theorem Code.run_stmt {f : α → Exec (α × ℓ)} {next : ℓ → Code α ℓ ρ} {a a' : α} {x : ℓ}
    (hf : f a = .ok (a', x)) : (Code.stmt f next).run a = (next x).run a' := by
  rw [run, hf]
  rfl

/-- A statement that reads nothing. -/
def Code.act [Inhabited ℓ] (f : α → Exec α) (next : Code α ℓ ρ) : Code α ℓ ρ :=
  .stmt (fun a => do return (← f a, default)) fun _ => next

@[simp] theorem Code.act_run [Inhabited ℓ] {f : α → Exec α} {next : Code α ℓ ρ} {a : α} :
    (act f next).run a = (do let a ← f a; next.run a) := by
  rw [act, run]
  cases f a <;> rfl

section Objects

variable [DecidableEq O] (code : κ → Code α ℓ ρ) (obj : κ → O) (g : Guard L G ι)

/-- A method call alone, on the object it is for. -/
def callOn (t : O → α) (c : κ) : Exec ((O → α) × ρ) := do
  let (a, r) ← (code c).run (t (obj c))
  return (Function.update t (obj c) a, r)

/-- Objects, each with its lock. -/
structure Guarded (O α L : Type) where
  objects : O → α
  locks : O → L

/-- How far a call has come: it tries to take the lock, or it has a guard and the rest of its body
to run. -/
inductive Phase (G α ℓ ρ : Type)
  | entering
  | inside (guard : G) (rest : Code α ℓ ρ)

/-- **A method call in small moves**: an attempt to take the lock, a statement, or giving the lock
back. -/
def guarded : Machine (Guarded O α L) ι κ ρ (Phase G α ℓ ρ) where
  start _ := .entering
  move s i c
    | .entering => do
        let (l, k) ← g.enter (s.locks (obj c)) i
        let s := { s with locks := Function.update s.locks (obj c) l }
        return (s, .inl (k.elim .entering (.inside · (code c))))
    | .inside k (.stmt f next) => do
        let (a, x) ← f (s.objects (obj c))
        return ({ s with objects := Function.update s.objects (obj c) a }, .inl (.inside k (next x)))
    | .inside k (.ret r) => do
        let l ← g.leave (s.locks (obj c)) k i
        return ({ s with locks := Function.update s.locks (obj c) l }, .inr r)

/-- The answer of a call is decided when it returns. -/
def Phase.decided : Phase G α ℓ ρ → Option ρ := fun _ => none

/-! ## The invariant -/

/-- **The locking invariant**: `holder` says who holds each lock.  The objects of the locks nobody
holds are as the calls that returned have left them; the holder of a lock is inside a call on its
object, and the rest of the call does now what the whole of it did before. -/
structure HeldBy (Holds : L → Option (ι × G) → Prop) (holder : O → Option (ι × G))
    (s : Guarded O α L) (busy : ι → Option (κ × Phase G α ℓ ρ)) (t : O → α) : Prop where
  locks : ∀ o, Holds (s.locks o) (holder o)
  free : ∀ o, holder o = none → s.objects o = t o
  held : ∀ {o i k}, holder o = some (i, k) →
    ∃ c rest, busy i = some (c, .inside k rest) ∧ obj c = o
  inside : ∀ {i c k rest}, busy i = some (c, .inside k rest) →
    holder (obj c) = some (i, k) ∧ rest.run (s.objects (obj c)) = (code c).run (t (obj c))

/-- Some threads hold the locks. -/
def Locked (Holds : L → Option (ι × G) → Prop) (s : Guarded O α L)
    (busy : ι → Option (κ × Phase G α ℓ ρ)) (t : O → α) : Prop :=
  ∃ holder, HeldBy code obj Holds holder s busy t

variable {code obj g} {Holds : L → Option (ι × G) → Prop} {holder : O → Option (ι × G)}
  {s : Guarded O α L} {busy : ι → Option (κ × Phase G α ℓ ρ)} {t : O → α} {i j : ι} {c : κ} {k : G}
  {rest : Code α ℓ ρ} {l : L} {a : α}

omit [DecidableEq O] in
/-- At first nobody holds a lock. -/
theorem locked_start (h : ∀ o, Holds (s.locks o) none) :
    Locked code obj Holds s (fun _ : ι => none) s.objects :=
  ⟨fun _ => none, h, fun _ _ => rfl, fun h => absurd h (by simp), fun h => absurd h (by simp)⟩

namespace HeldBy

variable (h : HeldBy code obj Holds holder s busy t)
include h

omit [DecidableEq O] in
/-- A thread that is not inside a call holds no lock. -/
theorem ne_of_entering (hi : ∀ c k rest, busy i ≠ some (c, .inside k rest)) {o : O}
    (ho : holder o = some (j, k)) : j ≠ i := by
  rintro rfl
  obtain ⟨c, rest, hbusy, -⟩ := h.held ho
  exact hi c k rest hbusy

omit [DecidableEq O] in
/-- **Mutual exclusion**: two threads inside calls on one object are one. -/
theorem eq_of_inside {c' : κ} {k' : G} {rest' : Code α ℓ ρ}
    (hi : busy i = some (c, .inside k rest)) (hj : busy j = some (c', .inside k' rest'))
    (hobj : obj c' = obj c) : i = j := by
  have hholder := (h.inside hj).1
  rw [hobj, (h.inside hi).1] at hholder
  exact congrArg Prod.fst (Option.some.inj hholder)

variable [DecidableEq ι]

omit [DecidableEq O] in
/-- A thread goes to try a lock. -/
theorem enter (hi : ∀ c k rest, busy i ≠ some (c, .inside k rest)) :
    HeldBy code obj Holds holder s (Function.update busy i (some (c, .entering))) t where
  locks := h.locks
  free := h.free
  held {o j k} ho := by
    obtain ⟨c', rest, hbusy, hobj⟩ := h.held ho
    exact ⟨c', rest, by rw [Function.update_of_ne (h.ne_of_entering hi ho), hbusy], hobj⟩
  inside {j c' k rest} hj := by
    by_cases hji : j = i
    · subst hji
      simp at hj
    · exact h.inside (by rwa [Function.update_of_ne hji] at hj)

omit [DecidableEq ι] in
/-- A thread tries a lock in vain. -/
theorem wait {o : O} (hl : Holds l (holder o)) :
    HeldBy code obj Holds holder { s with locks := Function.update s.locks o l } busy t where
  locks o' := by
    by_cases ho : o' = o
    · subst ho
      simpa using hl
    · simpa [ho] using h.locks o'
  free := h.free
  held := h.held
  inside := h.inside

/-- A thread takes a lock. -/
theorem take (hi : ∀ c k rest, busy i ≠ some (c, .inside k rest)) (hfree : holder (obj c) = none)
    (hl : Holds l (some (i, k))) :
    HeldBy code obj Holds (Function.update holder (obj c) (some (i, k)))
      { s with locks := Function.update s.locks (obj c) l }
      (Function.update busy i (some (c, .inside k (code c)))) t where
  locks o := by
    by_cases ho : o = obj c
    · subst ho
      simpa using hl
    · simpa [ho] using h.locks o
  free o hnone := by
    by_cases ho : o = obj c
    · subst ho
      simp at hnone
    · exact h.free o (by rwa [Function.update_of_ne ho] at hnone)
  held {o j k'} hsome := by
    by_cases ho : o = obj c
    · subst ho
      obtain ⟨rfl, rfl⟩ : i = j ∧ k = k' := by simpa using hsome
      exact ⟨c, code c, Function.update_self .., rfl⟩
    · rw [Function.update_of_ne ho] at hsome
      obtain ⟨c', rest, hbusy, hobj⟩ := h.held hsome
      exact ⟨c', rest, by rw [Function.update_of_ne (h.ne_of_entering hi hsome), hbusy], hobj⟩
  inside {j c' k' rest} hj := by
    by_cases hji : j = i
    · subst hji
      simp only [Function.update_self, Option.some.injEq, Prod.mk.injEq, Phase.inside.injEq] at hj
      obtain ⟨rfl, rfl, rfl⟩ := hj
      exact ⟨Function.update_self .., congrArg _ (h.free _ hfree)⟩
    · rw [Function.update_of_ne hji] at hj
      obtain ⟨hholder, hrest⟩ := h.inside hj
      have hne : obj c' ≠ obj c := fun heq => by simp [heq, hfree] at hholder
      exact ⟨by rw [Function.update_of_ne hne, hholder], hrest⟩

/-- A thread runs a statement. -/
theorem run {f : α → Exec (α × ℓ)} {next : ℓ → Code α ℓ ρ} {x : ℓ}
    (hi : busy i = some (c, .inside k (.stmt f next)))
    (hf : f (s.objects (obj c)) = .ok (a, x)) :
    HeldBy code obj Holds holder { s with objects := Function.update s.objects (obj c) a }
      (Function.update busy i (some (c, .inside k (next x)))) t where
  locks := h.locks
  free o hnone := by
    have hne : o ≠ obj c := by
      rintro rfl
      rw [(h.inside hi).1] at hnone
      cases hnone
    simpa [hne] using h.free o hnone
  held {o j k'} hsome := by
    obtain ⟨c', rest, hbusy, rfl⟩ := h.held hsome
    by_cases hji : j = i
    · subst hji
      obtain ⟨rfl, rfl, -⟩ : c = c' ∧ k = k' ∧ _ := by simpa using hi.symm.trans hbusy
      exact ⟨c, next x, Function.update_self .., rfl⟩
    · exact ⟨c', rest, by rw [Function.update_of_ne hji, hbusy], rfl⟩
  inside {j c' k' rest} hj := by
    by_cases hji : j = i
    · subst hji
      simp only [Function.update_self, Option.some.injEq, Prod.mk.injEq, Phase.inside.injEq] at hj
      obtain ⟨rfl, rfl, rfl⟩ := hj
      obtain ⟨hholder, hrest⟩ := h.inside hi
      refine ⟨hholder, ?_⟩
      rw [← hrest, Code.run_stmt hf]
      simp
    · rw [Function.update_of_ne hji] at hj
      have hne : obj c' ≠ obj c := fun hobj => hji (h.eq_of_inside hj hi hobj.symm)
      simpa [hne] using h.inside hj

/-- A thread gives a lock back: its call has taken effect. -/
theorem give {r : ρ} (hi : busy i = some (c, .inside k (.ret r))) (hl : Holds l none) :
    HeldBy code obj Holds (Function.update holder (obj c) none)
      { s with locks := Function.update s.locks (obj c) l } (Function.update busy i none)
      (Function.update t (obj c) (s.objects (obj c))) where
  locks o := by
    by_cases ho : o = obj c
    · subst ho
      simpa using hl
    · simpa [ho] using h.locks o
  free o hnone := by
    by_cases ho : o = obj c
    · subst ho
      simp
    · rw [Function.update_of_ne ho] at hnone ⊢
      exact h.free o hnone
  held {o j k'} hsome := by
    by_cases ho : o = obj c
    · subst ho
      simp at hsome
    · rw [Function.update_of_ne ho] at hsome
      obtain ⟨c', rest, hbusy, hobj⟩ := h.held hsome
      refine ⟨c', rest, ?_, hobj⟩
      have hji : j ≠ i := by
        rintro rfl
        obtain ⟨rfl, -⟩ : c = c' ∧ _ := by simpa using hi.symm.trans hbusy
        exact ho hobj.symm
      rw [Function.update_of_ne hji, hbusy]
  inside {j c' k' rest} hj := by
    by_cases hji : j = i
    · subst hji
      simp at hj
    · rw [Function.update_of_ne hji] at hj
      have hne : obj c' ≠ obj c := fun hobj => hji (h.eq_of_inside hj hi hobj.symm)
      simpa [hne] using h.inside hj

end HeldBy

/-! ## One call at a time -/

variable [DecidableEq ι]

/-- A move of a thread that tries to take a lock. -/
theorem Locked.entering (hex : g.Excludes Holds) (h : Locked code obj Holds s busy t)
    (hi : busy i = some (c, .entering)) :
    ∃ s' p, (guarded code obj g).move s i c .entering = .ok (s', .inl p) ∧
      Locked code obj Holds s' (Function.update busy i (some (c, p))) t := by
  obtain ⟨holder, h⟩ := h
  have hout : ∀ c k rest, busy i ≠ some (c, .inside k rest) := by simp [hi]
  have hlock := h.locks (obj c)
  cases ho : holder (obj c) with
  | none =>
    rw [ho] at hlock
    obtain ⟨l, k, hstep, hl⟩ := hex.take hlock i
    exact ⟨_, _, by simp only [guarded, hstep, ok_bind]; rfl, _, h.take hout ho hl⟩
  | some p =>
    obtain ⟨j, k⟩ := p
    rw [ho] at hlock
    obtain ⟨l, hstep, hl⟩ := hex.wait hlock (h.ne_of_entering hout ho)
    refine ⟨_, _, by simp only [guarded, hstep, ok_bind]; rfl, holder, ?_⟩
    exact (h.enter hout).wait (ho ▸ hl)

/-- A move of a thread that has run its body: the call takes effect. -/
theorem Locked.leaving (hex : g.Excludes Holds) (h : Locked code obj Holds s busy t) {r : ρ}
    (hi : busy i = some (c, .inside k (.ret r))) :
    ∃ s' t', (guarded code obj g).move s i c (.inside k (.ret r)) = .ok (s', .inr r) ∧
      callOn code obj t c = .ok (t', r) ∧
      Locked code obj Holds s' (Function.update busy i none) t' := by
  obtain ⟨holder, h⟩ := h
  obtain ⟨hholder, hrest⟩ := h.inside hi
  have hlock := h.locks (obj c)
  rw [hholder] at hlock
  obtain ⟨l, hstep, hl⟩ := hex.give hlock
  refine ⟨_, _, by simp only [guarded, hstep, ok_bind]; rfl, ?_, _, h.give hi hl⟩
  rw [callOn, ← hrest]
  rfl

/-- **A move of a thread inside its call**: a statement does what it does in the whole call. -/
theorem Locked.running (h : Locked code obj Holds s busy t) {f : α → Exec (α × ℓ)}
    {next : ℓ → Code α ℓ ρ} (hi : busy i = some (c, .inside k (.stmt f next))) :
    Owes (callOn code obj) Phase.decided (Locked code obj Holds) busy t i c (.inside k (.stmt f next))
      ((guarded code obj g).move s i c (.inside k (.stmt f next))) := by
  obtain ⟨holder, h⟩ := h
  have hrest := (h.inside hi).2
  cases hf : f (s.objects (obj c)) with
  | error e =>
    have hmove : (guarded code obj g).move s i c (.inside k (.stmt f next)) = .error e := by
      simp only [guarded, hf, error_bind]
    rw [hmove]
    refine ⟨rfl, e, ?_⟩
    rw [callOn, ← hrest, Code.run, hf]
    rfl
  | ok out =>
    obtain ⟨a, x⟩ := out
    have hmove : (guarded code obj g).move s i c (.inside k (.stmt f next)) =
        .ok ({ s with objects := Function.update s.objects (obj c) a }, .inl (.inside k (next x))) := by
      simp only [guarded, hf, ok_bind, pure_eq_ok]
    rw [hmove]
    exact ⟨t, .keeps _, holder, h.run hi hf⟩

/-- **Under mutual exclusion the methods take effect one at a time**, each when it returns. -/
theorem guarded_simulates (code : κ → Code α ℓ ρ) (obj : κ → O) (hex : g.Excludes Holds) :
    Simulates (guarded code obj g) (callOn code obj) Phase.decided (Locked code obj Holds) := by
  refine .of_move (fun {s busy t i c} h hi => ?_) (fun {s busy t i c p} h hi => ?_)
  · obtain ⟨holder, h⟩ := h
    exact ⟨rfl, holder, h.enter (by simp [hi])⟩
  · cases p with
    | entering =>
      obtain ⟨s', p', hstep, h'⟩ := h.entering hex hi
      rw [hstep]
      exact ⟨t, .keeps _, h'⟩
    | inside k rest =>
      cases rest with
      | stmt f next => exact h.running hi
      | ret r =>
        obtain ⟨s', t', hstep, hcall, h'⟩ := h.leaving hex hi
        rw [hstep]
        exact ⟨t', .takes hcall, h'⟩

end Objects

end SmallKV
