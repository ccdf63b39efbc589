import SmallKV.Foundations.Guarded

/-!
# Utils/Lock — the locks of `utils/lock.h`

`NullLock`, `MutexLock` and `SpinLock` are what `ScopedLock` can lock.  A thread that calls `lock`
goes round until it gets the lock, so `lock` is one such round.  `ScopedLock` remembers whether it
holds the lock; a block with a `ScopedLock` may lock and unlock it by hand as often as it likes.

The mutex and the spin lock let one thread in at a time (`mutexLock_excludes`,
`spinLock_excludes`), and for a lock with this law no block of any thread misuses it: two guards
are never locked at once, and the lock is held exactly while one is (`blocks_exclude`).
-/

namespace SmallKV

variable {L ι : Type}

/-! ## The three locks -/

/-- What `ScopedLock` needs of a `LockType`: a round of `lock()`, which says whether the call has
returned, and `unlock()`. -/
structure LockType (L ι : Type) where
  lock : L → ι → Exec (L × Bool)
  unlock : L → ι → Exec L

/-- `NullLock`. -/
def nullLock : LockType Unit ι where
  lock l _ := return (l, true)
  unlock l _ := return l

/-- `MutexLock`, with the thread that owns its `std::mutex`. -/
structure MutexLock (ι : Type) where
  owner : Option ι
  deriving DecidableEq, Repr

/-- The constructor of `MutexLock`. -/
def MutexLock.new : MutexLock ι := ⟨none⟩

/-- The calls of a `MutexLock`.  The owner of a `std::mutex` waits for itself forever when it locks
it again, and nobody else may unlock it. -/
def mutexLock [DecidableEq ι] : LockType (MutexLock ι) ι where
  lock l i :=
    match l.owner with
    | none => return (⟨some i⟩, true)
    | some j => if j = i then .error .diverged else return (l, false)
  unlock l i := do
    require (l.owner = some i) .assertion
    return ⟨none⟩

/-- `SpinLock`. -/
structure SpinLock where
  flag : Bool
  deriving DecidableEq, Repr

/-- The constructor of `SpinLock`. -/
def SpinLock.new : SpinLock := ⟨false⟩

/-- The calls of a `SpinLock`: `test_and_set` returns the flag as it was and sets it. -/
def spinLock : LockType SpinLock ι where
  lock l _ := return (⟨true⟩, !l.flag)
  unlock _ _ := return ⟨false⟩

/-- **The law of mutual exclusion of a lock**: `Owner` says who has it. -/
structure LockType.Excludes (T : LockType L ι) (Owner : L → Option ι → Prop) : Prop where
  take : ∀ {l}, Owner l none → ∀ i, ∃ l', T.lock l i = .ok (l', true) ∧ Owner l' (some i)
  wait : ∀ {l i j}, Owner l (some j) → j ≠ i → ∃ l', T.lock l i = .ok (l', false) ∧ Owner l' (some j)
  give : ∀ {l i}, Owner l (some i) → ∃ l', T.unlock l i = .ok l' ∧ Owner l' none

/-- **The mutex excludes.** -/
theorem mutexLock_excludes [DecidableEq ι] :
    (mutexLock : LockType (MutexLock ι) ι).Excludes fun l owner => l.owner = owner where
  take {l} h i := ⟨⟨some i⟩, by simp [mutexLock, h], rfl⟩
  wait {l i j} h hne := ⟨l, by simp [mutexLock, h, hne], h⟩
  give {l i} h := ⟨⟨none⟩, by simp [mutexLock, h], rfl⟩

/-- **The spin lock excludes**, although it does not know who has it. -/
theorem spinLock_excludes :
    (spinLock : LockType SpinLock ι).Excludes fun l owner => l.flag = owner.isSome where
  take {l} h i := ⟨⟨true⟩, by simp [spinLock, h], rfl⟩
  wait {l i j} h _ := ⟨⟨true⟩, by simp [spinLock, h], rfl⟩
  give {l i} _ := ⟨⟨false⟩, rfl, rfl⟩

/-! ## The guard -/

/-- `ScopedLock`. -/
structure ScopedLock where
  isLocked : Bool
  deriving DecidableEq, Repr

namespace ScopedLock

variable (T : LockType L ι)

/-- A round of `lock`; as long as the thread waits there is no guard to go on with. -/
def lock (l : L) (g : ScopedLock) (i : ι) : Exec (L × Option ScopedLock) :=
  if !g.isLocked then do
    let (l, returned) ← T.lock l i
    return (l, if returned then some ⟨true⟩ else none)
  else return (l, some g)

/-- `unlock`. -/
def unlock (l : L) (g : ScopedLock) (i : ι) : Exec (L × ScopedLock) :=
  if g.isLocked then do
    let l ← T.unlock l i
    return (l, ⟨false⟩)
  else return (l, g)

/-- A round of the constructor. -/
def new (l : L) (i : ι) : Exec (L × Option ScopedLock) := lock T l ⟨false⟩ i

/-- The destructor. -/
def drop (l : L) (g : ScopedLock) (i : ι) : Exec L := do
  let (l, _) ← unlock T l g i
  return l

/-- A method whose body begins with a `ScopedLock`. -/
def guard : Guard L ScopedLock ι := ⟨new T, drop T⟩

variable {T} {Owner : L → Option ι → Prop}

/-- **A guarded method excludes others** when the lock does. -/
theorem guard_excludes (hT : T.Excludes Owner) :
    (guard T).Excludes fun l holder =>
      Owner l (holder.map Prod.fst) ∧ ∀ p ∈ holder, p.2.isLocked = true where
  take {l} h i := by
    obtain ⟨l', hlock, hl'⟩ := hT.take h.1 i
    exact ⟨l', ⟨true⟩, by simp [guard, new, lock, hlock], hl', by simp⟩
  wait {l i j k} h hne := by
    obtain ⟨l', hlock, hl'⟩ := hT.wait h.1 hne
    exact ⟨l', by simp [guard, new, lock, hlock], hl', h.2⟩
  give {l i k} h := by
    obtain ⟨l', hunlock, hl'⟩ := hT.give h.1
    have hlocked : k.isLocked = true := h.2 (i, k) rfl
    exact ⟨l', by simp [guard, drop, unlock, hlocked, hunlock], hl', by simp⟩

end ScopedLock

/-! ## Blocks -/

/-- What a block does with its `ScopedLock` between the constructor and the destructor. -/
inductive BlockOp
  | lock
  | unlock
  deriving DecidableEq, Repr

/-- How far a block has come: it is in the constructor, or it has a guard and some calls on it left
to make. -/
inductive BlockPhase
  | entering
  | opened (guard : ScopedLock) (rest : List BlockOp)

/-- **Blocks with a `ScopedLock`**, in small moves: a round of a `lock`, an `unlock`, and at the end
the destructor. -/
def blocks (T : LockType L ι) : Machine L ι (List BlockOp) Unit BlockPhase where
  start _ := .entering
  move l i block
    | .entering => do
        let (l, g) ← ScopedLock.new T l i
        return (l, .inl (g.elim .entering (.opened · block)))
    | .opened g (.lock :: rest) => do
        let (l, g') ← g.lock T l i
        return (l, .inl (g'.elim (.opened g (.lock :: rest)) (.opened · rest)))
    | .opened g (.unlock :: rest) => do
        let (l, g) ← g.unlock T l i
        return (l, .inl (.opened g rest))
    | .opened g [] => do
        let l ← g.drop T l i
        return (l, .inr ())

/-- Thread `i` is in a block whose guard is locked. -/
def InBlock (s : Threads L ι (List BlockOp) Unit BlockPhase) (i : ι) : Prop :=
  ∃ block g rest, s.busy i = some (block, .opened g rest) ∧ g.isLocked = true

/-- **The invariant of blocks**: who has the lock is in a block whose guard is locked, and nobody
else is. -/
def Excluded (Owner : L → Option ι → Prop) (s : Threads L ι (List BlockOp) Unit BlockPhase) : Prop :=
  ∃ owner, Owner s.shared owner ∧ ∀ i, owner = some i ↔ InBlock s i

section Blocks

variable {T : LockType L ι} {Owner : L → Option ι → Prop}
  {s s₁ : Threads L ι (List BlockOp) Unit BlockPhase} {owner owner' : Option ι} {i : ι} {l : L}

/-- **A round of a `lock`**: a guard that is locked stays so; one that is not gets the lock or
waits. -/
theorem ScopedLock.lock_spec (hT : T.Excludes Owner) (hl : Owner l owner) {g : ScopedLock}
    (hself : owner = some i ↔ g.isLocked = true) :
    ∃ l' g' owner', g.lock T l i = .ok (l', g') ∧ Owner l' owner' ∧
      ((g' = none ∧ g.isLocked = false ∧ owner' ≠ some i) ∨
        ∃ k, g' = some k ∧ k.isLocked = true ∧ owner' = some i) ∧
      ∀ j, j ≠ i → (owner' = some j ↔ owner = some j) := by
  cases hg : g.isLocked with
  | true =>
    obtain rfl := hself.mpr hg
    exact ⟨l, some g, some i, by simp [lock, hg], hl, Or.inr ⟨g, rfl, hg, rfl⟩, fun _ _ => Iff.rfl⟩
  | false =>
    cases owner with
    | none =>
      obtain ⟨l', hlock, hl'⟩ := hT.take hl i
      exact ⟨l', some ⟨true⟩, some i, by simp [lock, hg, hlock], hl', Or.inr ⟨_, rfl, rfl, rfl⟩,
        fun j hj => by simpa using Ne.symm hj⟩
    | some k =>
      have hk : k ≠ i := fun hki => by simp [hki, hg] at hself
      obtain ⟨l', hlock, hl'⟩ := hT.wait hl hk
      exact ⟨l', none, some k, by simp [lock, hg, hlock], hl', Or.inl ⟨rfl, rfl, by simpa using hk⟩,
        fun _ _ => Iff.rfl⟩

/-- An `unlock` gives the lock back if the guard has it. -/
theorem ScopedLock.unlock_spec (hT : T.Excludes Owner) (hl : Owner l owner) {g : ScopedLock}
    (hself : owner = some i ↔ g.isLocked = true) :
    ∃ l' g' owner', g.unlock T l i = .ok (l', g') ∧ g'.isLocked = false ∧ Owner l' owner' ∧
      owner' ≠ some i ∧ ∀ j, j ≠ i → (owner' = some j ↔ owner = some j) := by
  cases hg : g.isLocked with
  | true =>
    obtain rfl := hself.mpr hg
    obtain ⟨l', hunlock, hl'⟩ := hT.give hl
    exact ⟨l', ⟨false⟩, none, by simp [unlock, hg, hunlock], rfl, hl', by simp,
      fun j hj => by simpa using Ne.symm hj⟩
  | false =>
    have hne : owner ≠ some i := fun h => by simp [hself.mp h] at hg
    exact ⟨l, g, owner, by simp [unlock, hg], hg, hl, hne, fun _ _ => Iff.rfl⟩

/-- The guard of a block; in the constructor there is none that is locked. -/
def BlockPhase.guard : BlockPhase → ScopedLock
  | .entering => ⟨false⟩
  | .opened g _ => g

/-- **A move of a block that is in progress** returns, and afterwards the thread has the lock exactly
if its block goes on with a guard that is locked. -/
theorem blocks_move (hT : T.Excludes Owner) (hl : Owner l owner) (block : List BlockOp)
    {p : BlockPhase} (hself : owner = some i ↔ p.guard.isLocked = true) :
    ∃ l' out owner', (blocks T).move l i block p = .ok (l', out) ∧ Owner l' owner' ∧
      (owner' = some i ↔ ∃ g rest, out = .inl (.opened g rest) ∧ g.isLocked = true) ∧
      ∀ j, j ≠ i → (owner' = some j ↔ owner = some j) := by
  cases p with
  | entering =>
    obtain ⟨l', g', owner', hlock, hl', hcase, hothers⟩ :=
      ScopedLock.lock_spec (g := ⟨false⟩) hT hl hself
    refine ⟨l', _, owner', by simp [blocks, ScopedLock.new, hlock]; rfl, hl', ?_, hothers⟩
    rcases hcase with ⟨rfl, -, hne⟩ | ⟨k, rfl, hk, rfl⟩
    · simp [hne]
    · simp [hk]
  | opened g rest =>
    have hguard : owner = some i ↔ g.isLocked = true := hself
    rcases rest with _ | ⟨_ | _, rest⟩
    · obtain ⟨l', g', owner', hunlock, -, hl', hne, hothers⟩ :=
        ScopedLock.unlock_spec hT hl hguard
      refine ⟨l', _, owner', by simp [blocks, ScopedLock.drop, hunlock]; rfl, hl', ?_, hothers⟩
      simp [hne]
    · obtain ⟨l', g', owner', hlock, hl', hcase, hothers⟩ := ScopedLock.lock_spec hT hl hguard
      refine ⟨l', _, owner', by simp [blocks, hlock]; rfl, hl', ?_, hothers⟩
      rcases hcase with ⟨rfl, hg, hne⟩ | ⟨k, rfl, hk, rfl⟩
      · simp [hne, hg]
      · simp [hk]
    · obtain ⟨l', g', owner', hunlock, hg, hl', hne, hothers⟩ :=
        ScopedLock.unlock_spec hT hl hguard
      refine ⟨l', _, owner', by simp [blocks, hunlock]; rfl, hl', ?_, hothers⟩
      simp [hne, hg]

variable [DecidableEq ι]

/-- A thread has come further: it has the lock exactly if its guard is locked, and the others have
it as before. -/
theorem Excluded.of_busy (hin : ∀ i, owner = some i ↔ InBlock s i) (hl : Owner s₁.shared owner')
    {call : Option (List BlockOp × BlockPhase)} (hbusy : s₁.busy = Function.update s.busy i call)
    (hself : owner' = some i ↔
      ∃ block g rest, call = some (block, .opened g rest) ∧ g.isLocked = true)
    (hothers : ∀ j, j ≠ i → (owner' = some j ↔ owner = some j)) : Excluded Owner s₁ := by
  refine ⟨owner', hl, fun j => ?_⟩
  by_cases hj : j = i
  · subst hj
    rw [hself, InBlock, hbusy, Function.update_self]
  · rw [hothers j hj, hin j, InBlock, InBlock, hbusy, Function.update_of_ne hj]

/-- **Every move of a block returns and keeps the invariant.** -/
theorem Excluded.step (hT : T.Excludes Owner) (h : Excluded Owner s) (i : ι) :
    ∃ s₁ u, (blocks T).step s i = .ok (s₁, u) ∧ Excluded Owner s₁ := by
  obtain ⟨owner, hl, hin⟩ := h
  have hself := hin i
  cases hbusy : s.busy i with
  | none =>
    cases htodo : s.todo i with
    | nil => exact ⟨s, (), by simp [Machine.step, hbusy, htodo], owner, hl, hin⟩
    | cons block more =>
      refine ⟨_, (), by simp only [Machine.step, hbusy, htodo]; rfl, ?_⟩
      refine Excluded.of_busy hin hl rfl ?_ fun j _ => Iff.rfl
      rw [hself, InBlock, hbusy]
      simp [blocks]
  | some call =>
    obtain ⟨block, p⟩ := call
    have hguard : owner = some i ↔ p.guard.isLocked = true := by
      rw [hself, InBlock, hbusy]
      cases p <;> simp [BlockPhase.guard]
    obtain ⟨l', out, owner', hmove, hl', hgoes, hothers⟩ := blocks_move hT hl block hguard
    cases out with
    | inl p' =>
      refine ⟨_, (), by simp [Machine.step, hbusy, hmove]; rfl, ?_⟩
      exact Excluded.of_busy hin hl' rfl (by simpa using hgoes) hothers
    | inr r =>
      refine ⟨_, (), by simp [Machine.step, hbusy, hmove]; rfl, ?_⟩
      exact Excluded.of_busy hin hl' rfl (by simpa using hgoes) hothers

/-- **No block misuses a lock that excludes**: every schedule of any blocks of any threads returns,
and then the lock is held exactly by the thread that is in a block whose guard is locked. -/
theorem blocks_exclude (hT : T.Excludes Owner) {l₀ : L} (h₀ : Owner l₀ none)
    (programs : ι → List (List BlockOp)) (schedule : List ι) :
    ∃ s us, runFrom (blocks T).step (Threads.start l₀ programs) schedule = .ok (s, us) ∧
      Excluded Owner s :=
  run_total (blocks T).step (P := fun _ _ => True) (fun _ i h _ => h.step hT i) schedule _
    ⟨none, h₀, fun i => by simp [InBlock, Threads.start]⟩
    (along_of_forall _ (fun _ _ => trivial) _ _)

/-- **The locks in blocks.**  Whatever blocks the threads run, and in whatever order they move, no
call on a mutex or a spin lock goes wrong; the mutex is owned by the thread whose guard is locked,
and the flag of the spin lock is set exactly while there is one such thread, and no two. -/
theorem mutual_exclusion (programs : ι → List (List BlockOp)) (schedule : List ι) :
    (∃ s us, runFrom (blocks mutexLock).step (Threads.start MutexLock.new programs) schedule =
        .ok (s, us) ∧ ∀ i, s.shared.owner = some i ↔ InBlock s i) ∧
    ∃ s us, runFrom (blocks spinLock).step (Threads.start SpinLock.new programs) schedule =
        .ok (s, us) ∧ (s.shared.flag = true ↔ ∃ i, InBlock s i) ∧
      ∀ i j, InBlock s i → InBlock s j → i = j := by
  constructor
  · obtain ⟨s, us, hrun, owner, rfl, hin⟩ :=
      blocks_exclude mutexLock_excludes  rfl programs schedule
    exact ⟨s, us, hrun, hin⟩
  · obtain ⟨s, us, hrun, owner, hflag, hin⟩ :=
      blocks_exclude spinLock_excludes  rfl programs schedule
    refine ⟨s, us, hrun, ?_, fun i j hi hj => ?_⟩
    · simp only [hflag, Option.isSome_iff_exists, hin]
    · exact Option.some.inj (((hin i).mpr hi).symm.trans ((hin j).mpr hj))

end Blocks

end SmallKV
