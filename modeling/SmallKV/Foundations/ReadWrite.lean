import SmallKV.Foundations.Guarded

/-!
# Foundations/ReadWrite — an object behind a readers–writer lock

The lock lets in one writer alone or any number of readers.  A writer runs the body of its call
statement by statement.  The moves of readers mix, so a reader is given by what it has come to: it
may change the object in the move that decides its answer, if that disturbs none of the others.
`Reading` is what has to be proved of the readers; then all calls take effect one at a time
(`readWrite_simulates`).
-/

namespace SmallKV

variable {α ι κ ρ ℓ ψ : Type}

/-! ## The lock -/

/-- `std::shared_mutex`: the thread that owns it alone, and the threads that share it. -/
structure SharedMutex (ι : Type) where
  writer : Option ι
  readers : List ι
  deriving Repr

namespace SharedMutex

/-- A lock that nobody owns. -/
def new : SharedMutex ι := ⟨none, []⟩

variable [DecidableEq ι]

/-- A thread that owns the lock waits for itself forever. -/
def owned (l : SharedMutex ι) (i : ι) : Bool := l.writer = some i || i ∈ l.readers

/-- A round of `lock`. -/
def lock (l : SharedMutex ι) (i : ι) : Exec (SharedMutex ι × Bool) := do
  require (!l.owned i) .diverged
  if l.writer.isNone && l.readers.isEmpty then return (⟨some i, []⟩, true) else return (l, false)

/-- A round of `lock_shared`. -/
def lockShared (l : SharedMutex ι) (i : ι) : Exec (SharedMutex ι × Bool) := do
  require (!l.owned i) .diverged
  if l.writer.isNone then return ({ l with readers := i :: l.readers }, true) else return (l, false)

/-- `unlock`. -/
def unlock (l : SharedMutex ι) (i : ι) : Exec (SharedMutex ι) := do
  require (l.writer = some i) .assertion
  return { l with writer := none }

/-- `unlock_shared`. -/
def unlockShared (l : SharedMutex ι) (i : ι) : Exec (SharedMutex ι) := do
  require (i ∈ l.readers) .assertion
  return { l with readers := l.readers.erase i }

end SharedMutex

/-! ## Readers and writers -/

/-- An object behind a readers–writer lock. -/
structure Shared (α ι : Type) where
  object : α
  lock : SharedMutex ι

/-- How far a call has come: it tries to take the lock, it writes, it reads, or it has read and has
the lock to give back. -/
inductive RwPhase (α ℓ ρ ψ : Type)
  | entering
  | writing (rest : Code α ℓ ρ)
  | reading (p : ψ)
  | leaving (r : ρ)

variable [DecidableEq ι]

/-- **Calls behind a readers–writer lock**: a call is the body of a writer, or what a reader starts
with. -/
def readWrite (body : κ → Code α ℓ ρ ⊕ ψ) (read : α → κ → ψ → Exec (α × (ψ ⊕ ρ))) :
    Machine (Shared α ι) ι κ ρ (RwPhase α ℓ ρ ψ) where
  start _ := .entering
  move s i c
    | .entering =>
        match body c with
        | .inl code => do
            let (l, entered) ← s.lock.lock i
            return ({ s with lock := l }, .inl (if entered then .writing code else .entering))
        | .inr p => do
            let (l, entered) ← s.lock.lockShared i
            return ({ s with lock := l }, .inl (if entered then .reading p else .entering))
    | .writing (.stmt f next) => do
        let (a, x) ← f s.object
        return ({ s with object := a }, .inl (.writing (next x)))
    | .writing (.ret r) => do
        let l ← s.lock.unlock i
        return ({ s with lock := l }, .inr r)
    | .reading p => do
        let (a, out) ← read s.object c p
        return ({ s with object := a }, .inl (out.elim .reading .leaving))
    | .leaving r => do
        let l ← s.lock.unlockShared i
        return ({ s with lock := l }, .inr r)

/-- The answer of a call is decided while it reads, or when it returns. -/
def RwPhase.decided (decided : ψ → Option ρ) : RwPhase α ℓ ρ ψ → Option ρ
  | .entering => none
  | .writing _ => none
  | .reading p => decided p
  | .leaving r => some r

omit [DecidableEq ι] in
/-- **What the readers owe**: `Good` says what a reader relies on, in a state of the object with
`Inv`.  It holds when the reader starts, its own moves keep it, and so do the moves of the others; a
move changes the object only if it decides the answer, and then as the whole call does; and what
faults does so in the whole call. -/
structure Reading (seq : α → κ → Exec (α × ρ)) (body : κ → Code α ℓ ρ ⊕ ψ)
    (read : α → κ → ψ → Exec (α × (ψ ⊕ ρ))) (decided : ψ → Option ρ) (Inv : α → Prop)
    (Good : α → κ → ψ → Prop) : Prop where
  write : ∀ {c code}, body c = .inl code → ∀ a, code.run a = seq a c
  inv : ∀ {a c a' r}, Inv a → seq a c = .ok (a', r) → Inv a'
  start : ∀ {a c p}, Inv a → body c = .inr p → Good a c p ∧ decided p = none
  own : ∀ {a c p a' out}, Inv a → Good a c p → read a c p = .ok (a', out) →
    Decides seq c a (decided p) (out.elim decided some) a' ∧ ∀ p', out = .inl p' → Good a' c p'
  others : ∀ {a c p a' out c' p'}, Inv a → Good a c p → read a c p = .ok (a', out) →
    Good a c' p' → Good a' c' p'
  fault : ∀ {a c p e}, Inv a → Good a c p → read a c p = .error e →
    decided p = none ∧ ∃ e', seq a c = .error e'

omit [DecidableEq ι] in
/-- A move that has the effect it has on the answer keeps the invariant of the object. -/
theorem Reading.inv_of_decides {seq : α → κ → Exec (α × ρ)} {body : κ → Code α ℓ ρ ⊕ ψ}
    {read : α → κ → ψ → Exec (α × (ψ ⊕ ρ))} {decided : ψ → Option ρ} {Inv : α → Prop}
    {Good : α → κ → ψ → Prop} (hread : Reading seq body read decided Inv Good) {a a' : α} {c : κ}
    {before after : Option ρ} (ha : Inv a) (hdecides : Decides seq c a before after a') :
    Inv a' := by
  cases hdecides with
  | keeps => exact ha
  | takes heffect => exact hread.inv ha heffect

/-! ## The invariant -/

omit [DecidableEq ι] in
/-- A thread that writes. -/
def IsWriting (call : Option (κ × RwPhase α ℓ ρ ψ)) : Prop := ∃ c rest, call = some (c, .writing rest)

omit [DecidableEq ι] in
/-- A thread that reads or has read. -/
def IsReading (call : Option (κ × RwPhase α ℓ ρ ψ)) : Prop :=
  ∃ c, (∃ p, call = some (c, .reading p)) ∨ ∃ r, call = some (c, .leaving r)

/-- **The readers–writer invariant.**  The writer of the lock and its readers are the threads that
write and that read, not both at once.  While nobody writes the object is as the calls so far have
left it, and every reader has what it relies on; the rest of a writer's call does now what the whole
of it did before. -/
structure Sharing (body : κ → Code α ℓ ρ ⊕ ψ) (Inv : α → Prop) (Good : α → κ → ψ → Prop)
    (s : Shared α ι) (busy : ι → Option (κ × RwPhase α ℓ ρ ψ)) (t : α) : Prop where
  writer : ∀ i, s.lock.writer = some i ↔ IsWriting (busy i)
  readers : ∀ i, i ∈ s.lock.readers ↔ IsReading (busy i)
  nodup : s.lock.readers.Nodup
  exclusive : s.lock.writer = none ∨ s.lock.readers = []
  object : s.lock.writer = none → s.object = t
  rest : ∀ i c rest, busy i = some (c, .writing rest) →
    ∃ code, body c = .inl code ∧ rest.run s.object = code.run t
  good : ∀ i c p, busy i = some (c, .reading p) → Good t c p
  inv : Inv t

variable {body : κ → Code α ℓ ρ ⊕ ψ} {Inv : α → Prop} {Good : α → κ → ψ → Prop} {s s' : Shared α ι}
  {busy : ι → Option (κ × RwPhase α ℓ ρ ψ)} {t t' : α} {i j : ι} {c : κ}
  {call : Option (κ × RwPhase α ℓ ρ ψ)}

@[simp] theorem not_isWriting_none : ¬ IsWriting (none : Option (κ × RwPhase α ℓ ρ ψ)) := by
  simp [IsWriting]

@[simp] theorem not_isWriting_entering :
    ¬ IsWriting (some (c, .entering) : Option (κ × RwPhase α ℓ ρ ψ)) := by simp [IsWriting]

@[simp] theorem isWriting_writing (rest : Code α ℓ ρ) :
    IsWriting (some (c, .writing rest) : Option (κ × RwPhase α ℓ ρ ψ)) := ⟨c, rest, rfl⟩

@[simp] theorem not_isWriting_reading (p : ψ) :
    ¬ IsWriting (some (c, .reading p) : Option (κ × RwPhase α ℓ ρ ψ)) := by simp [IsWriting]

@[simp] theorem not_isWriting_leaving (r : ρ) :
    ¬ IsWriting (some (c, .leaving r) : Option (κ × RwPhase α ℓ ρ ψ)) := by simp [IsWriting]

@[simp] theorem not_isReading_none : ¬ IsReading (none : Option (κ × RwPhase α ℓ ρ ψ)) := by
  simp [IsReading]

@[simp] theorem not_isReading_entering :
    ¬ IsReading (some (c, .entering) : Option (κ × RwPhase α ℓ ρ ψ)) := by simp [IsReading]

@[simp] theorem not_isReading_writing (rest : Code α ℓ ρ) :
    ¬ IsReading (some (c, .writing rest) : Option (κ × RwPhase α ℓ ρ ψ)) := by simp [IsReading]

@[simp] theorem isReading_reading (p : ψ) :
    IsReading (some (c, .reading p) : Option (κ × RwPhase α ℓ ρ ψ)) := ⟨c, Or.inl ⟨p, rfl⟩⟩

@[simp] theorem isReading_leaving (r : ρ) :
    IsReading (some (c, .leaving r) : Option (κ × RwPhase α ℓ ρ ψ)) := ⟨c, Or.inr ⟨r, rfl⟩⟩

omit [DecidableEq ι] in
/-- At first nobody owns the lock. -/
theorem sharing_start {a : α} (ha : Inv a) :
    Sharing body Inv Good ⟨a, .new⟩ (fun _ : ι => none) a where
  writer := by simp [SharedMutex.new]
  readers := by simp [SharedMutex.new]
  nodup := List.nodup_nil
  exclusive := Or.inl rfl
  object _ := rfl
  rest _ _ _ h := by cases h
  good _ _ _ h := by cases h
  inv := ha

namespace Sharing

/-- A thread that neither writes nor reads owns nothing. -/
theorem not_owned (h : Sharing body Inv Good s busy t) (hw : ¬ IsWriting (busy i))
    (hr : ¬ IsReading (busy i)) : s.lock.owned i = false := by
  simp [SharedMutex.owned, h.writer, h.readers, hw, hr]

omit [DecidableEq ι] in
/-- While anybody reads nobody writes. -/
theorem writer_eq_none (h : Sharing body Inv Good s busy t) (hr : IsReading (busy i)) :
    s.lock.writer = none := by
  rcases h.exclusive with hnone | hnil
  · exact hnone
  · have hmem := (h.readers i).mpr hr
    rw [hnil] at hmem
    cases hmem

/-- **A move keeps the invariant** when it moves its thread in the lock as it moves it in its call,
and gives the others what they rely on. -/
theorem next (h : Sharing body Inv Good s busy t)
    (hwriter : s'.lock.writer = some i ↔ IsWriting call)
    (hwriters : ∀ j, j ≠ i → (s'.lock.writer = some j ↔ s.lock.writer = some j))
    (hreader : i ∈ s'.lock.readers ↔ IsReading call)
    (hreaders : ∀ j, j ≠ i → (j ∈ s'.lock.readers ↔ j ∈ s.lock.readers))
    (hnodup : s'.lock.readers.Nodup) (hexclusive : s'.lock.writer = none ∨ s'.lock.readers = [])
    (hobject : s'.lock.writer = none → s'.object = t')
    (hrest : ∀ c rest, call = some (c, .writing rest) →
      ∃ code, body c = .inl code ∧ rest.run s'.object = code.run t')
    (hrests : ∀ j, j ≠ i → s.lock.writer = some j → s'.object = s.object ∧ t' = t)
    (hgood : ∀ c p, call = some (c, .reading p) → Good t' c p)
    (hgoods : ∀ j c p, j ≠ i → busy j = some (c, .reading p) → Good t c p → Good t' c p)
    (hinv : Inv t') : Sharing body Inv Good s' (Function.update busy i call) t' where
  writer j := by
    by_cases hj : j = i
    · subst hj
      rw [hwriter, Function.update_self]
    · rw [hwriters j hj, h.writer, Function.update_of_ne hj]
  readers j := by
    by_cases hj : j = i
    · subst hj
      rw [hreader, Function.update_self]
    · rw [hreaders j hj, h.readers, Function.update_of_ne hj]
  nodup := hnodup
  exclusive := hexclusive
  object := hobject
  rest j c rest hbusy := by
    by_cases hj : j = i
    · subst hj
      exact hrest c rest (by simpa using hbusy)
    · rw [Function.update_of_ne hj] at hbusy
      obtain ⟨hs, ht⟩ := hrests j hj ((h.writer j).mpr ⟨c, rest, hbusy⟩)
      rw [hs, ht]
      exact h.rest j c rest hbusy
  good j c p hbusy := by
    by_cases hj : j = i
    · subst hj
      exact hgood c p (by simpa using hbusy)
    · rw [Function.update_of_ne hj] at hbusy
      exact hgoods j c p hj hbusy (h.good j c p hbusy)
  inv := hinv

/-- A move that leaves the lock alone. -/
theorem stay (h : Sharing body Inv Good s busy t) (hlock : s'.lock = s.lock)
    (hwrites : IsWriting call ↔ IsWriting (busy i)) (hreads : IsReading call ↔ IsReading (busy i))
    (hobject : s.lock.writer = none → s'.object = t')
    (hrest : ∀ c rest, call = some (c, .writing rest) →
      ∃ code, body c = .inl code ∧ rest.run s'.object = code.run t')
    (hrests : ∀ j, j ≠ i → s.lock.writer = some j → s'.object = s.object ∧ t' = t)
    (hgood : ∀ c p, call = some (c, .reading p) → Good t' c p)
    (hgoods : ∀ j c p, j ≠ i → busy j = some (c, .reading p) → Good t c p → Good t' c p)
    (hinv : Inv t') : Sharing body Inv Good s' (Function.update busy i call) t' := by
  refine h.next ?_ (fun j _ => ?_) ?_ (fun j _ => ?_) ?_ ?_ ?_ hrest hrests hgood hgoods hinv
  · rw [hlock, h.writer, hwrites]
  · rw [hlock]
  · rw [hlock, h.readers, hreads]
  · rw [hlock]
  · exact hlock ▸ h.nodup
  · exact hlock ▸ h.exclusive
  · exact hlock ▸ hobject

/-- A thread goes to try the lock, or tries it in vain. -/
theorem enter (h : Sharing body Inv Good s busy t) (hwrites : ¬ IsWriting (busy i))
    (hreads : ¬ IsReading (busy i)) :
    Sharing body Inv Good s (Function.update busy i (some (c, .entering))) t :=
  h.stay rfl (by simp [hwrites]) (by simp [hreads]) h.object (by simp) (fun _ _ _ => ⟨rfl, rfl⟩)
    (by simp) (fun _ _ _ _ _ hgood => hgood) h.inv

/-- **A round of `lock`**: the thread begins to write, alone, or waits. -/
theorem lock (h : Sharing body Inv Good s busy t) (hbusy : busy i = some (c, .entering))
    {code : Code α ℓ ρ} (hbody : body c = .inl code) :
    ∃ l entered, s.lock.lock i = .ok (l, entered) ∧ Sharing body Inv Good { s with lock := l }
      (Function.update busy i (some (c, if entered then .writing code else .entering))) t := by
  have hwrites : ¬ IsWriting (busy i) := by simp [hbusy]
  have hreads : ¬ IsReading (busy i) := by simp [hbusy]
  by_cases hfree : (s.lock.writer.isNone && s.lock.readers.isEmpty) = true
  · refine ⟨_, true, by simp only [SharedMutex.lock, h.not_owned hwrites hreads, hfree]; rfl, ?_⟩
    simp only [Bool.and_eq_true, Option.isNone_iff_eq_none, List.isEmpty_iff] at hfree
    obtain ⟨hnone, hnil⟩ := hfree
    refine h.next (by simp) (fun j hj => by simp [hnone, Ne.symm hj]) (by simp)
      (fun j _ => by simp [hnil]) List.nodup_nil (Or.inr rfl) (by simp) ?_ (by simp [hnone])
      (by simp) (fun _ _ _ _ _ hgood => hgood) h.inv
    rintro c' rest ⟨⟩
    exact ⟨code, hbody, by rw [h.object hnone]⟩
  · exact ⟨s.lock, false, by simp [SharedMutex.lock, h.not_owned hwrites hreads, hfree],
      h.enter hwrites hreads⟩

/-- **A round of `lock_shared`**: the thread begins to read, or waits. -/
theorem lockShared (h : Sharing body Inv Good s busy t) (hbusy : busy i = some (c, .entering))
    {p : ψ} (hgood : Good t c p) :
    ∃ l entered, s.lock.lockShared i = .ok (l, entered) ∧ Sharing body Inv Good { s with lock := l }
      (Function.update busy i (some (c, if entered then .reading p else .entering))) t := by
  have hwrites : ¬ IsWriting (busy i) := by simp [hbusy]
  have hreads : ¬ IsReading (busy i) := by simp [hbusy]
  by_cases hfree : s.lock.writer.isNone = true
  · refine ⟨_, true, by simp only [SharedMutex.lockShared, h.not_owned hwrites hreads, hfree]; rfl, ?_⟩
    have hnone := Option.isNone_iff_eq_none.mp hfree
    have hnotin : i ∉ s.lock.readers := fun hmem => hreads ((h.readers i).mp hmem)
    refine h.next (by simp [hnone]) (fun j _ => Iff.rfl) (by simp) (fun j hj => by simp [hj])
      (List.nodup_cons.mpr ⟨hnotin, h.nodup⟩) (Or.inl hnone) h.object (by simp) (by simp [hnone]) ?_
      (fun _ _ _ _ _ hgood => hgood) h.inv
    rintro c' p' ⟨⟩
    exact hgood
  · exact ⟨s.lock, false, by simp [SharedMutex.lockShared, h.not_owned hwrites hreads, hfree],
      h.enter hwrites hreads⟩

/-- A writer runs a statement. -/
theorem write (h : Sharing body Inv Good s busy t) {f : α → Exec (α × ℓ)} {next : ℓ → Code α ℓ ρ}
    {a : α} {x : ℓ} (hbusy : busy i = some (c, .writing (.stmt f next)))
    (hf : f s.object = .ok (a, x)) :
    Sharing body Inv Good { s with object := a }
      (Function.update busy i (some (c, .writing (next x)))) t := by
  have hwriter : s.lock.writer = some i := (h.writer i).mpr (by simp [hbusy])
  refine h.stay rfl (by simp [hbusy]) (by simp [hbusy]) (by simp [hwriter]) ?_ ?_ (by simp)
    (fun _ _ _ _ _ hgood => hgood) h.inv
  · rintro c' rest ⟨⟩
    obtain ⟨code, hbody, hrest⟩ := h.rest i _ _ hbusy
    exact ⟨code, hbody, by rw [← hrest, Code.run_stmt hf]⟩
  · intro j hj hother
    rw [hwriter] at hother
    exact absurd (Option.some.inj hother).symm hj

/-- **A writer gives the lock back**: its call has taken effect. -/
theorem unlock (h : Sharing body Inv Good s busy t) {r : ρ}
    (hbusy : busy i = some (c, .writing (.ret r))) (hinv : Inv s.object) :
    ∃ l, s.lock.unlock i = .ok l ∧
      Sharing body Inv Good { s with lock := l } (Function.update busy i none) s.object := by
  have hwriter : s.lock.writer = some i := (h.writer i).mpr (by simp [hbusy])
  have hnil : s.lock.readers = [] := by
    rcases h.exclusive with hnone | hnil
    · simp [hwriter] at hnone
    · exact hnil
  refine ⟨{ s.lock with writer := none }, by simp [SharedMutex.unlock, hwriter], ?_⟩
  refine h.next (by simp) (fun j hj => by simp [hwriter, Ne.symm hj]) (by simp [hnil])
    (fun _ _ => Iff.rfl) h.nodup (Or.inl rfl) (fun _ => rfl) (by simp) ?_ (by simp) ?_ hinv
  · intro j hj hother
    rw [hwriter] at hother
    exact absurd (Option.some.inj hother).symm hj
  · intro j c p _ hreading
    have hmem := (h.readers j).mpr (by simp [hreading])
    rw [hnil] at hmem
    cases hmem

/-- A reader makes a move. -/
theorem read (h : Sharing body Inv Good s busy t) {p : ψ} {a : α} {out : ψ ⊕ ρ}
    (hbusy : busy i = some (c, .reading p)) (hinv : Inv a)
    (hown : ∀ p', out = .inl p' → Good a c p') (hothers : ∀ c' p', Good t c' p' → Good a c' p') :
    Sharing body Inv Good { s with object := a }
      (Function.update busy i (some (c, out.elim .reading .leaving))) a := by
  have hwriter : s.lock.writer = none := h.writer_eq_none (i := i) (by simp [hbusy])
  refine h.stay rfl ?_ ?_ (fun _ => rfl) ?_ (by simp [hwriter]) ?_
    (fun _ _ _ _ _ hgood => hothers _ _ hgood) hinv
  · cases out <;> simp [hbusy]
  · cases out <;> simp [hbusy]
  · cases out <;> simp
  · cases out with
    | inl p' =>
      rintro c' p'' ⟨⟩
      exact hown p' rfl
    | inr r => simp

/-- A reader gives the lock back. -/
theorem unlockShared (h : Sharing body Inv Good s busy t) {r : ρ}
    (hbusy : busy i = some (c, .leaving r)) :
    ∃ l, s.lock.unlockShared i = .ok l ∧
      Sharing body Inv Good { s with lock := l } (Function.update busy i none) t := by
  have hwriter : s.lock.writer = none := h.writer_eq_none (i := i) (by simp [hbusy])
  have hmem : i ∈ s.lock.readers := (h.readers i).mpr (by simp [hbusy])
  refine ⟨_, by simp only [SharedMutex.unlockShared, hmem]; rfl, ?_⟩
  refine h.next (by simp [hwriter]) (fun _ _ => Iff.rfl) ?_ (fun j hj => ?_) (h.nodup.erase i)
    (Or.inl hwriter) h.object (by simp) (by simp [hwriter]) (by simp)
    (fun _ _ _ _ _ hgood => hgood) h.inv
  · simp [h.nodup.mem_erase_iff]
  · simp [h.nodup.mem_erase_iff, hj]

end Sharing

/-! ## One call at a time -/

variable {seq : α → κ → Exec (α × ρ)} {read : α → κ → ψ → Exec (α × (ψ ⊕ ρ))}
  {decided : ψ → Option ρ}

/-- What a move of these calls owes. -/
abbrev RwOwes (seq : α → κ → Exec (α × ρ)) (body : κ → Code α ℓ ρ ⊕ ψ) (decided : ψ → Option ρ)
    (Inv : α → Prop) (Good : α → κ → ψ → Prop) (busy : ι → Option (κ × RwPhase α ℓ ρ ψ)) (t : α)
    (i : ι) (c : κ) (p : RwPhase α ℓ ρ ψ) : Exec (Shared α ι × (RwPhase α ℓ ρ ψ ⊕ ρ)) → Prop :=
  Owes seq (RwPhase.decided decided) (Sharing body Inv Good) busy t i c p

namespace Sharing

section Moves

variable (hread : Reading seq body read decided Inv Good) (h : Sharing body Inv Good s busy t)
include hread h

/-- A thread that tries to take the lock gets it or not. -/
theorem owes_entering (hbusy : busy i = some (c, .entering)) :
    RwOwes seq body decided Inv Good busy t i c .entering
      ((readWrite body read).move s i c .entering) := by
  cases hbody : body c with
  | inl code =>
    obtain ⟨l, entered, hlock, h'⟩ := h.lock hbusy hbody
    simp only [readWrite, hbody, hlock, ok_bind, pure_eq_ok]
    refine ⟨t, ?_, h'⟩
    cases entered <;> exact .keeps none
  | inr p =>
    obtain ⟨hgood, hnone⟩ := hread.start h.inv hbody
    obtain ⟨l, entered, hlock, h'⟩ := h.lockShared hbusy hgood
    simp only [readWrite, hbody, hlock, ok_bind, pure_eq_ok]
    refine ⟨t, ?_, h'⟩
    cases entered
    · exact .keeps none
    · change Decides seq c t none (decided p) t
      rw [hnone]
      exact .keeps none

/-- A statement does what it does in the whole call. -/
theorem owes_stmt {f : α → Exec (α × ℓ)} {next : ℓ → Code α ℓ ρ}
    (hbusy : busy i = some (c, .writing (.stmt f next))) :
    RwOwes seq body decided Inv Good busy t i c (.writing (.stmt f next))
      ((readWrite body read).move s i c (.writing (.stmt f next))) := by
  obtain ⟨code, hbody, hrest⟩ := h.rest i _ _ hbusy
  cases hf : f s.object with
  | error e =>
    simp only [readWrite, hf, error_bind]
    refine ⟨rfl, e, ?_⟩
    rw [← hread.write hbody, ← hrest, Code.run, hf]
    rfl
  | ok out =>
    obtain ⟨a, x⟩ := out
    simp only [readWrite, hf, ok_bind, pure_eq_ok]
    exact ⟨t, .keeps none, h.write hbusy hf⟩

/-- A writer that returns has done what its call does. -/
theorem owes_ret {r : ρ} (hbusy : busy i = some (c, .writing (.ret r))) :
    RwOwes seq body decided Inv Good busy t i c (.writing (.ret r))
      ((readWrite body read).move s i c (.writing (.ret r))) := by
  obtain ⟨code, hbody, hrest⟩ := h.rest i _ _ hbusy
  rw [hread.write hbody, Code.run_ret] at hrest
  obtain ⟨l, hunlock, h'⟩ := h.unlock hbusy (hread.inv h.inv hrest.symm)
  simp only [readWrite, hunlock, ok_bind, pure_eq_ok]
  exact ⟨s.object, .takes hrest.symm, h'⟩

/-- **A move of a reader** has the effect on the object that it has on the answer. -/
theorem owes_reading {p : ψ} (hbusy : busy i = some (c, .reading p)) :
    RwOwes seq body decided Inv Good busy t i c (.reading p)
      ((readWrite body read).move s i c (.reading p)) := by
  have hgood := h.good i c p hbusy
  have hobject := h.object (h.writer_eq_none (i := i) (by simp [hbusy]))
  cases hmove : read s.object c p with
  | error e =>
    simp only [readWrite, hmove, error_bind]
    exact hread.fault h.inv hgood (hobject ▸ hmove)
  | ok result =>
    obtain ⟨a, out⟩ := result
    simp only [readWrite, hmove, ok_bind, pure_eq_ok]
    rw [hobject] at hmove
    obtain ⟨hdecides, hown⟩ := hread.own h.inv hgood hmove
    have hothers : ∀ c' p', Good t c' p' → Good a c' p' := fun _ _ hgood' =>
      hread.others h.inv hgood hmove hgood'
    have h' := h.read hbusy (hread.inv_of_decides h.inv hdecides) hown hothers
    cases out <;> exact ⟨a, hdecides, h'⟩

omit hread in
/-- A reader that returns has had its answer. -/
theorem owes_leaving {r : ρ} (hbusy : busy i = some (c, .leaving r)) :
    RwOwes seq body decided Inv Good busy t i c (.leaving r)
      ((readWrite body read).move s i c (.leaving r)) := by
  obtain ⟨l, hunlock, h'⟩ := h.unlockShared hbusy
  simp only [readWrite, hunlock, ok_bind, pure_eq_ok]
  exact ⟨t, .keeps (some r), h'⟩

end Moves

end Sharing

/-- **Behind a readers–writer lock the calls take effect one at a time**: a writer's when it
returns, and a reader's when its answer is decided. -/
theorem readWrite_simulates (hread : Reading seq body read decided Inv Good) :
    Simulates (readWrite body read) seq (RwPhase.decided decided)
      (fun (s : Shared α ι) busy t => Sharing body Inv Good s busy t) := by
  refine .of_move (fun h hbusy => ⟨rfl, h.enter (by simp [hbusy]) (by simp [hbusy])⟩)
    (fun {s busy t i c p} h hbusy => ?_)
  cases p with
  | entering => exact h.owes_entering hread hbusy
  | writing rest =>
    cases rest with
    | stmt f next => exact h.owes_stmt hread hbusy
    | ret r => exact h.owes_ret hread hbusy
  | reading p => exact h.owes_reading hread hbusy
  | leaving r => exact h.owes_leaving hbusy

end SmallKV
