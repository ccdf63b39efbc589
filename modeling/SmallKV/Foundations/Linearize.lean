import SmallKV.Foundations.Exec
import Mathlib.Algebra.BigOperators.Group.Finset.Basic
import Mathlib.Algebra.Order.BigOperators.Group.Finset
import Mathlib.Algebra.Order.BigOperators.Group.List
import Mathlib.Algebra.BigOperators.Group.Finset.Piecewise
import Mathlib.Algebra.GroupWithZero.Nat

/-!
# Foundations/Linearize — threads whose calls take effect one at a time

Threads carry out their programs of calls on shared memory, each call in small moves, and a schedule
names the thread that moves next.  A sequential object is a step that carries out a call at once.
`Simulates` relates the memory and the calls in progress to a state of the object, in such a way
that every call takes effect in one of its moves, the move that decides its answer.

Then every schedule is explained by the one order in which the calls took effect
(`linearizable`): the calls made one after the other in this order give the answers the threads got,
each thread's calls come in the order of its program, and a call that returned before another began
comes before it.  A schedule faults only where such an order does (`returns_of_sequential`).
-/

namespace SmallKV

variable {σ ι κ ρ φ τ : Type}

/-- A call in small moves: what is left of it is a `φ`, until it returns an answer. -/
structure Machine (σ ι κ ρ φ : Type) where
  start : κ → φ
  move : σ → ι → κ → φ → Exec (σ × (φ ⊕ ρ))

/-- Threads on shared memory: the call that each is busy with, the calls it has yet to make, and
those that returned, with their answers. -/
structure Threads (σ ι κ ρ φ : Type) where
  shared : σ
  busy : ι → Option (κ × φ)
  todo : ι → List κ
  returned : ι → List (κ × ρ)

namespace Threads

/-- Threads before their first calls. -/
def start (shared : σ) (programs : ι → List κ) : Threads σ ι κ ρ φ :=
  ⟨shared, fun _ => none, programs, fun _ => []⟩

/-- A thread's calls: those that returned, the one it is busy with, and those to come. -/
def calls (s : Threads σ ι κ ρ φ) (i : ι) : List κ :=
  (s.returned i).map Prod.fst ++ ((s.busy i).map Prod.fst).toList ++ s.todo i

/-- A thread's calls with an answer: those that returned, and the one it is busy with as soon as
its answer is decided. -/
def settled (decided : φ → Option ρ) (s : Threads σ ι κ ρ φ) (i : ι) : List (κ × ρ) :=
  s.returned i ++ ((s.busy i).bind fun p => (decided p.2).map (p.1, ·)).toList

end Threads

section Step

variable [DecidableEq ι] (m : Machine σ ι κ ρ φ)

/-- **The next move of a thread**: it goes on with its call, or begins the next one. -/
def Machine.step (s : Threads σ ι κ ρ φ) (i : ι) : Exec (Threads σ ι κ ρ φ × Unit) :=
  match s.busy i with
  | none =>
      match s.todo i with
      | [] => return (s, ())
      | c :: cs => return ({ s with
          busy := Function.update s.busy i (some (c, m.start c))
          todo := Function.update s.todo i cs }, ())
  | some (c, p) => do
      let (shared, next) ← m.move s.shared i c p
      match next with
      | .inl p => return ({ s with
          shared := shared
          busy := Function.update s.busy i (some (c, p)) }, ())
      | .inr r => return ({ s with
          shared := shared
          busy := Function.update s.busy i none
          returned := Function.update s.returned i (s.returned i ++ [(c, r)]) }, ())

variable {m} {s s₁ : Threads σ ι κ ρ φ} {i : ι} {u : Unit}

/-- **What a move can do.** -/
inductive Machine.Moves (m : Machine σ ι κ ρ φ) (s : Threads σ ι κ ρ φ) (i : ι) :
    Threads σ ι κ ρ φ → Prop
  /-- a thread whose program is over -/
  | rest (hbusy : s.busy i = none) (htodo : s.todo i = []) : Moves m s i s
  /-- a call begins -/
  | begin {c : κ} {cs : List κ} (hbusy : s.busy i = none) (htodo : s.todo i = c :: cs) :
      Moves m s i { s with
        busy := Function.update s.busy i (some (c, m.start c))
        todo := Function.update s.todo i cs }
  /-- a call goes on -/
  | go {c : κ} {p p' : φ} {shared : σ} (hbusy : s.busy i = some (c, p))
      (hmove : m.move s.shared i c p = .ok (shared, .inl p')) :
      Moves m s i { s with
        shared := shared
        busy := Function.update s.busy i (some (c, p')) }
  /-- a call returns -/
  | back {c : κ} {p : φ} {r : ρ} {shared : σ} (hbusy : s.busy i = some (c, p))
      (hmove : m.move s.shared i c p = .ok (shared, .inr r)) :
      Moves m s i { s with
        shared := shared
        busy := Function.update s.busy i none
        returned := Function.update s.returned i (s.returned i ++ [(c, r)]) }

/-- **The inversion of a move.** -/
theorem Machine.moves_of_step (hstep : m.step s i = .ok (s₁, u)) : m.Moves s i s₁ := by
  rw [step] at hstep
  cases hbusy : s.busy i with
  | none =>
    cases htodo : s.todo i with
    | nil =>
      obtain rfl : s = s₁ := by simpa [hbusy, htodo] using hstep
      exact .rest hbusy htodo
    | cons c cs =>
      obtain rfl : _ = s₁ := by simpa [hbusy, htodo] using hstep
      exact .begin hbusy htodo
  | some call =>
    obtain ⟨c, p⟩ := call
    simp only [hbusy, bind_eq_ok, Prod.exists] at hstep
    obtain ⟨shared, next, hmove, hnext⟩ := hstep
    cases next with
    | inl p' =>
      obtain rfl : _ = s₁ := by simpa using hnext
      exact .go hbusy hmove
    | inr r =>
      obtain rfl : _ = s₁ := by simpa using hnext
      exact .back hbusy hmove

/-- A move faults only in the call that its thread is busy with. -/
theorem Machine.fault_of_step {e : Fault} (hstep : m.step s i = .error e) :
    ∃ c p, s.busy i = some (c, p) ∧ m.move s.shared i c p = .error e := by
  rw [step] at hstep
  cases hbusy : s.busy i with
  | none => cases htodo : s.todo i <;> simp [hbusy, htodo, pure, Except.pure] at hstep
  | some call =>
    obtain ⟨c, p⟩ := call
    refine ⟨c, p, rfl, ?_⟩
    simp only [hbusy] at hstep
    cases hmove : m.move s.shared i c p with
    | error e' => simpa [hmove] using hstep
    | ok out =>
      obtain ⟨shared, p' | r⟩ := out <;> simp [hmove, pure, Except.pure] at hstep

/-- **No move changes what a thread's calls are.** -/
theorem calls_of_step (hstep : m.step s i = .ok (s₁, u)) (j : ι) : s₁.calls j = s.calls j := by
  by_cases hj : j = i
  · subst hj
    cases Machine.moves_of_step hstep with
    | rest => rfl
    | begin hbusy htodo => simp [Threads.calls, hbusy, htodo]
    | go hbusy => simp [Threads.calls, hbusy]
    | back hbusy => simp [Threads.calls, hbusy]
  · cases Machine.moves_of_step hstep <;> simp [Threads.calls, hj]

/-- **Every thread makes the calls of its program, in this order.** -/
theorem calls_of_run {programs : ι → List κ} {shared : σ} {schedule : List ι} {us : List Unit}
    (hrun : runFrom m.step (Threads.start shared programs) schedule = .ok (s, us)) (i : ι) :
    s.calls i = programs i :=
  run_invariant m.step (I := fun s => s.calls i = programs i)
    (fun s _ s₁ _ hs hstep => (calls_of_step hstep i).trans hs) schedule _ s us
    (by simp [Threads.calls, Threads.start]) hrun

/-- The calls that returned are calls of the programs. -/
theorem mem_of_returned {programs : ι → List κ} {shared : σ} {schedule : List ι} {us : List Unit}
    (hrun : runFrom m.step (Threads.start shared programs) schedule = .ok (s, us)) {e : κ × ρ}
    (he : e ∈ s.returned i) : e.1 ∈ programs i := by
  rw [← calls_of_run hrun i, Threads.calls, List.append_assoc]
  exact List.mem_append_left _ (List.mem_map_of_mem he)

/-- A thread whose program is over has made all its calls. -/
theorem returned_of_done {programs : ι → List κ} {shared : σ} {schedule : List ι} {us : List Unit}
    (hrun : runFrom m.step (Threads.start shared programs) schedule = .ok (s, us))
    (hbusy : s.busy i = none) (htodo : s.todo i = []) :
    (s.returned i).map Prod.fst = programs i := by
  rw [← calls_of_run hrun i]
  simp [Threads.calls, hbusy, htodo]

end Step

/-! ## Simulation by a sequential object -/

section Simulation

/-- What a move does to the sequential object: nothing, if it leaves the answer as it is, and the
whole call, if it decides the answer. -/
inductive Decides (seq : τ → κ → Exec (τ × ρ)) (c : κ) (t : τ) : Option ρ → Option ρ → τ → Prop
  | keeps (answer : Option ρ) : Decides seq c t answer answer t
  | takes {t' : τ} {r : ρ} (heffect : seq t c = .ok (t', r)) : Decides seq c t none (some r) t'

variable [DecidableEq ι]

/-- **A simulation**: the relation `R` holds between the memory, the calls in progress and the
state of the sequential object, and every move keeps it. -/
structure Simulates (m : Machine σ ι κ ρ φ) (seq : τ → κ → Exec (τ × ρ)) (decided : φ → Option ρ)
    (R : σ → (ι → Option (κ × φ)) → τ → Prop) : Prop where
  begin : ∀ {s busy t i c}, R s busy t → busy i = none →
    decided (m.start c) = none ∧ R s (Function.update busy i (some (c, m.start c))) t
  go : ∀ {s busy t i c p s' p'}, R s busy t → busy i = some (c, p) →
    m.move s i c p = .ok (s', .inl p') →
    ∃ t', Decides seq c t (decided p) (decided p') t' ∧
      R s' (Function.update busy i (some (c, p'))) t'
  back : ∀ {s busy t i c p s' r}, R s busy t → busy i = some (c, p) →
    m.move s i c p = .ok (s', .inr r) →
    ∃ t', Decides seq c t (decided p) (some r) t' ∧ R s' (Function.update busy i none) t'
  fault : ∀ {s busy t i c p e}, R s busy t → busy i = some (c, p) → m.move s i c p = .error e →
    decided p = none ∧ ∃ e', seq t c = .error e'

/-- **What a move owes the sequential object**: if the call goes on or returns, the move has the
effect on the object that it has on the answer, and keeps `R`; if it faults, so does the whole
call. -/
def Owes (seq : τ → κ → Exec (τ × ρ)) (decided : φ → Option ρ)
    (R : σ → (ι → Option (κ × φ)) → τ → Prop) (busy : ι → Option (κ × φ)) (t : τ) (i : ι) (c : κ)
    (p : φ) : Exec (σ × (φ ⊕ ρ)) → Prop
  | .ok (s', .inl p') => ∃ t', Decides seq c t (decided p) (decided p') t' ∧
      R s' (Function.update busy i (some (c, p'))) t'
  | .ok (s', .inr r) => ∃ t', Decides seq c t (decided p) (some r) t' ∧
      R s' (Function.update busy i none) t'
  | .error _ => decided p = none ∧ ∃ e', seq t c = .error e'

/-- A simulation, move by move. -/
theorem Simulates.of_move {m : Machine σ ι κ ρ φ} {seq : τ → κ → Exec (τ × ρ)}
    {decided : φ → Option ρ} {R : σ → (ι → Option (κ × φ)) → τ → Prop}
    (hbegin : ∀ {s busy t i c}, R s busy t → busy i = none →
      decided (m.start c) = none ∧ R s (Function.update busy i (some (c, m.start c))) t)
    (hmove : ∀ {s busy t i c p}, R s busy t → busy i = some (c, p) →
      Owes seq decided R busy t i c p (m.move s i c p)) : Simulates m seq decided R where
  begin := hbegin
  go h hbusy hgo := by
    have howes := hmove h hbusy
    rwa [hgo] at howes
  back h hbusy hback := by
    have howes := hmove h hbusy
    rwa [hback] at howes
  fault h hbusy hfault := by
    have howes := hmove h hbusy
    rwa [hfault] at howes

/-- The part of an order that belongs to a thread. -/
def ofThread {α : Type} (order : List (ι × α)) (i : ι) : List α :=
  (order.filter fun p => p.1 = i).map Prod.snd

omit [DecidableEq ι] in
variable (seq : τ → κ → Exec (τ × ρ)) (decided : φ → Option ρ) in
/-- **An order of calls with answers explains the threads**: the calls made one after the other
lead the sequential object from `t₀` to `t` and give these answers, and to each thread belong the
answers it got. -/
structure Explains [DecidableEq ι] (t₀ : τ) (order : List (ι × κ × ρ)) (s : Threads σ ι κ ρ φ)
    (t : τ) : Prop where
  run : runFrom seq t₀ (order.map (·.2.1)) = .ok (t, order.map (·.2.2))
  own : ∀ i, ofThread order i = s.settled decided i

@[simp] theorem ofThread_append {α : Type} (order order' : List (ι × α)) (i : ι) :
    ofThread (order ++ order') i = ofThread order i ++ ofThread order' i := by
  simp [ofThread]

@[simp] theorem ofThread_self {α : Type} (i : ι) (a : α) : ofThread [(i, a)] i = [a] := by
  simp [ofThread]

@[simp] theorem ofThread_ne {α : Type} {i j : ι} (hj : j ≠ i) (a : α) :
    ofThread [(i, a)] j = [] := by
  simp [ofThread, Ne.symm hj]

theorem ofThread_map {α β : Type} (f : α → β) (order : List (ι × α)) (i : ι) :
    ofThread (order.map fun p => (p.1, f p.2)) i = (ofThread order i).map f := by
  simp [ofThread, List.filter_map, Function.comp_def]

/-- An order in which threads may make calls of their programs: to each thread belong the first
calls of its program. -/
def Interleaves (programs : ι → List κ) (order : List (ι × κ)) : Prop :=
  ∀ i, ofThread order i <+: programs i

/-- The calls in such an order are calls of the programs. -/
theorem Interleaves.mem {programs : ι → List κ} {order : List (ι × κ)}
    (h : Interleaves programs order) {c : κ} (hc : c ∈ order.map Prod.snd) :
    ∃ i, c ∈ programs i := by
  obtain ⟨⟨i, c⟩, hp, rfl⟩ := List.mem_map.mp hc
  exact ⟨i, (h i).subset (List.mem_map.mpr ⟨(i, c), List.mem_filter.mpr ⟨hp, by simp⟩, rfl⟩)⟩

/-- **What the calls of an order add up to is no more than what the programs do.** -/
theorem Interleaves.sum_le [Fintype ι] {programs : ι → List κ} {order : List (ι × κ)}
    (h : Interleaves programs order) (f : κ → ℕ) :
    (order.map fun p => f p.2).sum ≤ ∑ i, ((programs i).map f).sum := by
  have hsplit : ∀ order : List (ι × κ), (order.map fun p => f p.2).sum =
      ∑ i, ((ofThread order i).map f).sum := by
    intro order
    induction order with
    | nil => simp [ofThread]
    | cons p order ih =>
      have hcons : ∀ i, ((ofThread (p :: order) i).map f).sum =
          (if p.1 = i then f p.2 else 0) + ((ofThread order i).map f).sum := by
        intro i
        by_cases hi : p.1 = i <;> simp [ofThread, hi]
      rw [List.map_cons, List.sum_cons, ih, Finset.sum_congr rfl fun i _ => hcons i,
        Finset.sum_add_distrib, Finset.sum_ite_eq, if_pos (Finset.mem_univ _)]
  rw [hsplit]
  exact Finset.sum_le_sum fun i _ => ((h i).sublist.map f).sum_le_sum fun _ _ => Nat.zero_le _

variable {m : Machine σ ι κ ρ φ} {seq : τ → κ → Exec (τ × ρ)} {decided : φ → Option ρ}
  {R : σ → (ι → Option (κ × φ)) → τ → Prop} {s s₁ : Threads σ ι κ ρ φ} {i : ι} {u : Unit}
  {t₀ t : τ} {order : List (ι × κ × ρ)}

/-- A call that takes effect comes last in the order. -/
theorem Explains.takes {t' : τ} {c : κ} {r : ρ} (h : Explains seq decided t₀ order s t)
    (heffect : seq t c = .ok (t', r)) (hself : s₁.settled decided i = s.settled decided i ++ [(c, r)])
    (hothers : ∀ j, j ≠ i → s₁.settled decided j = s.settled decided j) :
    Explains seq decided t₀ (order ++ [(i, c, r)]) s₁ t' where
  run := by
    rw [List.map_append, List.map_append, runFrom_append]
    exact ⟨t, _, [r], h.run, (runFrom_cons seq).mpr ⟨t', r, [], heffect, rfl, rfl⟩, rfl⟩
  own j := by
    by_cases hj : j = i
    · subst hj
      rw [ofThread_append, ofThread_self, h.own, hself]
    · rw [ofThread_append, ofThread_ne hj, h.own, hothers j hj, List.append_nil]

/-- A move that settles nothing is explained by the same order. -/
theorem Explains.keeps (h : Explains seq decided t₀ order s t)
    (hsettled : ∀ j, s₁.settled decided j = s.settled decided j) :
    Explains seq decided t₀ order s₁ t where
  run := h.run
  own j := (h.own j).trans (hsettled j).symm

/-- **The effect of a move in the order**: the call it decides, if any, is added at the end. -/
theorem Explains.decides {R' : τ → Prop} {c : κ} {answer answer' : Option ρ} (i : ι)
    (h : Explains seq decided t₀ order s t)
    (hdecides : ∃ t', Decides seq c t answer answer' t' ∧ R' t')
    (hbefore : s.settled decided i = s.returned i ++ (answer.map (c, ·)).toList)
    (hafter : s₁.settled decided i = s.returned i ++ (answer'.map (c, ·)).toList)
    (hothers : ∀ j, j ≠ i → s₁.settled decided j = s.settled decided j) :
    ∃ new t', R' t' ∧ Explains seq decided t₀ (order ++ new) s₁ t' := by
  obtain ⟨t', hdecides, hR'⟩ := hdecides
  cases hdecides with
  | keeps =>
    refine ⟨[], t, hR', (List.append_nil order).symm ▸ h.keeps fun j => ?_⟩
    by_cases hj : j = i
    · subst hj
      rw [hafter, hbefore]
    · exact hothers j hj
  | @takes _ r heffect =>
    refine ⟨[(i, c, r)], t', hR', h.takes heffect ?_ hothers⟩
    simpa [hbefore] using hafter

/-- The calls of a thread in the order are the first calls of its program. -/
theorem Explains.prefix_calls (h : Explains seq decided t₀ order s t) (i : ι) :
    ofThread (order.map fun p => (p.1, p.2.1)) i <+: s.calls i := by
  rw [ofThread_map, h.own i, Threads.settled, Threads.calls, List.map_append, List.append_assoc,
    List.prefix_append_right_inj]
  cases hbusy : s.busy i with
  | none => simp
  | some call => cases hdecided : decided call.2 <;> simp [hdecided]

/-- **The order that explains threads after a schedule interleaves their programs.** -/
theorem Explains.interleaves {programs : ι → List κ} {σ₀ : σ} {schedule : List ι} {us : List Unit}
    (h : Explains seq decided t₀ order s t)
    (hrun : runFrom m.step (Threads.start σ₀ programs) schedule = .ok (s, us)) :
    Interleaves programs (order.map fun p => (p.1, p.2.1)) := fun i =>
  calls_of_run hrun i ▸ h.prefix_calls i

/-- The calls of a thread whose program is over are all in the order. -/
theorem Explains.complete {programs : ι → List κ} {σ₀ : σ} {schedule : List ι} {us : List Unit}
    (h : Explains seq decided t₀ order s t)
    (hrun : runFrom m.step (Threads.start σ₀ programs) schedule = .ok (s, us))
    (hbusy : s.busy i = none) (htodo : s.todo i = []) :
    ofThread (order.map fun p => (p.1, p.2.1)) i = programs i := by
  rw [ofThread_map, h.own i, ← returned_of_done hrun hbusy htodo]
  simp [Threads.settled, hbusy]

/-- The answers of a thread are in the order. -/
theorem Explains.mem_of_returned (h : Explains seq decided t₀ order s t) {e : κ × ρ}
    (he : e ∈ s.returned i) : (i, e) ∈ order := by
  have hmem : e ∈ ofThread order i := h.own i ▸ List.mem_append_left _ he
  obtain ⟨⟨j, e'⟩, hp, rfl⟩ := List.mem_map.mp hmem
  obtain ⟨horder, hj⟩ := List.mem_filter.mp hp
  obtain rfl : j = i := by simpa using hj
  exact horder

namespace Simulates

variable (hm : Simulates m seq decided R)
include hm

/-- **The step lemma.**  A move keeps the relation, and adds to the order the call that takes effect
in it. -/
theorem step (hR : R s.shared s.busy t) (h : Explains seq decided t₀ order s t)
    (hstep : m.step s i = .ok (s₁, u)) :
    ∃ new t', R s₁.shared s₁.busy t' ∧ Explains seq decided t₀ (order ++ new) s₁ t' := by
  have hmoves := Machine.moves_of_step hstep
  clear hstep
  cases hmoves with
  | rest => exact ⟨[], t, hR, (List.append_nil order).symm ▸ h⟩
  | begin hbusy htodo =>
    obtain ⟨hnone, hR'⟩ := hm.begin hR hbusy
    refine ⟨[], t, hR', (List.append_nil order).symm ▸ h.keeps fun j => ?_⟩
    by_cases hj : j = i
    · subst hj
      simp [Threads.settled, hbusy, hnone]
    · simp [Threads.settled, hj]
  | go hbusy hmove =>
    refine h.decides i (hm.go hR hbusy hmove) ?_ ?_ fun j hj => ?_
    · simp [Threads.settled, hbusy]
    · simp [Threads.settled]
    · simp [Threads.settled, hj]
  | back hbusy hmove =>
    refine h.decides i (hm.back hR hbusy hmove) ?_ ?_ fun j hj => ?_
    · simp [Threads.settled, hbusy]
    · simp [Threads.settled]
    · simp [Threads.settled, hj]

/-- **The run lemma.**  A schedule that goes on from explained threads adds calls to the order. -/
theorem run {s' : Threads σ ι κ ρ φ} {us : List Unit} {schedule : List ι}
    (hR : R s.shared s.busy t) (h : Explains seq decided t₀ order s t)
    (hrun : runFrom m.step s schedule = .ok (s', us)) :
    ∃ new t', R s'.shared s'.busy t' ∧ Explains seq decided t₀ (order ++ new) s' t' := by
  induction schedule generalizing s us t order with
  | nil =>
    obtain ⟨rfl, -⟩ : s = s' ∧ [] = us := by simpa using hrun
    exact ⟨[], t, hR, (List.append_nil order).symm ▸ h⟩
  | cons i schedule ih =>
    obtain ⟨s₁, u, us', hstep, hrest, -⟩ := (runFrom_cons m.step).mp hrun
    obtain ⟨new, t₁, hR₁, h₁⟩ := hm.step hR h hstep
    obtain ⟨new', t', hR', h'⟩ := ih hR₁ h₁ hrest
    exact ⟨new ++ new', t', hR', List.append_assoc order new new' ▸ h'⟩

/-! ## All schedules -/

variable {σ₀ : σ} {programs : ι → List κ} (hR₀ : R σ₀ (fun _ => none) t₀)
include hR₀

/-- **Every schedule is explained by one order of the calls**, and the order of a longer schedule
goes on from there: a call that returned comes before all that begin later. -/
theorem linearizable {past future : List ι} {s s' : Threads σ ι κ ρ φ} {us us' : List Unit}
    (hpast : runFrom m.step (Threads.start σ₀ programs) past = .ok (s, us))
    (hfuture : runFrom m.step s future = .ok (s', us')) :
    ∃ order new t t', R s.shared s.busy t ∧ R s'.shared s'.busy t' ∧
      Explains seq decided t₀ order s t ∧ Explains seq decided t₀ (order ++ new) s' t' := by
  have h₀ : Explains seq decided t₀ [] (Threads.start σ₀ programs : Threads σ ι κ ρ φ) t₀ :=
    ⟨rfl, fun i => rfl⟩
  obtain ⟨order, t, hR, h⟩ := hm.run hR₀ h₀ hpast
  obtain ⟨new, t', hR', h'⟩ := hm.run hR h hfuture
  exact ⟨order, new, t, t', hR, hR', h, h'⟩

omit hR₀ in
/-- A move that faults does so in a call that faults on the sequential object too. -/
theorem faulting_order (hR : R s.shared s.busy t) (h : Explains seq decided t₀ order s t)
    (hcalls : ∀ j, s.calls j = programs j) {e : Fault} (hstep : m.step s i = .error e) :
    ∃ c e', Interleaves programs (order.map (fun p => (p.1, p.2.1)) ++ [(i, c)]) ∧
      seq t c = .error e' := by
  obtain ⟨c, p, hbusy, hmove⟩ := Machine.fault_of_step hstep
  obtain ⟨hnone, e', he'⟩ := hm.fault hR hbusy hmove
  refine ⟨c, e', fun j => ?_, he'⟩
  rw [ofThread_append, ← hcalls j]
  by_cases hj : j = i
  · subst hj
    rw [ofThread_map, h.own]
    simp [Threads.settled, Threads.calls, hbusy, hnone]
  · rw [ofThread_ne hj, List.append_nil]
    exact h.prefix_calls j

/-- **No schedule faults where no sequential run does.** -/
theorem returns_of_sequential
    (hseq : ∀ order, Interleaves programs order → ∃ r, runFrom seq t₀ (order.map Prod.snd) = .ok r)
    (schedule : List ι) :
    ∃ s us, runFrom m.step (Threads.start σ₀ programs) schedule = .ok (s, us) := by
  have hstep : ∀ (s : Threads σ ι κ ρ φ) i,
      ((∃ order t, R s.shared s.busy t ∧ Explains seq decided t₀ order s t) ∧
        ∀ j, s.calls j = programs j) → True → ∃ s₁ u, m.step s i = .ok (s₁, u) ∧
      (∃ order t, R s₁.shared s₁.busy t ∧ Explains seq decided t₀ order s₁ t) ∧
        ∀ j, s₁.calls j = programs j := by
    rintro s i ⟨⟨order, t, hR, h⟩, hcalls⟩ -
    cases hstep : m.step s i with
    | ok out =>
      obtain ⟨s₁, u⟩ := out
      obtain ⟨new, t', hR', h'⟩ := hm.step hR h hstep
      exact ⟨s₁, u, rfl, ⟨order ++ new, t', hR', h'⟩, fun j =>
        (calls_of_step hstep j).trans (hcalls j)⟩
    | error e =>
      obtain ⟨c, e', hinter, he'⟩ := hm.faulting_order hR h hcalls hstep
      obtain ⟨⟨t', rs⟩, hrun⟩ := hseq _ hinter
      rw [List.map_append, List.map_map, runFrom_append] at hrun
      obtain ⟨t₁, rs₁, rs₂, hrun₁, hrun₂, -⟩ := hrun
      obtain ⟨rfl, -⟩ := Prod.mk.inj (Except.ok.inj (h.run.symm.trans hrun₁))
      obtain ⟨t₂, r, rs₃, hc, -⟩ := (runFrom_cons seq).mp hrun₂
      exact absurd (he'.symm.trans hc) (by simp)
  obtain ⟨s, us, hrun, -⟩ := run_total m.step hstep schedule (Threads.start σ₀ programs)
    ⟨⟨[], t₀, hR₀, rfl, fun i => rfl⟩, fun j => by simp [Threads.calls, Threads.start]⟩
    (along_of_forall m.step (fun _ _ => trivial) _ _)
  exact ⟨s, us, hrun⟩

omit hm hR₀ in
/-- **A simulation of an object is one of any that does the same** on states of its own. -/
theorem pullback {τ' : Type} {seq' : τ' → κ → Exec (τ' × ρ)} (hm : Simulates m seq decided R)
    (e : τ' → τ) (hseq : ∀ t c, seq (e t) c = (fun p => (e p.1, p.2)) <$> seq' t c) :
    Simulates m seq' decided fun s busy t => R s busy (e t) := by
  have hdecides : ∀ {c t a a' t₁}, Decides seq c (e t) a a' t₁ →
      ∃ t', t₁ = e t' ∧ Decides seq' c t a a' t' := by
    intro c t a a' t₁ h
    cases h with
    | keeps => exact ⟨t, rfl, .keeps a⟩
    | takes heffect =>
      rw [hseq, map_eq_ok] at heffect
      obtain ⟨⟨t', r'⟩, heffect', heq⟩ := heffect
      obtain ⟨rfl, rfl⟩ := Prod.mk.inj heq
      exact ⟨t', rfl, .takes heffect'⟩
  refine ⟨hm.begin, fun hR hbusy hmove => ?_, fun hR hbusy hmove => ?_, fun hR hbusy hmove => ?_⟩
  · obtain ⟨t₁, hd, hR'⟩ := hm.go hR hbusy hmove
    obtain ⟨t', rfl, hd'⟩ := hdecides hd
    exact ⟨t', hd', hR'⟩
  · obtain ⟨t₁, hd, hR'⟩ := hm.back hR hbusy hmove
    obtain ⟨t', rfl, hd'⟩ := hdecides hd
    exact ⟨t', hd', hR'⟩
  · obtain ⟨hnone, e', he'⟩ := hm.fault hR hbusy hmove
    refine ⟨hnone, ?_⟩
    rw [hseq] at he'
    cases hs : seq' _ _ with
    | error e₁ => exact ⟨e₁, rfl⟩
    | ok out => simp [hs] at he'

end Simulates

end Simulation

end SmallKV
