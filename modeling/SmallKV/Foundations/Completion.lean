import SmallKV.Foundations.Guarded
import SmallKV.Foundations.ReadWrite
import Mathlib.Data.DFinsupp.WellFounded
import Mathlib.Data.Prod.Lex
import Mathlib.SetTheory.Ordinal.Family

/-!
# Foundations/Completion — threads that come to an end

A thread that waits for a lock may move forever and come no nearer to the end of its program.  But
whoever has the lock does come nearer, and while nobody has it everybody does (`Machine.Lively`).
So under a schedule that is fair, which lets every thread move again and again, all threads run
their programs to the end (`Simulates.joins`): nothing deadlocks, and no lock has to be fair.

How far a call has yet to go is an ordinal, for what a body reads may be anything.
-/

namespace SmallKV

variable {σ ι κ ρ φ τ : Type}

/-! ## Schedules without an end -/

/-- The first moves of a schedule. -/
def firstMoves (schedule : ℕ → ι) (n : ℕ) : List ι := (List.range n).map schedule

/-- **A fair schedule**: every thread moves again and again. -/
def Fair (schedule : ℕ → ι) : Prop := ∀ i n, ∃ k, n ≤ k ∧ schedule k = i

variable {schedule : ℕ → ι}

theorem firstMoves_add (schedule : ℕ → ι) (n n' : ℕ) : firstMoves schedule (n + n') =
    firstMoves schedule n ++ firstMoves (fun k => schedule (n + k)) n' := by
  simp [firstMoves, List.range_add, Function.comp_def]

/-- What is left of a fair schedule is fair. -/
theorem Fair.drop (h : Fair schedule) (n : ℕ) : Fair fun k => schedule (n + k) := by
  intro i n'
  obtain ⟨k, hk, rfl⟩ := h i (n + n')
  exact ⟨k - n, by omega, congrArg schedule (by omega)⟩

/-! ## What is left to do -/

namespace Threads

/-- All threads have run their programs. -/
def Joined (s : Threads σ ι κ ρ φ) : Prop := ∀ i, s.busy i = none ∧ s.todo i = []

/-- What a thread has yet to do: calls to make, and the rest of the one it is busy with. -/
noncomputable def work (rank : κ → φ → Ordinal.{0}) (s : Threads σ ι κ ρ φ) (i : ι) :
    ℕ ×ₗ WithBot Ordinal.{0} :=
  toLex ((s.todo i).length, (s.busy i).elim ⊥ fun p => ↑(rank p.1 p.2))

end Threads

/-- A thread has something that others may wait for. -/
def Owning (Owns : φ → Prop) (busy : ι → Option (κ × φ)) (i : ι) : Prop :=
  ∃ c p, busy i = some (c, p) ∧ Owns p

/-- A thread that nobody keeps waiting. -/
def Unhindered (Owns : φ → Prop) (busy : ι → Option (κ × φ)) (i : ι) : Prop :=
  Owning Owns busy i ∨ ∀ j, ¬ Owning Owns busy j

/-- **A machine whose calls come to an end**: a move that goes on with a call comes nearer to its
end, or waits, and a thread that nobody keeps waiting does not wait. -/
structure Machine.Lively (m : Machine σ ι κ ρ φ) (rank : κ → φ → Ordinal.{0}) (Owns : φ → Prop)
    (R : σ → (ι → Option (κ × φ)) → τ → Prop) : Prop where
  waits : ∀ {s i c p s' p'}, m.move s i c p = .ok (s', .inl p') → p' = p ∨ rank c p' < rank c p
  goes : ∀ {s busy t i c p s' p'}, R s busy t → busy i = some (c, p) → Unhindered Owns busy i →
    m.move s i c p = .ok (s', .inl p') → rank c p' < rank c p

section Completion

variable [DecidableEq ι] {m : Machine σ ι κ ρ φ} {rank : κ → φ → Ordinal.{0}} {Owns : φ → Prop}
  {R : σ → (ι → Option (κ × φ)) → τ → Prop} {s s₁ s' : Threads σ ι κ ρ φ} {t : τ} {i : ι} {u : Unit}

omit [DecidableEq ι] in
/-- **Unless all threads have run their programs, one that has not is unhindered.** -/
theorem exists_unhindered (hs : ¬ s.Joined) :
    ∃ i, ¬ (s.busy i = none ∧ s.todo i = []) ∧ Unhindered Owns s.busy i := by
  by_cases howner : ∃ i, Owning Owns s.busy i
  · obtain ⟨i, hi⟩ := howner
    have hbusy : s.busy i ≠ none := by
      obtain ⟨c, p, hbusy, -⟩ := hi
      simp [hbusy]
    exact ⟨i, fun hdone => hbusy hdone.1, Or.inl hi⟩
  · obtain ⟨i, hi⟩ := not_forall.mp hs
    exact ⟨i, hi, Or.inr (not_exists.mp howner)⟩

/-- A move leaves the calls of the other threads alone. -/
theorem others_of_step (hstep : m.step s i = .ok (s₁, u)) {j : ι} (hj : j ≠ i) :
    s₁.busy j = s.busy j ∧ s₁.todo j = s.todo j := by
  cases Machine.moves_of_step hstep with
  | rest => exact ⟨rfl, rfl⟩
  | begin | go | back => simp [Function.update_of_ne hj]

/-- A move after which its thread has less to do. -/
theorem work_lt_of_step (hstep : m.step s i = .ok (s₁, u)) (hless : s₁.work rank i < s.work rank i) :
    s₁.work rank < s.work rank := by
  refine Pi.lt_def.mpr ⟨fun j => ?_, i, hless⟩
  by_cases hj : j = i
  · exact hj ▸ hless.le
  · obtain ⟨hbusy, htodo⟩ := others_of_step hstep hj
    simp [Threads.work, hbusy, htodo]

/-- **A move leaves less to do, or nothing changes for any thread**; and the latter only if the
thread has run its program or is kept waiting. -/
theorem Machine.Lively.step (hlive : m.Lively rank Owns R) (hR : R s.shared s.busy t)
    (hstep : m.step s i = .ok (s₁, u)) :
    (s₁.busy = s.busy ∧ s₁.todo = s.todo ∧
      ((s.busy i = none ∧ s.todo i = []) ∨ ¬ Unhindered Owns s.busy i)) ∨
    s₁.work rank < s.work rank := by
  have hlt : s₁.work rank i < s.work rank i → s₁.work rank < s.work rank := work_lt_of_step hstep
  cases Machine.moves_of_step hstep with
  | rest hbusy htodo => exact Or.inl ⟨rfl, rfl, Or.inl ⟨hbusy, htodo⟩⟩
  | begin hbusy htodo =>
    exact Or.inr (hlt (Prod.Lex.toLex_lt_toLex.mpr (Or.inl (by simp [htodo]))))
  | @go c p p' shared hbusy hmove =>
    by_cases hless : rank c p' < rank c p
    · exact Or.inr (hlt (Prod.Lex.toLex_lt_toLex.mpr (Or.inr (by simpa [hbusy] using hless))))
    · obtain rfl := (hlive.waits hmove).resolve_right hless
      refine Or.inl ⟨?_, rfl, Or.inr fun hfree => hless (hlive.goes hR hbusy hfree hmove)⟩
      exact Function.update_eq_self_iff.mpr hbusy.symm
  | back hbusy =>
    refine Or.inr (hlt (Prod.Lex.toLex_lt_toLex.mpr (Or.inr ⟨rfl, ?_⟩)))
    simp [hbusy, WithBot.bot_lt_coe]

variable {seq : τ → κ → Exec (τ × ρ)} {decided : φ → Option ρ} {σ₀ : σ} {t₀ : τ}
  {programs : ι → List κ}

/-- Threads that a schedule leads to. -/
def Machine.Reached (m : Machine σ ι κ ρ φ) (σ₀ : σ) (programs : ι → List κ)
    (s : Threads σ ι κ ρ φ) : Prop :=
  ∃ past us, runFrom m.step (.start σ₀ programs) past = .ok (s, us)

/-- **The threads that a simulation reaches move on**, if no schedule faults: a move leaves less to
do, or it is one of a thread that has run its program or is kept waiting. -/
theorem Machine.Reached.step (hm : Simulates m seq decided R) (hlive : m.Lively rank Owns R)
    (hR₀ : R σ₀ (fun _ => none) t₀)
    (hreturns : ∀ past, ∃ s us, runFrom m.step (.start σ₀ programs) past = .ok (s, us))
    (hs : m.Reached σ₀ programs s) (i : ι) :
    ∃ s₁, m.step s i = .ok (s₁, ()) ∧ m.Reached σ₀ programs s₁ ∧
      ((s₁.busy = s.busy ∧ s₁.todo = s.todo ∧
        ((s.busy i = none ∧ s.todo i = []) ∨ ¬ Unhindered Owns s.busy i)) ∨
      s₁.work rank < s.work rank) := by
  obtain ⟨past, us, hpast⟩ := hs
  obtain ⟨s₂, us₂, hboth⟩ := hreturns (past ++ [i])
  obtain ⟨s₁, us₁, us', hpast', hlast, -⟩ := (runFrom_append m.step).mp hboth
  obtain ⟨rfl, -⟩ := Prod.mk.inj (Except.ok.inj (hpast.symm.trans hpast'))
  obtain ⟨s₃, u, us'', hstep, hnil, -⟩ := (runFrom_cons m.step).mp hlast
  obtain ⟨rfl, -⟩ := Prod.mk.inj (Except.ok.inj hnil)
  obtain ⟨-, -, t, -, hR, -⟩ := hm.linearizable hR₀ hpast (runFrom_nil m.step s)
  exact ⟨s₃, hstep, ⟨_, _, hboth⟩, hlive.step hR hstep⟩

/-- A schedule goes on after its first moves. -/
theorem run_firstMoves_add {n n' : ℕ} {us us' : List Unit}
    (hfirst : runFrom m.step s (firstMoves schedule n) = .ok (s₁, us))
    (hrest : runFrom m.step s₁ (firstMoves (fun k => schedule (n + k)) n') = .ok (s', us')) :
    runFrom m.step s (firstMoves schedule (n + n')) = .ok (s', us ++ us') := by
  rw [firstMoves_add]
  exact (runFrom_append m.step).mpr ⟨s₁, us, us', hfirst, hrest, rfl⟩

namespace Simulates

variable (hm : Simulates m seq decided R) (hlive : m.Lively rank Owns R)
  (hR₀ : R σ₀ (fun _ => none) t₀)
  (hreturns : ∀ past, ∃ s us, runFrom m.step (.start σ₀ programs) past = .ok (s, us))
include hm hlive hR₀ hreturns

/-- **By the next move of an unhindered thread there is less to do**: the moves before it are of
threads that wait, which change nothing, or leave less to do themselves. -/
theorem lessens (schedule : ℕ → ι) (k : ℕ) (hs : m.Reached σ₀ programs s)
    (htodo : ¬ (s.busy (schedule k) = none ∧ s.todo (schedule k) = []))
    (hfree : Unhindered Owns s.busy (schedule k)) :
    ∃ n s' us, runFrom m.step s (firstMoves schedule n) = .ok (s', us) ∧
      m.Reached σ₀ programs s' ∧ s'.work rank < s.work rank := by
  induction k generalizing s schedule with
  | zero =>
    obtain ⟨s₁, hstep, hs₁, hwait | hless⟩ := hs.step hm hlive hR₀ hreturns (schedule 0)
    · exact absurd hwait.2.2 (not_or.mpr ⟨htodo, not_not.mpr hfree⟩)
    · exact ⟨1, s₁, [()], (runFrom_cons m.step).mpr ⟨s₁, (), [], hstep, rfl, rfl⟩, hs₁, hless⟩
  | succ k ih =>
    obtain ⟨s₁, hstep, hs₁, hwait | hless⟩ := hs.step hm hlive hR₀ hreturns (schedule 0)
    · obtain ⟨hbusy, hcalls, -⟩ := hwait
      have hfirst : runFrom m.step s (firstMoves schedule 1) = .ok (s₁, [()]) :=
        (runFrom_cons m.step).mpr ⟨s₁, (), [], hstep, rfl, rfl⟩
      obtain ⟨n, s', us, hrest, hs', hless⟩ := ih (fun k => schedule (1 + k)) hs₁
        (by rwa [hbusy, hcalls, Nat.add_comm 1 k]) (by rwa [hbusy, Nat.add_comm 1 k])
      refine ⟨1 + n, s', _, run_firstMoves_add hfirst hrest, hs', ?_⟩
      rwa [show s.work rank = s₁.work rank by funext i; simp [Threads.work, hbusy, hcalls]]
    · exact ⟨1, s₁, [()], (runFrom_cons m.step).mpr ⟨s₁, (), [], hstep, rfl, rfl⟩, hs₁, hless⟩

/-- **Under a fair schedule all threads run their programs to the end.** -/
theorem joins [Finite ι] (hfair : Fair schedule) :
    ∃ n s us, runFrom m.step (.start σ₀ programs) (firstMoves schedule n) = .ok (s, us) ∧
      s.Joined ∧ ∀ i, (s.returned i).map Prod.fst = programs i := by
  -- the induction is on what is left to do, for all schedules and all threads with as much
  have hfinish : ∀ (w : ι → ℕ ×ₗ WithBot Ordinal.{0}) (s : Threads σ ι κ ρ φ) (schedule : ℕ → ι),
      s.work rank = w → m.Reached σ₀ programs s → Fair schedule →
      ∃ n s' us, runFrom m.step s (firstMoves schedule n) = .ok (s', us) ∧ s'.Joined := by
    intro w
    induction w using WellFoundedLT.induction with
    | ind w ih =>
      rintro s schedule rfl hs hfair
      by_cases hjoined : s.Joined
      · exact ⟨0, s, [], rfl, hjoined⟩
      · obtain ⟨i, htodo, hfree⟩ : ∃ i, ¬ (s.busy i = none ∧ s.todo i = []) ∧
            Unhindered Owns s.busy i := exists_unhindered hjoined
        obtain ⟨k, -, rfl⟩ := hfair i 0
        obtain ⟨n, s₁, us, hfirst, hs₁, hless⟩ :=
          hm.lessens hlive hR₀ hreturns schedule k hs htodo hfree
        obtain ⟨n', s', us', hrest, hjoined'⟩ := ih _ hless s₁ _ rfl hs₁ (hfair.drop n)
        exact ⟨n + n', s', _, run_firstMoves_add hfirst hrest, hjoined'⟩
  obtain ⟨n, s, us, hrun, hjoined⟩ :=
    hfinish _ (.start σ₀ programs) schedule rfl ⟨[], [], rfl⟩ hfair
  exact ⟨n, s, us, hrun, hjoined, fun i => returned_of_done hrun (hjoined i).1 (hjoined i).2⟩

end Simulates

end Completion

/-! ## Methods under a lock -/

/-- How many statements a body may yet run. -/
noncomputable def Code.rank {α ℓ : Type} : Code α ℓ ρ → Ordinal.{0}
  | .ret _ => 0
  | .stmt _ next => ⨆ x, (next x).rank + 1

theorem Code.rank_next {α ℓ : Type} (f : α → Exec (α × ℓ)) (next : ℓ → Code α ℓ ρ) (x : ℓ) :
    (next x).rank < (Code.stmt f next).rank := by
  rw [rank]
  exact Ordinal.lt_iSup_add_one (fun x => (next x).rank) x

section Guarded

variable {O α L G ℓ : Type} [DecidableEq O] {code : κ → Code α ℓ ρ} {obj : κ → O} {g : Guard L G ι}
  {Holds : L → Option (ι × G) → Prop}

/-- A call that has entered its method. -/
def Phase.Inside : Phase G α ℓ ρ → Prop
  | .entering => False
  | .inside _ _ => True

/-- How far a method call has yet to go. -/
noncomputable def Phase.rank (code : κ → Code α ℓ ρ) (c : κ) : Phase G α ℓ ρ → Ordinal.{0}
  | .entering => (code c).rank + 1
  | .inside _ rest => rest.rank

/-- A call that has entered its method comes nearer to its end. -/
theorem inside_move {s s' : Guarded O α L} {i : ι} {c : κ} {k : G} {rest : Code α ℓ ρ}
    {p : Phase G α ℓ ρ} (hmove : (guarded code obj g).move s i c (.inside k rest) = .ok (s', .inl p)) :
    p.rank code c < (Phase.inside k rest).rank code c := by
  match rest, hmove with
  | .stmt f next, hmove =>
    obtain ⟨⟨a, x⟩, -, hmove⟩ := bind_eq_ok.mp hmove
    obtain rfl := Sum.inl.inj (Prod.mk.inj (Except.ok.inj hmove)).2
    exact Code.rank_next f next x
  | .ret r, hmove =>
    obtain ⟨l, -, hmove⟩ := bind_eq_ok.mp hmove
    cases (Prod.mk.inj (Except.ok.inj hmove)).2

/-- **Calls under a lock that excludes come to an end.** -/
theorem guarded_lively (hex : g.Excludes Holds) :
    (guarded code obj g).Lively (Phase.rank code) Phase.Inside (Locked code obj Holds) where
  waits {s i c p s' p'} hmove := by
    cases p with
    | entering =>
      obtain ⟨⟨l, k⟩, -, hmove⟩ := bind_eq_ok.mp hmove
      obtain rfl := Sum.inl.inj (Prod.mk.inj (Except.ok.inj hmove)).2
      cases k with
      | none => exact Or.inl rfl
      | some k => exact Or.inr (Order.lt_add_one_iff.mpr le_rfl)
    | inside k rest => exact Or.inr (inside_move hmove)
  goes {s busy t i c p s' p'} h hbusy hfree hmove := by
    cases p with
    | entering =>
      obtain ⟨holder, h⟩ := h
      -- who holds the lock would be inside, and nobody is
      have hlock : holder (obj c) = none := by
        rcases hfree with ⟨c', p', hbusy', hinside⟩ | hnobody
        · obtain ⟨-, rfl⟩ := Prod.mk.inj (Option.some.inj (hbusy.symm.trans hbusy'))
          exact hinside.elim
        · refine Option.eq_none_iff_forall_ne_some.mpr fun q hq => ?_
          obtain ⟨c', rest, hbusy', -⟩ := h.held hq
          exact hnobody q.1 ⟨c', _, hbusy', trivial⟩
      obtain ⟨l, k, henter, -⟩ := hex.take (hlock ▸ h.locks (obj c)) i
      simp only [guarded, henter, ok_bind] at hmove
      obtain rfl := Sum.inl.inj (Prod.mk.inj (Except.ok.inj hmove)).2
      exact Order.lt_add_one_iff.mpr le_rfl
    | inside k rest => exact inside_move hmove

end Guarded

/-! ## Calls behind a readers–writer lock -/

section ReadWrite

variable {α ℓ ψ : Type} [DecidableEq ι] {body : κ → Code α ℓ ρ ⊕ ψ}
  {read : α → κ → ψ → Exec (α × (ψ ⊕ ρ))} {Inv : α → Prop} {Good : α → κ → ψ → Prop}

/-- A call that writes, reads, or has read. -/
def RwPhase.Entered : RwPhase α ℓ ρ ψ → Prop
  | .entering => False
  | _ => True

/-- How far a call has yet to go. -/
noncomputable def RwPhase.rank (body : κ → Code α ℓ ρ ⊕ ψ) (size : ψ → ℕ) (c : κ) :
    RwPhase α ℓ ρ ψ → Ordinal.{0}
  | .entering => (body c).elim Code.rank (fun p => size p + 1) + 1
  | .writing rest => rest.rank
  | .reading p => size p + 1
  | .leaving _ => 0

variable {size : ψ → ℕ} {s s' : Shared α ι} {busy : ι → Option (κ × RwPhase α ℓ ρ ψ)} {t : α} {i : ι}
  {c : κ} {p p' : RwPhase α ℓ ρ ψ}

/-- A call that gets the lock comes nearer to its end. -/
theorem rank_entered : RwPhase.rank body size c ((body c).elim .writing .reading) <
    RwPhase.rank body size c .entering := by
  cases hbody : body c <;> simp [RwPhase.rank, hbody]

/-- A round of trying the lock. -/
theorem entering_move (hmove : (readWrite body read).move s i c .entering = .ok (s', .inl p')) :
    p' = .entering ∨ p' = (body c).elim .writing .reading := by
  simp only [readWrite] at hmove
  cases hbody : body c with
  | inl code =>
    simp only [hbody] at hmove
    obtain ⟨⟨l, entered⟩, -, hmove⟩ := bind_eq_ok.mp hmove
    obtain rfl := Sum.inl.inj (Prod.mk.inj (Except.ok.inj hmove)).2
    cases entered <;> simp
  | inr p =>
    simp only [hbody] at hmove
    obtain ⟨⟨l, entered⟩, -, hmove⟩ := bind_eq_ok.mp hmove
    obtain rfl := Sum.inl.inj (Prod.mk.inj (Except.ok.inj hmove)).2
    cases entered <;> simp

/-- A round of trying a free lock. -/
theorem free_move (hlock : s.lock = .new)
    (hmove : (readWrite body read).move s i c .entering = .ok (s', .inl p')) :
    p' = (body c).elim .writing .reading := by
  simp only [readWrite] at hmove
  cases hbody : body c with
  | inl code =>
    have hround : s.lock.lock i = .ok (⟨some i, []⟩, true) := by
      simp [hlock, SharedMutex.lock, SharedMutex.owned, SharedMutex.new]
    simp only [hbody, hround, ok_bind] at hmove
    exact (Sum.inl.inj (Prod.mk.inj (Except.ok.inj hmove)).2).symm
  | inr p =>
    have hround : s.lock.lockShared i = .ok (⟨none, [i]⟩, true) := by
      simp [hlock, SharedMutex.lockShared, SharedMutex.owned, SharedMutex.new]
    simp only [hbody, hround, ok_bind] at hmove
    exact (Sum.inl.inj (Prod.mk.inj (Except.ok.inj hmove)).2).symm

/-- A call that has the lock comes nearer to its end, whatever the others do, if what is left of a
reader gets smaller with every move. -/
theorem entered_move (hsize : ∀ {a c p a' p'}, read a c p = .ok (a', .inl p') → size p' < size p)
    (hp : p.Entered) (hmove : (readWrite body read).move s i c p = .ok (s', .inl p')) :
    RwPhase.rank body size c p' < RwPhase.rank body size c p := by
  match p, hp, hmove with
  | .writing (.stmt f next), hp, hmove =>
    obtain ⟨⟨a, x⟩, -, hmove⟩ := bind_eq_ok.mp hmove
    obtain rfl := Sum.inl.inj (Prod.mk.inj (Except.ok.inj hmove)).2
    exact Code.rank_next f next x
  | .writing (.ret r), hp, hmove | .leaving r, hp, hmove =>
    obtain ⟨l, -, hmove⟩ := bind_eq_ok.mp hmove
    cases (Prod.mk.inj (Except.ok.inj hmove)).2
  | .reading p, hp, hmove =>
    obtain ⟨⟨a, out⟩, hread, hmove⟩ := bind_eq_ok.mp hmove
    obtain rfl := Sum.inl.inj (Prod.mk.inj (Except.ok.inj hmove)).2
    cases out with
    | inl p' => simpa [RwPhase.rank] using hsize hread
    | inr r => simp [RwPhase.rank]

omit [DecidableEq ι] in
/-- A lock that nobody uses is free. -/
theorem Sharing.free (h : Sharing body Inv Good s busy t)
    (hnobody : ∀ i, ¬ Owning RwPhase.Entered busy i) : s.lock = .new := by
  have hwriter : s.lock.writer = none := by
    refine Option.eq_none_iff_forall_ne_some.mpr fun i hi => ?_
    obtain ⟨c, rest, hbusy⟩ := (h.writer i).mp hi
    exact hnobody i ⟨c, _, hbusy, trivial⟩
  have hreaders : s.lock.readers = [] := by
    refine List.eq_nil_iff_forall_not_mem.mpr fun i hi => ?_
    obtain ⟨c, ⟨p, hbusy⟩ | ⟨r, hbusy⟩⟩ := (h.readers i).mp hi
    · exact hnobody i ⟨c, _, hbusy, trivial⟩
    · exact hnobody i ⟨c, _, hbusy, trivial⟩
  rw [SharedMutex.new, ← hwriter, ← hreaders]

/-- **Calls behind a readers–writer lock come to an end**, if no reader reads forever. -/
theorem readWrite_lively
    (hsize : ∀ {a c p a' p'}, read a c p = .ok (a', .inl p') → size p' < size p) :
    (readWrite body read).Lively (RwPhase.rank body size) RwPhase.Entered
      fun (s : Shared α ι) busy t => Sharing body Inv Good s busy t where
  waits {s i c p s' p'} hmove := by
    cases p with
    | entering =>
      rcases entering_move hmove with rfl | rfl
      · exact Or.inl rfl
      · exact Or.inr rank_entered
    | writing | reading | leaving => exact Or.inr (entered_move hsize trivial hmove)
  goes {s busy t i c p s' p'} h hbusy hfree hmove := by
    cases p with
    | entering =>
      rcases hfree with ⟨c', p', hbusy', hentered⟩ | hnobody
      · obtain ⟨-, rfl⟩ := Prod.mk.inj (Option.some.inj (hbusy.symm.trans hbusy'))
        exact hentered.elim
      · rw [free_move (h.free hnobody) hmove]
        exact rank_entered
    | writing | reading | leaving => exact entered_move hsize trivial hmove

end ReadWrite

end SmallKV
