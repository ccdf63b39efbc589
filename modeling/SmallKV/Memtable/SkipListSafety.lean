import SmallKV.Memtable.SkipListRefinement

/-!
# Memtable/SkipListSafety — no call on a skip list leaves it

After any sequence of calls, whatever `RandomLevel` returned, the chains of the levels are nested and
ascending and no level reaches beyond the links of its nodes (`Structured`).  Hence no call faults:
every link is read in bounds, every loop ends, no null or wild pointer is followed and no assertion
fails (`Safe`).  For the search of `Delete` this includes the branch that the source logs as an error
point: `deletePrevLogged` is that search together with its log.
-/

namespace SmallKV.SkipList

variable {K V : Type}

/-! ## RandomLevel -/

/-- The loop of `RandomLevel`, with `left` tosses left before `kMaxHeight`; `rand i` is the outcome of
`rand() & 1` on level `i`. -/
def randomLevelLoop (rand : ℕ → Bool) : ℕ → ℕ → ℕ
  | 0, level => level
  | left + 1, level => if rand level then randomLevelLoop rand left (level + 1) else level

/-- `RandomLevel`. -/
def randomLevel (rand : ℕ → Bool) : ℕ := randomLevelLoop rand (kMaxHeight - 1) 1

theorem le_randomLevelLoop (rand : ℕ → Bool) (left level : ℕ) :
    level ≤ randomLevelLoop rand left level ∧
      randomLevelLoop rand left level ≤ level + left := by
  induction left generalizing level with
  | zero => exact ⟨le_rfl, le_rfl⟩
  | succ left ih =>
    have hnext := ih (level + 1)
    rw [randomLevelLoop]
    split_ifs <;> omega

/-- Tosses that succeed below level `n` only end there. -/
theorem randomLevelLoop_lt {n : ℕ} (left level : ℕ) (hle : level ≤ n) (hn : n ≤ level + left) :
    randomLevelLoop (decide <| · < n) left level = n := by
  induction left generalizing level with
  | zero => exact Nat.le_antisymm hle hn
  | succ left ih =>
    rw [randomLevelLoop]
    rcases Nat.lt_or_eq_of_le hle with hlt | rfl
    · rw [if_pos (decide_eq_true hlt), ih (level + 1) hlt (by omega)]
    · rw [if_neg (by simp)]

/-- **The outcomes of `RandomLevel` are the levels from 1 to `kMaxHeight`.** -/
theorem exists_randomLevel_iff (n : ℕ) :
    (∃ rand, randomLevel rand = n) ↔ 1 ≤ n ∧ n ≤ kMaxHeight := by
  constructor
  · rintro ⟨rand, rfl⟩
    exact le_randomLevelLoop rand (kMaxHeight - 1) 1
  · rintro ⟨h1, hn⟩
    exact ⟨_, randomLevelLoop_lt (kMaxHeight - 1) 1 h1 hn⟩

/-! ## The log of Delete -/

section Logged

variable [LinearOrder K]

/-- The search loop of `Delete` with its log: has it written `A error point.`? -/
def deletePrevLogged (s : SkipList K V) (key : K) :
    ℕ → NodePtr → ℕ → List (Option NodePtr) → ℤ → Exec (List (Option NodePtr) × ℤ × Bool)
  | 0, _, _, _, _ => .error .diverged
  | fuel + 1, cur, level, prev, levelOfTarget => do
      match ← s.linkAt cur level with
      | none =>
          if level = 0 then return (prev, levelOfTarget, true)
          else s.deletePrevLogged key fuel cur (level - 1) prev levelOfTarget
      | some next =>
          let nd ← s.deref next
          if nd.key = key then
            let prev ← setPrev prev level cur
            if level = 0 then return (prev, (nd.getLevel : ℤ), false)
            else s.deletePrevLogged key fuel cur (level - 1) prev nd.getLevel
          else if nd.key < key then s.deletePrevLogged key fuel next level prev levelOfTarget
          else
            let prev ← setPrev prev level cur
            if level = 0 then return (prev, levelOfTarget, false)
            else s.deletePrevLogged key fuel cur (level - 1) prev levelOfTarget

/-- `Delete` with its log. -/
def deleteLogged [HasSize K] [HasSize V] (s : SkipList K V) (key : K) :
    Exec (SkipList K V × Bool) := do
  if !(← s.contains key) then return (s, false)
  let s := { s with size := s.size - 1 }
  let (prev, levelOfTarget, logged) ←
    s.deletePrevLogged key s.fuel head (s.getCurrentHeight - 1) (List.replicate kMaxHeight none)
      (-1)
  let s := { s with memUsage := s.memUsage - HasSize.size key }
  let prev₀ ← orFault .nullPointer prev[0]?.join
  let target ← orFault .nullPointer (← s.linkAt prev₀ 0)
  let nd ← s.deref target
  let s := { s with memUsage := s.memUsage - HasSize.size nd.value }
  let s ← forLevels (unlinkLevel prev) levelOfTarget.toNat s
  return (s, logged)

variable {s : SkipList K V} {key : K}

/-- The search reads nothing but the heap. -/
theorem deletePrevLogged_congr {s' : SkipList K V} (hheap : s'.heap = s.heap) :
    ∀ {fuel cur i} {prev : List (Option NodePtr)} {lvl : ℤ},
      s'.deletePrevLogged key fuel cur i prev lvl = s.deletePrevLogged key fuel cur i prev lvl := by
  intro fuel
  induction fuel with
  | zero => intros; rfl
  | succ fuel ih =>
    intro cur i prev lvl
    simp only [deletePrevLogged, linkAt, deref, hheap, ih]

/-- **Without its log it is the loop of `Delete`.** -/
theorem deletePrevLoop_eq_logged : ∀ {fuel cur i} {prev : List (Option NodePtr)} {lvl : ℤ},
    s.deletePrevLoop key fuel cur i prev lvl =
      (fun r => (r.1, r.2.1)) <$> s.deletePrevLogged key fuel cur i prev lvl := by
  intro fuel
  induction fuel with
  | zero => intros; rfl
  | succ fuel ih =>
    intro cur i prev lvl
    rw [deletePrevLoop, deletePrevLogged]
    cases s.linkAt cur i with
    | error f => rfl
    | ok next =>
      cases next with
      | none => simp only [ok_bind, ih, apply_ite (Functor.map _)]; rfl
      | some p =>
        simp only [ok_bind]
        cases s.deref p with
        | error f => rfl
        | ok nd =>
          simp only [ok_bind, ih, apply_ite (Functor.map _)]
          cases setPrev prev i cur with
          | error f => rfl
          | ok prev' => simp only [ok_bind, apply_ite (Functor.map _)]; rfl

/-- **Without its log it is `Delete`.** -/
theorem delete_eq_logged [HasSize K] [HasSize V] :
    s.delete key = Prod.fst <$> s.deleteLogged key := by
  rw [delete, deleteLogged]
  simp only [deletePrevLoop_eq_logged, map_eq_pure_bind, bind_assoc, pure_bind]
  congr 1
  funext found
  split_ifs <;> simp only [bind_assoc, pure_bind, bind_pure]

/-- **The log leaves `prev[0]` unset.** -/
theorem prev_zero_of_logged : ∀ {fuel cur i} {prev prev' : List (Option NodePtr)} {lvl lvl' : ℤ},
    s.deletePrevLogged key fuel cur i prev lvl = .ok (prev', lvl', true) → prev'[0]? = prev[0]? := by
  intro fuel
  induction fuel with
  | zero => intro _ _ _ _ _ _ h; cases h
  | succ fuel ih =>
    intro cur i prev prev' lvl lvl' h
    -- where a link was recorded, the search ends without the log or records it above level 0
    have hset : ∀ {prev₁} {lvl₁ lvl₂ : ℤ}, setPrev prev i cur = .ok prev₁ →
        (if i = 0 then .ok (prev₁, lvl₁, false)
          else s.deletePrevLogged key fuel cur (i - 1) prev₁ lvl₂) = .ok (prev', lvl', true) →
        prev'[0]? = prev[0]? := by
      intro prev₁ lvl₁ lvl₂ hprev hrun
      obtain ⟨-, -, hprev⟩ := bind_eq_ok.mp hprev
      obtain rfl := Except.ok.inj hprev
      split_ifs at hrun with hi
      · simp at hrun
      · rw [ih hrun, List.getElem?_set_ne hi]
    obtain ⟨next, -, h⟩ := bind_eq_ok.mp h
    cases next with
    | none =>
      simp only at h
      split_ifs at h with hi
      · obtain ⟨rfl, -⟩ := Prod.mk.inj (Except.ok.inj h)
        rfl
      · exact ih h
    | some p =>
      obtain ⟨nd, -, h⟩ := bind_eq_ok.mp h
      by_cases heq : nd.key = key
      · rw [if_pos heq] at h
        obtain ⟨prev₁, hprev, h⟩ := bind_eq_ok.mp h
        exact hset hprev h
      · by_cases hlt : nd.key < key
        · rw [if_neg heq, if_pos hlt] at h
          exact ih h
        · rw [if_neg heq, if_neg hlt] at h
          obtain ⟨prev₁, hprev, h⟩ := bind_eq_ok.mp h
          exact hset hprev h

end Logged

/-! ## Structure -/

section Structure

variable [LinearOrder K]

/-- Both nodes hold an entry, and the key of the first is the lower one. -/
def Below (s : SkipList K V) (p q : NodePtr) : Prop :=
  ∃ e e', s.entry p = some e ∧ s.entry q = some e' ∧ e.1 < e'.1

/-- **The structure of a skip list**, whose chain on level `i` is `levels i`. -/
structure Structured (s : SkipList K V) (levels : ℕ → List NodePtr) : Prop where
  chained : ∀ i < kMaxHeight, Chain (s.link i) head (levels i)
  ascending : ∀ i, (levels i).Pairwise s.Below
  nested : ∀ i, (levels (i + 1)).Sublist (levels i)
  tall : ∀ i < kMaxHeight, ∀ p ∈ head :: levels i, i < s.height p
  capped : ∀ i, s.maxLevel ≤ i → levels i = []
  maxLevel : 1 ≤ s.maxLevel ∧ s.maxLevel ≤ kMaxHeight

/-- **No call faults**, and no `Delete` writes the log.  When the key of a `Delete` is present, its
search has set `prev[i]` to the node right before the target on every level `i` of the target. -/
structure Safe [HasSize K] [HasSize V] (s : SkipList K V) (levels : ℕ → List NodePtr) : Prop where
  get : ∀ key, ∃ v, s.get key = .ok v
  contains : ∀ key, ∃ found, s.contains key = .ok found
  findPrevNode : ∀ key prev, prev.length = kMaxHeight →
    ∃ prev', s.findPrevNode key prev = .ok prev'
  insert : ∀ key value level, ∃ s', s.insert key value level = .ok s'
  delete : ∀ key, ∃ s', s.delete key = .ok s' ∧ s.deleteLogged key = .ok (s', false)
  deletePrev : ∀ key, s.contains key = .ok true →
    ∃ prev x v, s.deletePrevLogged key s.fuel head (s.getCurrentHeight - 1)
        (List.replicate kMaxHeight none) (-1) = .ok (prev, (s.height x : ℤ), false) ∧
      s.entry x = some (key, v) ∧
      ∀ i < s.height x, ∃ p ∈ head :: levels i, prev[i]? = some (some p) ∧ s.link i p = some x

variable [HasSize K] [HasSize V] {s : SkipList K V} {ns : List NodePtr} {m : SortedMap K V}

/-- The nodes of the list ascend. -/
theorem Rep.pairwise_below (h : Rep s ns m) : ns.Pairwise s.Below := by
  have hmap : (ns.map s.entry).Pairwise fun o o' => ∃ e e', o = some e ∧ o' = some e' ∧ e.1 < e'.1 := by
    rw [h.entries, List.pairwise_map]
    exact m.sorted.imp fun {e e'} hlt => ⟨e, e', rfl, rfl, hlt⟩
  rwa [List.pairwise_map] at hmap

/-- **A list that holds a map is structured**: the chain of a level has the nodes tall enough. -/
theorem Rep.structured (h : Rep s ns m) : Structured s fun i => ns.filter (s.tall i) where
  chained := h.chained
  ascending i := h.pairwise_below.filter _
  nested i := List.monotone_filter_right ns fun p hp =>
    decide_eq_true (Nat.lt_of_succ_lt (of_decide_eq_true hp))
  tall i hi p hp := by
    rcases List.mem_cons.mp hp with rfl | hp
    · rw [h.headHeight]
      exact hi
    · exact of_decide_eq_true (List.mem_filter.mp hp).2
  capped i := h.filter_tall_of_maxLevel_le
  maxLevel := h.maxLevel

/-- **The search of `Delete` for a present key** finds the node and the links to it. -/
theorem Rep.deletePrev (h : Rep s ns m) {key : K} (hkey : s.contains key = .ok true) :
    ∃ prev x v, s.deletePrevLogged key s.fuel head (s.getCurrentHeight - 1)
        (List.replicate kMaxHeight none) (-1) = .ok (prev, (s.height x : ℤ), false) ∧
      s.entry x = some (key, v) ∧
      ∀ i < s.height x, ∃ p ∈ head :: ns.filter (s.tall i),
        prev[i]? = some (some p) ∧ s.link i p = some x := by
  obtain ⟨lo, hi, a, b, hc, hs, hlo, hcase⟩ := h.exists_cut key
  rcases hcase with ⟨hm, -⟩ | ⟨x, rest, v, hm, rfl, hx, hrest⟩
  · rw [contains_spec h, SortedMap.contains, SortedMap.lookup_of_split hs hm] at hkey
    simp at hkey
  · obtain ⟨prev, hrun, hfill⟩ := hc.deletePrev_spec hs hx hrest
    have hxns := h.heights x (hc.nodes ▸ by simp)
    have hfilled : ∀ i < s.height x, prev[i]? = some (some (s.pred lo i)) := fun i hi' =>
      hfill.filled i (by rw [getCurrentHeight]; omega) (decide_eq_true hi')
    obtain ⟨⟨prev', lvl, logged⟩, hlog, hres⟩ := map_eq_ok.mp (deletePrevLoop_eq_logged.symm.trans hrun)
    obtain ⟨rfl, rfl⟩ := Prod.mk.inj hres
    have hnot : logged = false := by
      cases logged with
      | false => rfl
      | true =>
        have hzero := prev_zero_of_logged hlog
        rw [hfilled 0 hxns.1] at hzero
        simp [kMaxHeight] at hzero
    refine ⟨prev', x, v, by rw [hlog, hnot], hx, fun i hi' => ?_⟩
    have hmem : s.pred lo i ∈ head :: ns.filter (s.tall i) := by
      have hsub : lo.Sublist ns := hc.nodes ▸ List.sublist_append_left lo (x :: rest)
      exact ((hsub.filter _).cons_cons head).subset (pred_mem_filter s lo i)
    exact ⟨s.pred lo i, hmem, hfilled i hi', hc.link_pred hi'⟩

/-- **`Delete` never reaches its error point.** -/
theorem Rep.logged_eq_false (h : Rep s ns m) {key : K} {s' : SkipList K V} {logged : Bool}
    (hrun : s.deleteLogged key = .ok (s', logged)) : logged = false := by
  obtain ⟨found, hfound, hrun⟩ := bind_eq_ok.mp hrun
  cases found with
  | false =>
    obtain ⟨-, rfl⟩ := Prod.mk.inj (Except.ok.inj hrun)
    rfl
  | true =>
    obtain ⟨prev, x, v, hsearch, -⟩ := h.deletePrev hfound
    obtain ⟨⟨prev', lvl, logged'⟩, hsearch', hrun⟩ := bind_eq_ok.mp hrun
    have hsame := (deletePrevLogged_congr (s := s) ?_).symm.trans hsearch'
    · obtain ⟨-, -, rfl⟩ : prev = prev' ∧ (s.height x : ℤ) = lvl ∧ false = logged' := by
        simpa using hsearch.symm.trans hsame
      obtain ⟨prev₀, -, hrun⟩ := bind_eq_ok.mp hrun
      obtain ⟨next, -, hrun⟩ := bind_eq_ok.mp hrun
      obtain ⟨target, -, hrun⟩ := bind_eq_ok.mp hrun
      obtain ⟨nd, -, hrun⟩ := bind_eq_ok.mp hrun
      obtain ⟨s₂, -, hrun⟩ := bind_eq_ok.mp hrun
      exact (Prod.mk.inj (Except.ok.inj hrun)).2.symm
    · rfl

/-- **On a list that holds a map no call faults.** -/
theorem Rep.safe (h : Rep s ns m) : Safe s fun i => ns.filter (s.tall i) where
  get key := ⟨_, get_spec h key⟩
  contains key := ⟨_, contains_spec h key⟩
  findPrevNode key prev hlen := by
    obtain ⟨lo, hi, -, -, hc, -⟩ := h.exists_cut key
    obtain ⟨prev', hrun, -⟩ := hc.findPrevNode_spec prev hlen
    exact ⟨prev', hrun⟩
  insert key value level := by
    obtain ⟨s', -, hrun, -⟩ := insert_spec h key value level
    exact ⟨s', hrun⟩
  delete key := by
    obtain ⟨s', -, hrun, -⟩ := delete_spec h key
    obtain ⟨⟨s₁, logged⟩, hlog, rfl⟩ := map_eq_ok.mp (delete_eq_logged.symm.trans hrun)
    exact ⟨s₁, hrun, by rw [hlog, h.logged_eq_false hlog]⟩
  deletePrev key := h.deletePrev

/-- **Structural safety**: any calls on a new list, with any outcomes of `RandomLevel`, return, and
leave a structured list on which no call faults. -/
theorem structurally_safe [Inhabited K] [Inhabited V] (calls : List (Call K V)) :
    ∃ s rs levels, runFrom perform (new : SkipList K V) calls = .ok (s, rs) ∧
      Structured s levels ∧ Safe s levels := by
  obtain ⟨s, hrun, ns, hrep⟩ := run_simulates perform performMap
    (fun (s : SkipList K V) m => ∃ ns, Rep s ns m) (fun _ _ c ⟨_, h⟩ => perform_spec h c) calls new
    SortedMap.empty ⟨[], rep_new⟩
  exact ⟨s, _, fun i => ns.filter (s.tall i), hrun, hrep.structured, hrep.safe⟩

end Structure

end SmallKV.SkipList
