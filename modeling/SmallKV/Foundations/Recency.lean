import Mathlib.Data.List.Dedup
import Mathlib.Data.List.Perm.Subperm

/-!
# Foundations/Recency — lists in the order of last use

A bounded list of keys is kept in the order of their last uses: a key that is used moves to the
front, and what then stands behind the capacity is dropped.  `uses` is the whole history, the latest
use first.  A key is dropped only after as many other keys as the capacity have been used since its
last use (`Ordered.kept`).
-/

namespace SmallKV.Recency

variable {K : Type} [DecidableEq K]

/-- `a` was used later than `b`. -/
def MoreRecent (uses : List K) (a b : K) : Prop := uses.idxOf a < uses.idxOf b

/-- The different keys used after the last use of `k`. -/
def usedSince (uses : List K) (k : K) : List K := (uses.takeWhile (· ≠ k)).dedup

/-- Use a key: it moves to the front, and the list keeps to its capacity. -/
def use (cap : ℕ) (ks : List K) (k : K) : List K := (k :: ks.erase k).take cap

theorem mem_usedSince_iff {uses : List K} {a k : K} :
    a ∈ usedSince uses k ↔ MoreRecent uses a k := by
  rw [usedSince, List.mem_dedup, MoreRecent]
  induction uses with
  | nil => simp
  | cons u uses ih =>
    by_cases hu : u = k
    · subst hu
      simp
    · rw [List.takeWhile_cons_of_pos (by simpa using hu), List.mem_cons, ih,
        List.idxOf_cons_ne _ hu]
      by_cases ha : u = a
      · subst ha
        simp
      · rw [List.idxOf_cons_ne _ ha, or_iff_right (Ne.symm ha)]
        omega

/-- What was used since the last use of `k` is no `k`, and was used after any use of it. -/
theorem of_mem_usedSince_append {later before : List K} {a k : K}
    (h : a ∈ usedSince (later ++ k :: before) k) : a ∈ later ∧ a ≠ k := by
  rw [usedSince, List.mem_dedup] at h
  refine ⟨?_, by simpa using List.all_eq_true.mp List.all_takeWhile a h⟩
  rw [List.takeWhile_append, List.takeWhile_cons_of_neg (by simp), List.append_nil] at h
  split_ifs at h
  · exact h
  · exact (List.takeWhile_prefix _).subset h

/-- Another use pushes every other key back by one. -/
theorem moreRecent_cons {uses : List K} {a b k : K} (ha : a ≠ k) (hb : b ≠ k)
    (h : MoreRecent uses a b) : MoreRecent (k :: uses) a b := by
  rw [MoreRecent, List.idxOf_cons_ne _ ha.symm, List.idxOf_cons_ne _ hb.symm]
  exact Nat.succ_lt_succ h

theorem moreRecent_cons_self {uses : List K} {b k : K} (hb : b ≠ k) :
    MoreRecent (k :: uses) k b := by
  rw [MoreRecent, List.idxOf_cons_self, List.idxOf_cons_ne _ hb.symm]
  exact Nat.succ_pos _

theorem length_usedSince_cons {k k' : K} (hne : k ≠ k') (uses : List K) :
    (usedSince uses k).length ≤ (usedSince (k' :: uses) k).length := by
  refine (List.subperm_of_subset (List.nodup_dedup _) fun a ha => ?_).length_le
  rw [usedSince, List.takeWhile_cons_of_pos (by simpa using hne.symm), List.mem_dedup]
  exact List.mem_cons_of_mem k' (List.mem_dedup.mp ha)

/-- **The list `ks` is bounded, and in the order of last use.** -/
structure Ordered (cap : ℕ) (ks uses : List K) : Prop where
  nodup : ks.Nodup
  bounded : ks.length ≤ cap
  used : ks ⊆ uses
  recent : ks.Pairwise (MoreRecent uses)

namespace Ordered

variable {cap : ℕ} {ks uses : List K} {k k' : K}

theorem nil : Ordered cap ([] : List K) uses :=
  ⟨List.nodup_nil, Nat.zero_le _, List.nil_subset _, List.Pairwise.nil⟩

/-- The list before it is cut to its capacity. -/
theorem pairwise_front (h : Ordered cap ks uses) (k : K) :
    (k :: ks.erase k).Nodup ∧ (k :: ks.erase k).Pairwise (MoreRecent (k :: uses)) := by
  have hne : ∀ a ∈ ks.erase k, a ≠ k := fun a ha => ((h.nodup.mem_erase_iff).mp ha).1
  refine ⟨List.nodup_cons.mpr ⟨fun hk => hne k hk rfl, h.nodup.erase k⟩, ?_⟩
  refine List.pairwise_cons.mpr ⟨fun a ha => moreRecent_cons_self (hne a ha), ?_⟩
  refine (h.recent.sublist List.erase_sublist).imp_of_mem fun ha hb hab => ?_
  exact moreRecent_cons (hne _ ha) (hne _ hb) hab

/-- **A use keeps the order.** -/
theorem use (h : Ordered cap ks uses) (k : K) : Ordered cap (use cap ks k) (k :: uses) where
  nodup := (h.pairwise_front k).1.sublist (List.take_sublist _ _)
  bounded := List.length_take_le _ _
  used _ ha := List.cons_subset_cons k (fun _ hb => h.used (List.mem_of_mem_erase hb))
    (List.mem_of_mem_take ha)
  recent := (h.pairwise_front k).2.sublist (List.take_sublist _ _)

theorem erase (h : Ordered cap ks uses) (k : K) : Ordered cap (ks.erase k) uses where
  nodup := h.nodup.erase k
  bounded := Nat.le_trans List.length_erase_le h.bounded
  used _ ha := h.used (List.mem_of_mem_erase ha)
  recent := h.recent.sublist List.erase_sublist

/-- A key that is listed is moved to the front and nothing is dropped. -/
theorem use_of_mem (h : Ordered cap ks uses) (hk : k ∈ ks) :
    Recency.use cap ks k = k :: ks.erase k := by
  refine List.take_of_length_le ?_
  rw [List.length_cons, List.length_erase_of_mem hk]
  have hpos := List.length_pos_of_mem hk
  have hcap := h.bounded
  omega

/-- A key that was just used is listed, unless nothing can be. -/
theorem mem_use (ks : List K) (k : K) : k ∈ Recency.use cap ks k ∨ cap = 0 := by
  cases cap with
  | zero => exact Or.inr rfl
  | succ cap => exact Or.inl List.mem_cons_self

/-- **A key is dropped only after as many other keys as the capacity have been used since its last
use**: they stand in front of it. -/
theorem kept (h : Ordered cap ks uses) (hk : k ∈ ks) (hne : k ≠ k') :
    k ∈ Recency.use cap ks k' ∨ cap ≤ (usedSince (k' :: uses) k).length := by
  obtain ⟨hnodup, hrecent⟩ := h.pairwise_front k'
  have hmem : k ∈ k' :: ks.erase k' := List.mem_cons_of_mem _ ((List.mem_erase_of_ne hne).mpr hk)
  rw [Recency.use]
  by_cases htake : k ∈ (k' :: ks.erase k').take cap
  · exact Or.inl htake
  · right
    generalize k' :: ks.erase k' = front at *
    have hdrop : k ∈ front.drop cap := by
      rw [← List.take_append_drop cap front] at hmem
      exact (List.mem_append.mp hmem).resolve_left htake
    have hcap : (front.take cap).length = cap := by
      have hlen := List.length_pos_of_mem hdrop
      rw [List.length_drop] at hlen
      rw [List.length_take]
      omega
    have hsub : front.take cap ⊆ usedSince (k' :: uses) k := fun a ha => by
      rw [← List.take_append_drop cap front] at hrecent
      exact mem_usedSince_iff.mpr ((List.pairwise_append.mp hrecent).2.2 a ha k hdrop)
    have hle := (List.subperm_of_subset (hnodup.sublist (List.take_sublist _ _)) hsub).length_le
    rwa [hcap] at hle

end Ordered

end SmallKV.Recency
