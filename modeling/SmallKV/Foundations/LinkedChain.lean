import Mathlib.Data.List.Basic
import Mathlib.Data.List.Nodup

/-!
# Foundations/LinkedChain — singly linked chains of cells

A link function `next` sends a cell to the one after it.  `Chain next p l` says that following
`next` from the cell `p` visits exactly the cells of `l` and then stops.  A chain is split at any of
its cells (`Chain.drop`), it depends on the links of its own cells only (`Chain.congr`), and the two
pointer surgeries of a linked list, linking a cell in and unlinking one, are `Chain.link` and
`Chain.unlink`.
-/

namespace SmallKV

variable {ι : Type} {next next' : ι → Option ι}

/-- Following `next` from `p` visits `l`, then stops. -/
def Chain (next : ι → Option ι) : ι → List ι → Prop
  | p, [] => next p = none
  | p, q :: l => next p = some q ∧ Chain next q l

namespace Chain

@[simp] theorem nil_iff {p : ι} : Chain next p [] ↔ next p = none := Iff.rfl

@[simp] theorem cons_iff {p q : ι} {l : List ι} :
    Chain next p (q :: l) ↔ next p = some q ∧ Chain next q l := Iff.rfl

/-- The first link of a chain. -/
theorem next_eq {p : ι} : ∀ {l : List ι}, Chain next p l → next p = l.head?
  | [], h => h
  | _ :: _, h => h.1

/-- **A chain continues from each of its cells.** -/
theorem drop {b : List ι} : ∀ {p : ι} {a : List ι}, Chain next p (a ++ b) →
    Chain next (a.getLastD p) b
  | _, [], h => h
  | _, q :: a, h => by
      rw [List.getLastD_cons]
      exact drop h.2

/-- A chain depends on the links of its own cells only. -/
theorem congr : ∀ {p : ι} {l : List ι}, Chain next p l → (∀ q ∈ p :: l, next' q = next q) →
    Chain next' p l
  | p, [], h, heq => (heq p (by simp)).trans h
  | p, q :: l, h, heq =>
      ⟨(heq p (by simp)).trans h.1, congr h.2 fun r hr => heq r (List.mem_cons_of_mem _ hr)⟩

/-- A chain up to a cell whose link was redirected, continued by another chain. -/
theorem splice {b : List ι} {l : List ι} : ∀ {p : ι} {a : List ι}, Chain next p (a ++ b) →
    (p :: a).Nodup → (∀ q ∈ p :: a, q ≠ a.getLastD p → next' q = next q) →
    Chain next' (a.getLastD p) l → Chain next' p (a ++ l)
  | _, [], _, _, _, hl => hl
  | p, q :: a, h, hnd, heq, hl => by
      rw [List.getLastD_cons] at heq hl
      obtain ⟨hp, hnd'⟩ := List.nodup_cons.mp hnd
      have hlast : a.getLastD q ∈ q :: a := List.getLastD_mem_cons
      have hne : p ≠ a.getLastD q := fun h => hp (h ▸ hlast)
      refine ⟨(heq p (by simp) hne).trans h.1, splice h.2 hnd' (fun r hr => ?_) hl⟩
      exact heq r (List.mem_cons_of_mem _ hr)

/-- **Linking a cell in.**  The new cell takes over the link of its predecessor. -/
theorem link {p x : ι} {a b : List ι} (h : Chain next p (a ++ b)) (hnd : (p :: (a ++ b)).Nodup)
    (hlast : next' (a.getLastD p) = some x) (hx : next' x = b.head?)
    (hframe : ∀ q ∈ p :: (a ++ b), q ≠ a.getLastD p → next' q = next q) :
    Chain next' p (a ++ x :: b) := by
  obtain ⟨hnd₁, -, hdisj⟩ := List.nodup_append.mp (show ((p :: a) ++ b).Nodup from hnd)
  refine splice h hnd₁ (fun q hq => hframe q (List.mem_append_left b hq)) ⟨hlast, ?_⟩
  have hb : Chain next (a.getLastD p) b := h.drop
  have hlastmem : a.getLastD p ∈ p :: a := List.getLastD_mem_cons
  cases b with
  | nil => exact hx
  | cons r b =>
    refine ⟨hx, hb.2.congr fun q hq => hframe q (List.mem_append_right (p :: a) hq) ?_⟩
    exact fun heq => hdisj _ hlastmem q hq heq.symm

/-- **Unlinking a cell.**  Its predecessor takes over its link. -/
theorem unlink {p x : ι} {a b : List ι} (h : Chain next p (a ++ x :: b))
    (hnd : (p :: (a ++ x :: b)).Nodup) (hlast : next' (a.getLastD p) = next x)
    (hframe : ∀ q ∈ p :: (a ++ b), q ≠ a.getLastD p → next' q = next q) :
    Chain next' p (a ++ b) := by
  obtain ⟨hnd₁, hnd₂, hdisj⟩ := List.nodup_append.mp (show ((p :: a) ++ x :: b).Nodup from hnd)
  refine splice h hnd₁ (fun q hq => hframe q (List.mem_append_left b hq)) ?_
  have hx : Chain next x b := h.drop.2
  have hlastmem : a.getLastD p ∈ p :: a := List.getLastD_mem_cons
  cases b with
  | nil => exact hlast.trans hx
  | cons r b =>
    refine ⟨hlast.trans hx.1, hx.2.congr fun q hq =>
      hframe q (List.mem_append_right (p :: a) hq) ?_⟩
    exact fun heq => hdisj _ hlastmem q (List.mem_cons_of_mem x hq) heq.symm

end Chain

/-- A node put in anywhere after the head of a list without repetitions must be a new one. -/
theorem nodup_insert {α : Type} {p x : α} {lo hi : List α} :
    (p :: (lo ++ x :: hi)).Nodup ↔ x ∉ p :: (lo ++ hi) ∧ (p :: (lo ++ hi)).Nodup := by
  have hperm : List.Perm ((p :: lo) ++ x :: hi) (x :: ((p :: lo) ++ hi)) := List.perm_middle
  exact hperm.nodup_iff.trans List.nodup_cons

end SmallKV
