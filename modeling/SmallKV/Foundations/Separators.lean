import Mathlib.Data.List.Basic
import Mathlib.Order.Lattice

/-!
# Foundations/Separators — separators between blocks of ascending keys

One separator for each block, above the keys of the block and not above those of the next: then the
first separator above a key names the block of the key (`Separates.route_eq`).  Whether separators
separate is told from the ends of the blocks (`separates_iff_ends`).
-/

namespace SmallKV

variable {κ : Type} [LinearOrder κ]

/-- Separator `i` is above the keys of block `i`, and not above those of block `i + 1`. -/
structure Separates (blocks : List (List κ)) (seps : List κ) : Prop where
  length : seps.length = blocks.length
  above : ∀ (i : ℕ) (block : List κ) (sep : κ), blocks[i]? = some block → seps[i]? = some sep →
    ∀ k ∈ block, k < sep
  below : ∀ (i : ℕ) (block : List κ) (sep : κ), blocks[i + 1]? = some block →
    seps[i]? = some sep → ∀ k ∈ block, sep ≤ k

/-- The first separator above a key. -/
def route (seps : List κ) (k : κ) : Option ℕ := seps.findIdx? fun sep => k < sep

variable {blocks : List (List κ)} {seps : List κ}

/-- **The first separator above a key names its block.** -/
theorem Separates.route_eq (h : Separates blocks seps) (hsorted : blocks.flatten.Pairwise (· < ·))
    (hne : ∀ block ∈ blocks, block ≠ []) {i : ℕ} {block : List κ} {k : κ}
    (hblock : blocks[i]? = some block) (hk : k ∈ block) : route seps k = some i := by
  obtain ⟨hi, hget⟩ := List.getElem?_eq_some_iff.mp hblock
  have hi' : i < seps.length := by rwa [h.length]
  rw [route, List.findIdx?_eq_some_iff_getElem]
  refine ⟨hi', by simpa using h.above i block _ hblock (List.getElem?_eq_getElem hi') k hk,
    fun j hji => ?_⟩
  have hj : j < seps.length := hji.trans hi'
  have hnext : j + 1 < blocks.length := by omega
  -- some key of the block behind separator `j` is not above `k`
  have hbelow : ∀ q ∈ blocks[j + 1], seps[j] ≤ q :=
    h.below j _ _ (List.getElem?_eq_getElem hnext) (List.getElem?_eq_getElem hj)
  have hle : seps[j] ≤ k := by
    rcases Nat.eq_or_lt_of_le (Nat.succ_le_of_lt hji) with heq | hlt
    · obtain rfl : j + 1 = i := heq
      exact hbelow k (hget ▸ hk)
    · obtain ⟨q, hq⟩ := List.exists_mem_of_ne_nil _ (hne _ (List.getElem_mem hnext))
      have hpair := List.pairwise_iff_getElem.mp (List.pairwise_flatten.mp hsorted).2 (j + 1) i
        hnext hi hlt
      exact (hbelow q hq).trans (hpair q hq k (hget ▸ hk)).le
  simpa using hle

/-- The ends of an ascending list bound it. -/
theorem forall_lt_iff_getLast {block : List κ} (hsorted : block.Pairwise (· < ·)) (sep : κ) :
    (∀ k ∈ block, k < sep) ↔ ∀ k ∈ block.getLast?, k < sep := by
  refine ⟨fun h k hk => h k (List.mem_of_getLast? hk), fun h k hk => ?_⟩
  obtain ⟨init, last, rfl⟩ :=
    (List.eq_nil_or_concat block).resolve_left (List.ne_nil_of_mem hk)
  rw [List.concat_eq_append] at hk hsorted h
  have hlast : last < sep := h last (by simp)
  rcases List.mem_append.mp hk with hk | hk
  · exact ((List.pairwise_append.mp hsorted).2.2 k hk last (by simp)).trans hlast
  · rwa [List.mem_singleton.mp hk]

theorem forall_le_iff_head {block : List κ} (hsorted : block.Pairwise (· < ·)) (sep : κ) :
    (∀ k ∈ block, sep ≤ k) ↔ ∀ k ∈ block.head?, sep ≤ k := by
  refine ⟨fun h k hk => h k (List.mem_of_mem_head? hk), fun h k hk => ?_⟩
  obtain ⟨first, rest, rfl⟩ := List.exists_cons_of_ne_nil (List.ne_nil_of_mem hk)
  have hfirst : sep ≤ first := h first rfl
  rcases List.mem_cons.mp hk with rfl | hk
  · exact hfirst
  · exact hfirst.trans ((List.pairwise_cons.mp hsorted).1 k hk).le

/-- **Separators separate ascending blocks when they separate their ends.** -/
theorem separates_iff_ends (hsorted : ∀ block ∈ blocks, block.Pairwise (· < ·))
    (hlength : seps.length = blocks.length) : Separates blocks seps ↔
      (∀ (i : ℕ) (block : List κ) (sep : κ), blocks[i]? = some block → seps[i]? = some sep →
        ∀ k ∈ block.getLast?, k < sep) ∧
      ∀ (i : ℕ) (block : List κ) (sep : κ), blocks[i + 1]? = some block → seps[i]? = some sep →
        ∀ k ∈ block.head?, sep ≤ k := by
  have hmem : ∀ {i : ℕ} {block : List κ}, blocks[i]? = some block → block.Pairwise (· < ·) :=
    fun hblock => hsorted _ (List.mem_of_getElem? hblock)
  constructor
  · intro h
    refine ⟨fun i block sep hblock hsep => ?_, fun i block sep hblock hsep => ?_⟩
    · exact (forall_lt_iff_getLast (hmem hblock) sep).mp (h.above i block sep hblock hsep)
    · exact (forall_le_iff_head (hmem hblock) sep).mp (h.below i block sep hblock hsep)
  · rintro ⟨habove, hbelow⟩
    refine ⟨hlength, fun i block sep hblock hsep => ?_, fun i block sep hblock hsep => ?_⟩
    · exact (forall_lt_iff_getLast (hmem hblock) sep).mpr (habove i block sep hblock hsep)
    · exact (forall_le_iff_head (hmem hblock) sep).mpr (hbelow i block sep hblock hsep)

end SmallKV
