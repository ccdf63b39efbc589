import Mathlib.Data.List.Basic

/-!
# Foundations/PrefixCode — streams of frames, and self-delimiting codes

A stream is the concatenation of the frames `enc x` of a list of items.  Cutting it anywhere leaves
whole frames and at most one torn one (`exists_cut`).  A code is *self-delimiting* when a frame
can be told from whatever follows it; then a stream determines its items
(`SelfDelimiting.flatMap_injective`), and self-delimiting codes compose
(`SelfDelimiting.prepend`, `SelfDelimiting.dep`).
-/

namespace SmallKV

variable {α β γ : Type}

/-! ## Cutting a stream -/

/-- What a cut leaves after the whole frames: nothing, or a proper prefix of the next frame. -/
def Torn (enc : α → List β) (xs : List α) (tail : List β) : Prop :=
  tail = [] ∧ xs = [] ∨ ∃ x rest, xs = x :: rest ∧ tail <+: enc x ∧ tail.length < (enc x).length

/-- **A cut stream is whole frames and a torn tail.**  Item `i` is among the whole ones exactly when
its frame ends inside the cut. -/
theorem exists_cut (enc : α → List β) : ∀ (xs : List α) (n : ℕ), n ≤ (xs.flatMap enc).length →
    ∃ k ≤ xs.length, ∃ tail, (xs.flatMap enc).take n = (xs.take k).flatMap enc ++ tail ∧
      Torn enc (xs.drop k) tail ∧
      ∀ i < xs.length, i < k ↔ ((xs.take (i + 1)).flatMap enc).length ≤ n := by
  intro xs
  induction xs with
  | nil => exact fun n _ => ⟨0, Nat.le_refl 0, [], by simp, Or.inl ⟨rfl, rfl⟩, by simp⟩
  | cons x xs ih =>
    intro n hn
    rw [List.flatMap_cons, List.length_append] at hn
    by_cases hx : (enc x).length ≤ n
    · obtain ⟨k, hk, tail, hcut, htorn, hwhole⟩ := ih (n - (enc x).length) (by omega)
      refine ⟨k + 1, Nat.succ_le_succ hk, tail, ?_, htorn, fun i hi => ?_⟩
      · rw [List.flatMap_cons, List.take_append, List.take_of_length_le hx, hcut,
          List.take_succ_cons, List.flatMap_cons, List.append_assoc]
      · cases i with
        | zero => simpa using hx
        | succ i =>
          have hi' : i < xs.length := by simpa using hi
          have hlen := hwhole i hi'
          simp only [List.take_succ_cons, List.flatMap_cons, List.length_append] at hlen ⊢
          omega
    · refine ⟨0, Nat.zero_le _, (enc x).take n, ?_,
        Or.inr ⟨x, xs, rfl, List.take_prefix n _, ?_⟩, fun i _ => ?_⟩
      · rw [List.flatMap_cons, List.take_append_of_le_length (by omega)]
        rfl
      · rw [List.length_take]
        omega
      · simp only [List.take_succ_cons, List.flatMap_cons, List.length_append]
        omega

/-- The items whose frames end inside the first `n` places, and what is left of the next frame. -/
def cut (enc : α → List β) : List α → ℕ → List α × List β
  | [], _ => ([], [])
  | x :: xs, n =>
      if (enc x).length ≤ n then
        (x :: (cut enc xs (n - (enc x).length)).1, (cut enc xs (n - (enc x).length)).2)
      else ([], (enc x).take n)

theorem take_flatMap_eq_cut (enc : α → List β) : ∀ (xs : List α) (n : ℕ),
    (xs.flatMap enc).take n = (cut enc xs n).1.flatMap enc ++ (cut enc xs n).2
  | [], n => by simp [cut]
  | x :: xs, n => by
      rw [cut, List.flatMap_cons]
      split_ifs with hx
      · rw [List.take_append, List.take_of_length_le hx, take_flatMap_eq_cut enc xs,
          List.flatMap_cons, List.append_assoc]
      · rw [List.take_append_of_le_length (Nat.le_of_not_le hx)]
        rfl

theorem cut_isPrefix (enc : α → List β) : ∀ (xs : List α) (n : ℕ), (cut enc xs n).1 <+: xs
  | [], _ => List.nil_prefix
  | x :: xs, n => by
      rw [cut]
      split_ifs with hx
      · exact List.cons_prefix_cons.mpr ⟨rfl, cut_isPrefix enc xs _⟩
      · exact List.nil_prefix

/-- What is left is part of a frame, and not all of it. -/
theorem cut_torn (enc : α → List β) : ∀ (xs : List α) (n : ℕ), (cut enc xs n).2 = [] ∨
    ∃ x ∈ xs, (cut enc xs n).2 <+: enc x ∧ (cut enc xs n).2.length < (enc x).length
  | [], n => Or.inl rfl
  | x :: xs, n => by
      rw [cut]
      split_ifs with hx
      · exact (cut_torn enc xs _).imp_right fun ⟨y, hy, h⟩ => ⟨y, List.mem_cons_of_mem x hy, h⟩
      · refine Or.inr ⟨x, List.mem_cons_self, List.take_prefix n _, ?_⟩
        rw [List.length_take]
        omega

/-! ## Self-delimiting codes -/

/-- A frame, and what follows it, are determined by the two together. -/
def SelfDelimiting (enc : α → List β) : Prop :=
  ∀ x y r s, enc x ++ r = enc y ++ s → x = y ∧ r = s

namespace SelfDelimiting

variable {enc : α → List β}

theorem injective (h : SelfDelimiting enc) : Function.Injective enc := fun x y heq =>
  (h x y [] [] (by rw [heq])).1

/-- A constant prefix. -/
theorem prepend (h : SelfDelimiting enc) (p : List β) : SelfDelimiting fun x => p ++ enc x := by
  intro x y r s heq
  rw [List.append_assoc, List.append_assoc] at heq
  exact h x y r s (List.append_cancel_left heq)

/-- Two lists that end where an element first occurs. -/
theorem eq_of_append_cons {t : β} : ∀ {u v r s : List β}, t ∉ u → t ∉ v →
    u ++ t :: r = v ++ t :: s → u = v ∧ r = s
  | [], [], _, _, _, _, heq => ⟨rfl, (List.cons.inj heq).2⟩
  | [], b :: v, _, _, _, hv, heq => absurd (List.cons.inj heq).1 (List.ne_of_not_mem_cons hv)
  | a :: u, [], _, _, hu, _, heq => absurd (List.cons.inj heq).1.symm (List.ne_of_not_mem_cons hu)
  | a :: u, b :: v, r, s, hu, hv, heq => by
      obtain ⟨rfl, hrest⟩ := List.cons.inj heq
      obtain ⟨rfl, rfl⟩ := eq_of_append_cons (List.not_mem_of_not_mem_cons hu)
        (List.not_mem_of_not_mem_cons hv) hrest
      exact ⟨rfl, rfl⟩

/-- **A terminated code**: words that never hold the terminator, followed by it. -/
theorem terminated {word : α → List β} {t : β} (hinj : Function.Injective word)
    (ht : ∀ x, t ∉ word x) (tail : List β) : SelfDelimiting fun x => word x ++ t :: tail := by
  intro x y r s heq
  rw [List.append_assoc, List.append_assoc, List.cons_append, List.cons_append] at heq
  obtain ⟨hword, hrest⟩ := eq_of_append_cons (ht x) (ht y) heq
  exact ⟨hinj hword, List.append_cancel_left hrest⟩

/-- **A header before a body**: the header tells the size, and bodies of one size are
self-delimiting. -/
theorem dep {head : γ → List β} (hhead : SelfDelimiting head) (size : α → γ) {body : α → List β}
    (hbody : ∀ x y r s, size x = size y → body x ++ r = body y ++ s → x = y ∧ r = s) :
    SelfDelimiting fun x => head (size x) ++ body x := by
  intro x y r s heq
  rw [List.append_assoc, List.append_assoc] at heq
  obtain ⟨hsize, hrest⟩ := hhead _ _ _ _ heq
  exact hbody x y r s hsize hrest

/-- Two streams of the same number of frames, with anything behind them. -/
theorem flatMap_append (h : SelfDelimiting enc) : ∀ (xs ys : List α) (r s : List β),
    xs.length = ys.length → xs.flatMap enc ++ r = ys.flatMap enc ++ s → xs = ys ∧ r = s
  | [], [], r, s, _, heq => ⟨rfl, heq⟩
  | x :: xs, y :: ys, r, s, hlen, heq => by
      rw [List.flatMap_cons, List.flatMap_cons, List.append_assoc, List.append_assoc] at heq
      obtain ⟨rfl, hrest⟩ := h x y _ _ heq
      obtain ⟨rfl, rfl⟩ := flatMap_append h xs ys r s (Nat.succ_inj.mp hlen) hrest
      exact ⟨rfl, rfl⟩

/-- **A stream of nonempty self-delimiting frames determines its items.** -/
theorem flatMap_injective (h : SelfDelimiting enc) (hne : ∀ x, enc x ≠ []) :
    ∀ {xs ys : List α}, xs.flatMap enc = ys.flatMap enc → xs = ys
  | [], [], _ => rfl
  | [], y :: ys, heq => by simp [hne y] at heq
  | x :: xs, [], heq => by simp [hne x] at heq
  | x :: xs, y :: ys, heq => by
      rw [List.flatMap_cons, List.flatMap_cons] at heq
      obtain ⟨rfl, hrest⟩ := h x y _ _ heq
      rw [flatMap_injective h hne hrest]

end SelfDelimiting

end SmallKV
