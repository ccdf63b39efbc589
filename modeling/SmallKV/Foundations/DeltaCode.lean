import Mathlib.Data.List.Basic

/-!
# Foundations/DeltaCode — lists coded item by item, each in the light of those before it

An encoder carries a state from one item to the next (`encodeFrom`), and so does the decoder, whose
state may be less: `view` forgets what the bytes do not tell.  When one item can be read back in
front of anything, a whole list can (`decodeFrom_encodeFrom`), and so can the rest of a list from
any place where the two states are known (`encodeFrom_append`).
-/

namespace SmallKV

variable {α β σ τ : Type}

/-- The code of a list: each item is written in the state that the items before it lead to. -/
def encodeFrom (next : σ → α → σ) (enc : σ → α → List β) : σ → List α → List β
  | _, [] => []
  | s, x :: xs => enc s x ++ encodeFrom next enc (next s x) xs

/-- Read items until nothing is left, at most `fuel` of them. -/
def decodeFrom (next : τ → α → τ) (dec : τ → List β → Option (α × List β)) :
    ℕ → τ → List β → Option (List α)
  | _, _, [] => some []
  | 0, _, _ :: _ => none
  | fuel + 1, t, b :: bs => do
      let (x, rest) ← dec t (b :: bs)
      let xs ← decodeFrom next dec fuel (next t x) rest
      return x :: xs

section Encode

variable {next : σ → α → σ} {enc : σ → α → List β}

theorem encodeFrom_append : ∀ (xs ys : List α) (s : σ), encodeFrom next enc s (xs ++ ys) =
    encodeFrom next enc s xs ++ encodeFrom next enc (xs.foldl next s) ys
  | [], _, _ => rfl
  | x :: xs, ys, s => by
      rw [List.cons_append, encodeFrom, encodeFrom_append xs ys, encodeFrom, List.append_assoc,
        List.foldl_cons]

theorem encodeFrom_concat (xs : List α) (x : α) (s : σ) : encodeFrom next enc s (xs ++ [x]) =
    encodeFrom next enc s xs ++ enc (xs.foldl next s) x := by
  rw [encodeFrom_append, encodeFrom, encodeFrom, List.append_nil]

/-- A code of nonempty frames is at least as long as the list. -/
theorem length_le_encodeFrom (hne : ∀ s x, enc s x ≠ []) : ∀ (xs : List α) (s : σ),
    xs.length ≤ (encodeFrom next enc s xs).length
  | [], _ => Nat.zero_le _
  | x :: xs, s => by
      have htail := length_le_encodeFrom hne xs (next s x)
      have hhead := List.length_pos_iff.mpr (hne s x)
      rw [encodeFrom, List.length_append, List.length_cons]
      omega

/-- **Decoding inverts encoding**, on lists of items that are read back one at a time. -/
theorem decodeFrom_encodeFrom {next' : τ → α → τ} {dec : τ → List β → Option (α × List β)}
    {view : σ → τ} {good : α → Prop} (hview : ∀ s x, next' (view s) x = view (next s x))
    (hne : ∀ s x, enc s x ≠ [])
    (hdec : ∀ s x rest, good x → dec (view s) (enc s x ++ rest) = some (x, rest)) :
    ∀ {xs : List α} {s : σ} {fuel : ℕ}, (∀ x ∈ xs, good x) → xs.length ≤ fuel →
      decodeFrom next' dec fuel (view s) (encodeFrom next enc s xs) = some xs
  | [], s, fuel, _, _ => by rw [encodeFrom, decodeFrom]
  | x :: xs, s, 0, _, hfuel => absurd hfuel (Nat.not_succ_le_zero _)
  | x :: xs, s, fuel + 1, hgood, hfuel => by
      have ih : decodeFrom next' dec fuel (view (next s x)) (encodeFrom next enc (next s x) xs) =
          some xs :=
        decodeFrom_encodeFrom hview hne hdec (fun y hy => hgood y (List.mem_cons_of_mem x hy))
          (Nat.le_of_succ_le_succ hfuel)
      have hhead := hdec s x (encodeFrom next enc (next s x) xs) (hgood x List.mem_cons_self)
      rw [encodeFrom]
      obtain ⟨b, bs, hcons⟩ := List.exists_cons_of_ne_nil
        (List.append_ne_nil_of_left_ne_nil (hne s x) (encodeFrom next enc (next s x) xs))
      rw [hcons] at hhead ⊢
      rw [← hview] at ih
      simp [decodeFrom, hhead, ih]

end Encode

end SmallKV
