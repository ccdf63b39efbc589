import SmallKV.Foundations.Exec

/-!
# Foundations/Cursor — iterators that are asked whether they stand on an entry

A `Cursor` is the interface of an iterator in the style of `Valid`, `key`/`value` and `Next`.
`Yields c s es` says that from the state `s` it shows the entries `es`, one after the other, and is
then not valid any more; it is established by an account of what is still to come that every step
keeps (`Yields.of_pending`), and it says all about the loop that visits a cursor (`Yields.visit_eq`)
and about every number of its steps (`Yields.advance`).
-/

namespace SmallKV

/-- The interface of an iterator: is it on an entry, which one, and the step to the next. -/
structure Cursor (σ α : Type) where
  valid : σ → Bool
  entry : σ → Exec α
  next : σ → Exec σ

namespace Cursor

variable {σ α : Type} (c : Cursor σ α)

/-- The entries shown until the cursor is not valid any more: one unit of fuel a test. -/
def visit : ℕ → σ → Exec (List α)
  | 0, _ => .error .diverged
  | fuel + 1, s =>
      if c.valid s then do
        let e ← c.entry s
        let rest ← visit fuel (← c.next s)
        return e :: rest
      else return []

/-- `n` steps. -/
def advance : ℕ → σ → Exec σ
  | 0, s => .ok s
  | n + 1, s => do advance n (← c.next s)

/-- From the state `s` the cursor shows the entries `es`, and then it is not valid any more. -/
inductive Yields : σ → List α → Prop
  | nil {s : σ} (hvalid : c.valid s = false) : Yields s []
  | cons {s s' : σ} {e : α} {es : List α} (hvalid : c.valid s = true) (hentry : c.entry s = .ok e)
      (hnext : c.next s = .ok s') (hrest : Yields s' es) : Yields s (e :: es)

namespace Yields

variable {c} {s : σ} {es : List α}

/-- **The rule of the pending entries.**  If the cursor is not valid once nothing is pending, and else
shows the first pending entry and steps to the others, then it yields what is pending. -/
theorem of_pending {P : σ → List α → Prop} (hnil : ∀ s, P s [] → c.valid s = false)
    (hcons : ∀ s e es, P s (e :: es) →
      c.valid s = true ∧ c.entry s = .ok e ∧ ∃ s', c.next s = .ok s' ∧ P s' es) :
    ∀ {es : List α} {s : σ}, P s es → Yields c s es
  | [], s, h => .nil (hnil s h)
  | e :: es, s, h => by
      obtain ⟨hvalid, hentry, s', hnext, hrest⟩ := hcons s e es h
      exact .cons hvalid hentry hnext (of_pending hnil hcons hrest)

/-- A cursor is valid as long as it has entries to show. -/
theorem valid_iff (h : Yields c s es) : c.valid s = true ↔ es ≠ [] := by
  cases h with
  | nil hvalid => simp [hvalid]
  | cons hvalid => simp [hvalid]

/-- **The visiting loop returns the entries** after as many steps as there are entries: with less fuel
it is still running. -/
theorem visit_eq (h : Yields c s es) (fuel : ℕ) :
    c.visit fuel s = if es.length < fuel then .ok es else .error .diverged := by
  induction h generalizing fuel with
  | @nil s hvalid =>
    cases fuel with
    | zero => rfl
    | succ fuel => simp [visit, hvalid]
  | @cons s s' e es hvalid hentry hnext _ ih =>
    cases fuel with
    | zero => rfl
    | succ fuel =>
      simp only [visit, hvalid, if_true, hentry, hnext, ok_bind, ih fuel, List.length_cons,
        Nat.add_lt_add_iff_right]
      split_ifs <;> rfl

/-- **Every step within the entries returns**, and leaves those after it. -/
theorem advance (h : Yields c s es) {n : ℕ} (hn : n ≤ es.length) :
    ∃ s', c.advance n s = .ok s' ∧ Yields c s' (es.drop n) := by
  induction n generalizing s es with
  | zero => exact ⟨s, rfl, h⟩
  | succ n ih =>
    cases h with
    | nil => exact absurd hn (Nat.not_succ_le_zero n)
    | @cons _ s₁ e es _ _ hnext hrest =>
      obtain ⟨s', hs', hyields⟩ := ih hrest (Nat.le_of_succ_le_succ hn)
      exact ⟨s', by simp [Cursor.advance, hnext, hs'], hyields⟩

end Yields

end Cursor

end SmallKV
