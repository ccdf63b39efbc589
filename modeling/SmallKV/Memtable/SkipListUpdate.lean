import SmallKV.Memtable.SkipListSearch

/-!
# Memtable/SkipListUpdate — linking a node in, and unlinking one

`Insert` and `Delete` repair one level after the other.  A link assignment changes one link of one
node and nothing else (`link_withLink`), so the levels do not disturb each other: the loop invariant
is that the levels done carry the new chain and the levels to do are untouched (`Relinked`).
-/

namespace SmallKV.SkipList

variable {K V : Type}

/-! ## Assigning a link -/

section WithLink

variable {s : SkipList K V} {p q : NodePtr} {i j : ℕ} {v : Option NodePtr}

@[simp] theorem height_withLink : (s.withLink p i v).height q = s.height q := by
  simp only [height, withLink, List.getElem?_modify]
  cases s.heap[q]? with
  | none => rfl
  | some nd => by_cases h : p = q <;> simp [h, SkipNode.getLevel]

@[simp] theorem entry_withLink : (s.withLink p i v).entry q = s.entry q := by
  simp only [entry, withLink, List.getElem?_modify]
  cases s.heap[q]? with
  | none => rfl
  | some nd => by_cases h : p = q <;> simp [h]

/-- **An assignment changes one link.** -/
theorem link_withLink (h : i < s.height p) :
    (s.withLink p i v).link j q = if q = p ∧ j = i then v else s.link j q := by
  obtain ⟨nd, hp, hi⟩ := exists_node h
  by_cases hq : q = p
  · subst hq
    by_cases hj : j = i
    · simp [link, withLink, hp, hj, hi]
    · simp [link, withLink, hp, hj, List.getElem?_set_ne (Ne.symm hj)]
  · simp [link, withLink, hq, Ne.symm hq]

theorem setLink_eq (h : i < s.height p) : s.setLink p i v = .ok (s.withLink p i v) := by
  obtain ⟨nd, hp, hi⟩ := exists_node h
  simp [setLink, deref, hp, SkipNode.getLevel, hi]

end WithLink

/-! ## Allocating a node -/

section NewNode

variable {s : SkipList K V} {key : K} {value : V} {level i : ℕ} {p : NodePtr}

theorem getElem?_newNode (hp : p < s.heap.length) :
    (s.newNode key level value).heap[p]? = s.heap[p]? :=
  List.getElem?_append_left hp

theorem getElem?_newNode_new :
    (s.newNode key level value).heap[s.heap.length]? =
      some ⟨key, value, List.replicate level none⟩ := by
  simp [newNode]

theorem height_newNode (hp : p < s.heap.length) :
    (s.newNode key level value).height p = s.height p := by
  rw [height, height, getElem?_newNode hp]

theorem link_newNode (hp : p < s.heap.length) :
    (s.newNode key level value).link i p = s.link i p := by
  rw [link, link, getElem?_newNode hp]

theorem entry_newNode (hp : p < s.heap.length) :
    (s.newNode key level value).entry p = s.entry p := by
  rw [entry, entry, getElem?_newNode hp]

@[simp] theorem height_newNode_new :
    (s.newNode key level value).height s.heap.length = level := by
  rw [height, getElem?_newNode_new]
  simp [SkipNode.getLevel]

@[simp] theorem entry_newNode_new :
    (s.newNode key level value).entry s.heap.length = some (key, value) := by
  rw [entry, getElem?_newNode_new]
  rfl

end NewNode

/-! ## The loop over the levels -/

/-- **The rule of the loop over the levels.** -/
theorem forLevels_spec {body : SkipList K V → ℕ → Exec (SkipList K V)}
    {I : ℕ → SkipList K V → Prop} {n : ℕ} {s : SkipList K V} (h₀ : I 0 s)
    (hstep : ∀ i s, i < n → I i s → ∃ s', body s i = .ok s' ∧ I (i + 1) s') :
    ∃ s', forLevels body n s = .ok s' ∧ I n s' := by
  induction n with
  | zero => exact ⟨s, rfl, h₀⟩
  | succ n ih =>
    obtain ⟨s₁, h₁, hI₁⟩ := ih fun i s hi => hstep i s (by omega)
    obtain ⟨s₂, h₂, hI₂⟩ := hstep n s₁ (by omega) hI₁
    exact ⟨s₂, by simp [forLevels, h₁, h₂], hI₂⟩

/-- After the levels below `n`: these carry the chain of `ns'`, and everything else is as it was in
`s₁`. -/
structure Relinked (s₁ : SkipList K V) (ns' : List NodePtr) (n : ℕ) (s₂ : SkipList K V) : Prop where
  height : ∀ p, s₂.height p = s₁.height p
  entry : ∀ p, s₂.entry p = s₁.entry p
  maxLevel : s₂.maxLevel = s₁.maxLevel
  size : s₂.size = s₁.size
  memUsage : s₂.memUsage = s₁.memUsage
  done : ∀ i < n, Chain (s₂.link i) head (ns'.filter (s₁.tall i))
  todo : ∀ i, n ≤ i → ∀ p, s₂.link i p = s₁.link i p

theorem Relinked.refl (s : SkipList K V) (ns' : List NodePtr) : Relinked s ns' 0 s :=
  ⟨fun _ => rfl, fun _ => rfl, rfl, rfl, rfl, fun _ h => absurd h (Nat.not_lt_zero _),
    fun _ _ _ => rfl⟩

theorem Relinked.tall {s₁ s₂ : SkipList K V} {ns' : List NodePtr} {n : ℕ}
    (h : Relinked s₁ ns' n s₂) (i : ℕ) : s₂.tall i = s₁.tall i :=
  funext fun p => by rw [SkipList.tall, SkipList.tall, h.height p]

/-- Level `n` is repaired by assignments that change links of this level only. -/
theorem Relinked.succ {s₁ s₂ s₃ : SkipList K V} {ns' : List NodePtr} {n : ℕ}
    (h : Relinked s₁ ns' n s₂) (hheight : ∀ p, s₃.height p = s₂.height p)
    (hentry : ∀ p, s₃.entry p = s₂.entry p) (hmax : s₃.maxLevel = s₂.maxLevel)
    (hsize : s₃.size = s₂.size) (hmem : s₃.memUsage = s₂.memUsage)
    (hlink : ∀ i p, i ≠ n → s₃.link i p = s₂.link i p)
    (hdone : Chain (s₃.link n) head (ns'.filter (s₁.tall n))) : Relinked s₁ ns' (n + 1) s₃ where
  height p := (hheight p).trans (h.height p)
  entry p := (hentry p).trans (h.entry p)
  maxLevel := hmax.trans h.maxLevel
  size := hsize.trans h.size
  memUsage := hmem.trans h.memUsage
  done i hi := by
    rcases Nat.lt_or_eq_of_le (Nat.lt_succ_iff.mp hi) with hlt | rfl
    · exact (h.done i hlt).congr fun p _ => hlink i p (Nat.ne_of_lt hlt)
    · exact hdone
  todo i hi p := (hlink i p (by omega)).trans (h.todo i (by omega) p)

/-! ## The links of `Insert` and `Delete` -/

section Links

variable {s₁ s₂ : SkipList K V} {lo hi : List NodePtr} {x : NodePtr} {n : ℕ}
  {prev : List (Option NodePtr)}

/-- The predecessor on a level is a node of the lower part, or the head. -/
theorem pred_mem_filter (s : SkipList K V) (lo : List NodePtr) (i : ℕ) :
    s.pred lo i ∈ head :: lo.filter (s.tall i) :=
  List.getLastD_mem_cons

theorem pred_mem (s : SkipList K V) (lo : List NodePtr) (i : ℕ) : s.pred lo i ∈ head :: lo :=
  List.cons_subset_cons head (List.filter_subset_self lo) (pred_mem_filter s lo i)

/-- The predecessor on a level reaches that level. -/
theorem lt_height_pred {s : SkipList K V} {i : ℕ} (hhead : i < s.height head) :
    i < s.height (s.pred lo i) := by
  rcases List.mem_cons.mp (pred_mem_filter s lo i) with h | h
  · exact h ▸ hhead
  · simpa [tall] using (List.mem_filter.mp h).2

/-- What `FindPrevNode` leaves for a level: its predecessor, or nothing where the list had no
links yet, and then the predecessor is the head, without a link. -/
def PrevAt (s : SkipList K V) (lo : List NodePtr) (prev : List (Option NodePtr)) (i : ℕ) : Prop :=
  prev[i]? = some (some (s.pred lo i)) ∨
    (prev[i]? = some none ∧ s.pred lo i = head ∧ s.link i head = none)

/-- **One level of the linking loop of `Insert`.** -/
theorem linkLevel_spec (h : Relinked s₁ (lo ++ x :: hi) n s₂)
    (hprev : PrevAt s₁ lo prev n) (hx : n < s₁.height x) (hhead : n < s₁.height head)
    (hnd : (head :: (lo ++ x :: hi)).Nodup)
    (hchain : Chain (s₁.link n) head ((lo ++ hi).filter (s₁.tall n))) :
    ∃ s₃, linkLevel prev x s₂ n = .ok s₃ ∧ Relinked s₁ (lo ++ x :: hi) (n + 1) s₃ := by
  set p := s₁.pred lo n with hpdef
  have hpx : p ≠ x := by
    obtain ⟨-, -, hdisj⟩ := List.nodup_append.mp (show ((head :: lo) ++ x :: hi).Nodup from hnd)
    exact hdisj p (pred_mem s₁ lo n) x List.mem_cons_self
  have hp : n < s₁.height p := lt_height_pred hhead
  have hxn : n < s₂.height x := by rwa [h.height]
  have hpn : n < (s₂.withLink x n (s₂.link n p)).height p := by rwa [height_withLink, h.height]
  let s₃ := (s₂.withLink x n (s₂.link n p)).withLink p n (some x)
  have hlink : ∀ i q, s₃.link i q =
      if q = p ∧ i = n then some x else if q = x ∧ i = n then s₁.link n p else s₂.link i q := by
    intro i q
    rw [link_withLink hpn, link_withLink hxn, h.todo n le_rfl p]
  refine ⟨s₃, ?_, h.succ ?_ ?_ rfl rfl rfl ?_ ?_⟩
  · have hlinkAt : s₂.linkAt p n = .ok (s₂.link n p) := linkAt_eq (by rwa [h.height])
    rcases hprev with hp' | ⟨hp', hph, hnone⟩
    · rw [← hpdef] at hp'
      simp [linkLevel, hp', hlinkAt, setLink_eq hxn, setLink_eq hpn, s₃]
    · have hnone' : s₂.link n p = none := by rw [h.todo n le_rfl, hpdef, hph, hnone]
      simp only [s₃, hnone'] at hpn ⊢
      rw [← hpdef] at hph
      rw [hph] at hpn ⊢
      simp [linkLevel, hp', setLink_eq hxn, setLink_eq hpn]
  · exact fun q => by simp [s₃]
  · exact fun q => by simp [s₃]
  · exact fun i q hi' => by simp [hlink, hi']
  · rw [List.filter_append] at hchain
    have hxt : s₁.tall n x = true := by simpa [tall] using hx
    rw [List.filter_append, List.filter_cons_of_pos hxt]
    have hsub : ((lo ++ hi).filter (s₁.tall n)).Sublist (lo ++ x :: hi) :=
      List.filter_sublist.trans (List.Sublist.append_left (List.sublist_cons_self x hi) lo)
    refine hchain.link ?_ ?_ ?_ ?_
    · exact List.filter_append (p := s₁.tall n) lo hi ▸ hnd.sublist (hsub.cons_cons head)
    · exact (hlink n _).trans (if_pos ⟨rfl, rfl⟩)
    · rw [hlink, if_neg (fun hc => hpx hc.1.symm), if_pos ⟨rfl, rfl⟩]
      exact hchain.drop.next_eq
    · intro q hq hne
      have hqx : q ≠ x := by
        rintro rfl
        rw [← List.filter_append] at hq
        have hxmem : q ∈ head :: (lo ++ hi) := by
          rcases List.mem_cons.mp hq with h | h
          · exact h ▸ List.mem_cons_self
          · exact List.mem_cons_of_mem _ (List.mem_filter.mp h).1
        exact (nodup_insert.mp hnd).1 hxmem
      rw [hlink, if_neg (fun hc => hne hc.1), if_neg (fun hc => hqx hc.1), h.todo n le_rfl]

/-- **One level of the unlinking loop of `Delete`.** -/
theorem unlinkLevel_spec (h : Relinked s₁ (lo ++ hi) n s₂)
    (hprev : prev[n]? = some (some (s₁.pred lo n))) (hx : n < s₁.height x)
    (hhead : n < s₁.height head) (hnd : (head :: (lo ++ x :: hi)).Nodup)
    (hchain : Chain (s₁.link n) head ((lo ++ x :: hi).filter (s₁.tall n))) :
    ∃ s₃, unlinkLevel prev s₂ n = .ok s₃ ∧ Relinked s₁ (lo ++ hi) (n + 1) s₃ := by
  set p := s₁.pred lo n with hpdef
  have hpn : n < s₂.height p := by rw [h.height]; exact lt_height_pred hhead
  have hxn : n < s₂.height x := by rwa [h.height]
  rw [List.filter_append, List.filter_cons_of_pos (by simpa [tall] using hx)] at hchain
  have hpx : s₂.link n p = some x := by
    rw [h.todo n le_rfl, hpdef]
    exact hchain.drop.1
  let s₃ := s₂.withLink p n (s₂.link n x)
  have hlink : ∀ i q, s₃.link i q = if q = p ∧ i = n then s₁.link n x else s₂.link i q := by
    intro i q
    rw [link_withLink hpn, h.todo n le_rfl x]
  refine ⟨s₃, ?_, h.succ ?_ ?_ rfl rfl rfl ?_ ?_⟩
  · simp [unlinkLevel, hprev, linkAt_eq hpn, linkAt_eq hxn, hpx, setLink_eq hpn, s₃]
  · exact fun q => by simp [s₃]
  · exact fun q => by simp [s₃]
  · exact fun i q hi' => by simp [hlink, hi']
  · rw [List.filter_append]
    have hsub : (lo.filter (s₁.tall n) ++ x :: hi.filter (s₁.tall n)).Sublist (lo ++ x :: hi) :=
      List.filter_sublist.append (List.filter_sublist.cons_cons x)
    refine hchain.unlink (hnd.sublist (hsub.cons_cons head)) ?_ ?_
    · exact (hlink n _).trans (if_pos ⟨rfl, rfl⟩)
    · intro q _ hne
      rw [hlink, if_neg (fun hc => hne hc.1), h.todo n le_rfl]

end Links

end SmallKV.SkipList
