import SmallKV.Cache.RefCount

/-!
# Cache/Pins — what becomes of the nodes when nobody releases one

Without a `release` each `get` counts for good.  `Accounted` keeps the books of such a cache: how often
each node was found, and which nodes have been in its list.  A node that has been in the list is
destroyed exactly when it has left and no `get` ever found it (`Accounted.destroyed_iff`).

The node that `insert` makes for a key that is cached is linked in nowhere.  The operations link in and
destroy no nodes but those that were linked in before and new ones (`Evolves`), so it is lost for good
(`Lost.evolves`).
-/

namespace SmallKV.LRU

open Session (Inv)

variable {K V : Type}

/-! ## The books -/

/-- **The books of a cache**: its nodes were found as often as `pins` says, and the nodes `linked` have
been in its list. -/
def Accounted (linked : NodeId → Prop) (pins : NodeId → ℕ) (l : LRU K V) : Prop :=
  ∃ s : Session K V, s.lru = l ∧ s.Inv ∧ (∀ n, s.pinsOn n = pins n) ∧ ∀ n, linked n → n ∈ s.entered

variable {linked : NodeId → Prop} {pins : NodeId → ℕ} {l l' l₁ : LRU K V} {n : NodeId}

theorem accounted_new (cap : ℕ) :
    Accounted (fun _ => False) (fun _ => 0) (new cap : LRU K V) :=
  ⟨Session.new cap, rfl, Session.inv_new cap, fun _ => rfl, fun _ h => h.elim⟩

namespace Accounted

/-- **A node that has been in the list is destroyed exactly when it has left and was never found.** -/
theorem destroyed_iff (h : Accounted linked pins l) (hn : linked n) :
    n ∈ l.destroyed ↔ n ∉ l.nodes ∧ pins n = 0 := by
  obtain ⟨s, rfl, hinv, hpins, hlinked⟩ := h
  have hrefs : s.refs n = 0 ↔ n ∉ s.lru.nodes ∧ pins n = 0 := by
    rw [Session.refs, hpins, Nat.add_eq_zero_iff]
    simp
  rw [← hrefs]
  refine ⟨fun hdead => ?_, hinv.dead n (hlinked n hn)⟩
  by_contra hne
  exact (hinv.alive n (hlinked n hn) (Nat.pos_of_ne_zero hne)).1 hdead

/-- As long as it is not, it counts how often it was found, and the list. -/
theorem refCnt_eq (h : Accounted linked pins l) (hn : linked n) (hlive : n ∉ l.destroyed) :
    ∃ nd, l.heap n = some nd ∧ nd.refCnt = pins n + if n ∈ l.nodes then 1 else 0 := by
  obtain ⟨s, rfl, hinv, hpins, hlinked⟩ := h
  have hpos : 0 < s.refs n :=
    Nat.pos_of_ne_zero fun hzero => hlive (hinv.dead n (hlinked n hn) hzero)
  obtain ⟨-, nd, hnd, hcount⟩ := hinv.alive n (hlinked n hn) hpos
  refine ⟨nd, hnd, ?_⟩
  rw [hcount, Session.refs, hpins, Nat.add_comm]
  push_cast
  rfl

/-- The nodes in the list have been in it. -/
theorem of_nodes (h : Accounted linked pins l) : Accounted (fun n => n ∈ l.nodes) pins l := by
  obtain ⟨s, rfl, hinv, hpins, -⟩ := h
  exact ⟨s, rfl, hinv, hpins, hinv.entered⟩

variable [DecidableEq K] {key : K} {val : V} {r : Option NodeId}

/-- **`insert` finds no node**, and makes one. -/
theorem insert (h : Accounted linked pins l) (hrun : l.insert key val = .ok l') :
    Accounted linked pins l' := by
  obtain ⟨s, rfl, hinv, hpins, hlinked⟩ := h
  obtain ⟨s', r, hstep, hinv'⟩ := hinv.insert key val
  simp only [Session.step, hrun, ok_bind] at hstep
  obtain ⟨rfl, -⟩ := Prod.mk.inj (Except.ok.inj hstep)
  refine ⟨_, rfl, hinv', hpins, fun n hn => ?_⟩
  split_ifs
  · exact hlinked n hn
  · exact List.mem_cons_of_mem _ (hlinked n hn)

/-- **`erase` finds no node.** -/
theorem erase (h : Accounted linked pins l) (hrun : l.erase key = .ok l') :
    Accounted linked pins l' := by
  obtain ⟨s, rfl, hinv, hpins, hlinked⟩ := h
  obtain ⟨s', r, hstep, hinv'⟩ := hinv.erase key
  simp only [Session.step, hrun, ok_bind] at hstep
  obtain ⟨rfl, -⟩ := Prod.mk.inj (Except.ok.inj hstep)
  exact ⟨_, rfl, hinv', hpins, hlinked⟩

/-- `get` answers with the node of the index. -/
theorem answer_of_get (h : WF l) (hrun : l.get key = .ok (l', r)) : r = l.index key := by
  cases hk : l.index key with
  | none =>
    obtain ⟨-, rfl⟩ : l = l' ∧ none = r := by simpa [LRU.get, hk] using hrun
    rfl
  | some n =>
    obtain ⟨nd, hnd, -, -⟩ := h.exists_node hk
    exact (Prod.mk.inj (Except.ok.inj ((get_present hk hnd).symm.trans hrun))).2.symm

/-- **`get` finds the node of its key**, if the count of the node has room. -/
theorem get (h : Accounted linked pins l) (hroom : ∀ n, pins n + 2 < 2 ^ 31)
    (hrun : l.get key = .ok (l', r)) :
    Accounted linked (fun n => pins n + if l.index key = some n then 1 else 0) l' := by
  obtain ⟨s, rfl, hinv, hpins, hlinked⟩ := h
  have hkept : s.Kept (.get key) := fun n _ => (hpins n).symm ▸ hroom n
  obtain ⟨s', r', hstep, hinv'⟩ := hinv.get hkept
  obtain rfl := answer_of_get hinv.wf hrun
  simp only [Session.step, hrun, ok_bind] at hstep
  obtain ⟨rfl, -⟩ := Prod.mk.inj (Except.ok.inj hstep)
  refine ⟨_, rfl, hinv', fun n => ?_, hlinked⟩
  dsimp only
  rw [← hpins n]
  cases hidx : s.lru.index key with
  | none => simp [Session.pinsOn]
  | some m => simp [Session.pinsOn, List.countP_cons]

end Accounted

/-! ## Nodes that are linked in nowhere -/

/-- **What may become of the nodes**: those in the list of `l'` were in that of `l` or are new, and
those that are destroyed in `l'` were destroyed or in the list in `l`, or are new. -/
structure Evolves (l l' : LRU K V) : Prop where
  fresh : l.fresh ≤ l'.fresh
  nodes : ∀ n ∈ l'.nodes, n ∈ l.nodes ∨ l.fresh ≤ n ∧ n < l'.fresh
  destroyed : ∀ n ∈ l'.destroyed, n ∈ l.destroyed ∨ n ∈ l.nodes ∨ l.fresh ≤ n ∧ n < l'.fresh

namespace Evolves

theorem refl (l : LRU K V) : Evolves l l := ⟨le_rfl, fun _ => Or.inl, fun _ => Or.inl⟩

theorem trans (h : Evolves l l₁) (h₁ : Evolves l₁ l') : Evolves l l' where
  fresh := h.fresh.trans h₁.fresh
  nodes n hn := by
    rcases h₁.nodes n hn with hn | ⟨hle, hlt⟩
    · exact (h.nodes n hn).imp_right fun hnew => ⟨hnew.1, hnew.2.trans_le h₁.fresh⟩
    · exact Or.inr ⟨h.fresh.trans hle, hlt⟩
  destroyed n hn := by
    rcases h₁.destroyed n hn with hn | hn | ⟨hle, hlt⟩
    · exact (h.destroyed n hn).imp_right fun hold =>
        hold.imp_right fun hnew => ⟨hnew.1, hnew.2.trans_le h₁.fresh⟩
    · exact Or.inr ((h.nodes n hn).imp_right fun hnew => ⟨hnew.1, hnew.2.trans_le h₁.fresh⟩)
    · exact Or.inr (Or.inr ⟨h.fresh.trans hle, hlt⟩)

/-- Nothing but made nodes has been destroyed. -/
theorem destroyed_lt (h : Evolves l l') (hnodes : ∀ n ∈ l.nodes, n < l.fresh)
    (hdestroyed : ∀ n ∈ l.destroyed, n < l.fresh) (hn : n ∈ l'.destroyed) : n < l'.fresh := by
  rcases h.destroyed n hn with hn | hn | hn
  · exact (hdestroyed n hn).trans_le h.fresh
  · exact (hnodes n hn).trans_le h.fresh
  · exact hn.2

end Evolves

/-- **A lost node**: it was made, and it is neither in the list nor destroyed. -/
structure Lost (l : LRU K V) (n : NodeId) : Prop where
  made : n < l.fresh
  unlinked : n ∉ l.nodes
  kept : n ∉ l.destroyed

/-- **A lost node stays lost.** -/
theorem Lost.evolves (h : Lost l n) (hl : Evolves l l') : Lost l' n where
  made := h.made.trans_le hl.fresh
  unlinked hn := (hl.nodes n hn).elim h.unlinked fun hnew => h.made.not_ge hnew.1
  kept hn := (hl.destroyed n hn).elim h.kept fun hn =>
    hn.elim h.unlinked fun hnew => h.made.not_ge hnew.1

section Operations

variable [DecidableEq K] {key : K} {val : V} {nd : LruNode K V} {r : Option NodeId}

/-- A node leaves the list. -/
theorem Left.evolves (hleft : Left l n nd l') (hn : n ∈ l.nodes) : Evolves l l' where
  fresh := hleft.fresh.ge
  nodes m hm := Or.inl (List.mem_of_mem_erase (hleft.nodes ▸ hm))
  destroyed m hm := by
    rcases hleft.outcome with ⟨-, -, heq⟩ | ⟨-, heq, -⟩
    · rw [heq] at hm
      rcases List.mem_append.mp hm with hm | hm
      · exact Or.inl hm
      · exact Or.inr (Or.inl (List.mem_singleton.mp hm ▸ hn))
    · exact Or.inl (heq ▸ hm)

theorem evolves_of_insert (h : WF l) (hrun : l.insert key val = .ok l') : Evolves l l' := by
  cases hk : l.index key with
  | none =>
    have hpush : Evolves l (l.pushFront key val) := by
      refine ⟨Nat.le_succ _, fun n hn => ?_, fun n => Or.inl⟩
      rcases List.mem_cons.mp hn with rfl | hn
      · exact Or.inr ⟨le_rfl, Nat.lt_succ_self _⟩
      · exact Or.inl hn
    rcases insert_absent h hk val with ⟨hroomy, -⟩ | ⟨l₁, n, nd, hfull, hn, -, hleft⟩
    · obtain rfl := Except.ok.inj (hroomy.symm.trans hrun)
      exact hpush
    · obtain rfl := Except.ok.inj (hfull.symm.trans hrun)
      exact hpush.trans (hleft.evolves hn)
  | some n =>
    obtain rfl := Except.ok.inj ((insert_present hk).symm.trans hrun)
    obtain ⟨-, -, -, hn⟩ := h.exists_node hk
    exact ⟨Nat.le_succ _, fun m hm => Or.inl ((perm_splice hn).mem_iff.mp hm), fun m => Or.inl⟩

theorem evolves_of_erase (h : WF l) (hrun : l.erase key = .ok l') : Evolves l l' := by
  cases hk : l.index key with
  | none =>
    obtain rfl : l = l' := by simpa [LRU.erase, hk] using hrun
    exact .refl l
  | some n =>
    obtain ⟨nd, hnd, -, hn⟩ := h.exists_node hk
    obtain ⟨l₁, herase, hleft⟩ := phantomEraseNode_spec h hn hnd
    obtain rfl : l₁ = l' := by simpa [LRU.erase, hk, herase] using hrun
    exact hleft.evolves hn

theorem evolves_of_get (h : WF l) (hrun : l.get key = .ok (l', r)) : Evolves l l' := by
  cases hk : l.index key with
  | none =>
    obtain ⟨rfl, -⟩ : l = l' ∧ none = r := by simpa [LRU.get, hk] using hrun
    exact .refl l
  | some n =>
    obtain ⟨nd, hnd, -, hn⟩ := h.exists_node hk
    obtain ⟨rfl, -⟩ := Prod.mk.inj (Except.ok.inj ((get_present hk hnd).symm.trans hrun))
    exact ⟨le_rfl, fun m hm => Or.inl ((perm_splice hn).mem_iff.mp hm), fun m => Or.inl⟩

/-- **The node that `insert` makes for a cached key is lost.** -/
theorem lost_of_insert (h : WF l) (hdestroyed : ∀ n ∈ l.destroyed, n < l.fresh)
    (hk : l.contains key = true) (hrun : l.insert key val = .ok l') : Lost l' l.fresh := by
  obtain ⟨n, hindex⟩ := Option.isSome_iff_exists.mp hk
  obtain ⟨-, -, -, hn⟩ := h.exists_node hindex
  obtain rfl := Except.ok.inj ((insert_present hindex).symm.trans hrun)
  refine ⟨Nat.lt_succ_self _, fun hmem => ?_, fun hmem => (hdestroyed _ hmem).false⟩
  exact h.ne_fresh ((perm_splice hn).mem_iff.mp hmem) rfl

end Operations

end SmallKV.LRU
