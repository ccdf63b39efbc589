import SmallKV.Memtable.SkipList
import SmallKV.Foundations.SortedMap
import SmallKV.Foundations.LinkedChain
import Mathlib.Data.List.Perm.Subperm
import Mathlib.Algebra.BigOperators.Group.List.Basic
import Mathlib.Algebra.Ring.Int.Defs

/-!
# Memtable/SkipListSearch — the map a skip list stands for, and what its searches find

`Rep s ns m` says that the list `s` holds the map `m` in the nodes `ns`: on every level the chain
from the head is the sub-list of `ns` of the nodes tall enough for that level.  A search for `key`
is compared with the cut of `ns` at `key` (`Cut`): whatever its level, it stands on a node below the
cut (`At`), and it either moves towards the cut or is at the predecessor of its level (`At.step`).
Every search loop is an induction on the nodes left below the cut and the levels left.
-/

namespace SmallKV.SkipList

variable {K V : Type}

/-! ## Reading the heap -/

/-- The number of levels of a node. -/
def height (s : SkipList K V) (p : NodePtr) : ℕ := (s.heap[p]?.map SkipNode.getLevel).getD 0

/-- The link of a node on level `i`. -/
def link (s : SkipList K V) (i : ℕ) (p : NodePtr) : Option NodePtr :=
  (s.heap[p]?.bind fun nd => nd.next[i]?).join

/-- The key and the value of a node. -/
def entry (s : SkipList K V) (p : NodePtr) : Option (K × V) :=
  s.heap[p]?.map fun nd => (nd.key, nd.value)

/-- Is the node linked on level `i`? -/
def tall (s : SkipList K V) (i : ℕ) (p : NodePtr) : Bool := decide (i < s.height p)

/-- A node with more than `i` levels is there, and has a link on level `i`. -/
theorem exists_node {s : SkipList K V} {p : NodePtr} {i : ℕ} (h : i < s.height p) :
    ∃ nd, s.heap[p]? = some nd ∧ i < nd.next.length := by
  cases hp : s.heap[p]? with
  | none => simp [height, hp] at h
  | some nd => exact ⟨nd, rfl, by simpa [height, hp, SkipNode.getLevel] using h⟩

/-- **`p->next[i]` is in bounds below the height of `p`.** -/
theorem linkAt_eq {s : SkipList K V} {p : NodePtr} {i : ℕ} (h : i < s.height p) :
    s.linkAt p i = .ok (s.link i p) := by
  obtain ⟨nd, hp, hi⟩ := exists_node h
  simp [linkAt, deref, link, hp, List.getElem?_eq_getElem hi]

theorem deref_eq {s : SkipList K V} {p : NodePtr} {k : K} {v : V} (h : s.entry p = some (k, v)) :
    ∃ nd, s.deref p = .ok nd ∧ nd.key = k ∧ nd.value = v ∧ s.height p = nd.getLevel := by
  cases hp : s.heap[p]? with
  | none => simp [entry, hp] at h
  | some nd =>
    have hkv : nd.key = k ∧ nd.value = v := by simpa [entry, hp] using h
    exact ⟨nd, by simp [deref, hp], hkv.1, hkv.2, by simp [height, hp]⟩

/-! ## Where a search stands -/

/-- The predecessor of a cut on level `i`: the last node of the lower part that is tall enough. -/
def pred (s : SkipList K V) (lo : List NodePtr) (i : ℕ) : NodePtr :=
  (lo.filter (s.tall i)).getLastD head

variable {s : SkipList K V}

/-- A search on level `i` stands on `cur`, with the nodes `left` between it and the cut. -/
structure At (s : SkipList K V) (lo : List NodePtr) (cur : NodePtr) (i : ℕ)
    (left : List NodePtr) : Prop where
  tall : i < s.height cur
  passed : ∃ done, lo = done ++ left ∧ cur = done.getLastD head

theorem At.descend {lo left : List NodePtr} {cur : NodePtr} {i : ℕ}
    (h : At s lo cur (i + 1) left) : At s lo cur i left :=
  ⟨Nat.lt_of_succ_lt h.tall, h.passed⟩

/-- Filtering keeps the last node when that one is tall enough. -/
theorem getLastD_filter_tall {i : ℕ} {done : List NodePtr} {p : NodePtr}
    (h : i < s.height (done.getLastD p)) :
    (done.filter (s.tall i)).getLastD p = done.getLastD p := by
  rcases done.eq_nil_or_concat with rfl | ⟨done, q, rfl⟩
  · rfl
  · rw [List.concat_eq_append, List.getLastD_concat] at h ⊢
    rw [List.filter_append, List.filter_cons_of_pos (by simpa [tall] using h), List.filter_nil,
      List.getLastD_concat]

section Filled

variable {lo : List NodePtr} {i : ℕ}

/-- What a loop leaves in `prev`: the predecessors on the levels up to `i` that satisfy `P`, the
other levels above `i` as they were. -/
structure Filled (s : SkipList K V) (lo : List NodePtr) (i : ℕ) (P : ℕ → Prop)
    (prev prev' : List (Option NodePtr)) : Prop where
  length : prev'.length = kMaxHeight
  filled : ∀ j ≤ i, P j → prev'[j]? = some (some (s.pred lo j))
  kept : ∀ j, i < j → prev'[j]? = prev[j]?

/-- Recording the predecessor of level `i`, where the loop goes on below or stops. -/
theorem Filled.of_set {P : ℕ → Prop} {prev prev' : List (Option NodePtr)}
    (h : Filled s lo i P (prev.set (i + 1) (some (s.pred lo (i + 1)))) prev')
    (hlen : i + 1 < prev.length) : Filled s lo (i + 1) P prev prev' := by
  refine ⟨h.length, fun j hj hP => ?_, fun j hj => ?_⟩
  · rcases Nat.lt_or_eq_of_le hj with hlt | rfl
    · exact h.filled j (by omega) hP
    · rw [h.kept (i + 1) (by omega), List.getElem?_set_self hlen]
  · rw [h.kept j (by omega), List.getElem?_set_ne (by omega)]

theorem Filled.zero {P : ℕ → Prop} {prev : List (Option NodePtr)} (hlen : prev.length = kMaxHeight) :
    Filled s lo 0 P prev (prev.set 0 (some (s.pred lo 0))) := by
  refine ⟨by simpa using hlen, fun j hj _ => ?_, fun j hj => ?_⟩
  · obtain rfl : j = 0 := by omega
    rw [List.getElem?_set_self (by rw [hlen]; decide)]
  · rw [List.getElem?_set_ne (by omega)]

/-- A level that is passed without recording anything. -/
theorem Filled.skip {P : ℕ → Prop} {prev prev' : List (Option NodePtr)}
    (h : Filled s lo i P prev prev') (hP : ¬ P (i + 1)) : Filled s lo (i + 1) P prev prev' := by
  refine ⟨h.length, fun j hj hPj => ?_, fun j hj => h.kept j (by omega)⟩
  rcases Nat.lt_or_eq_of_le hj with hlt | rfl
  · exact h.filled j (by omega) hPj
  · exact absurd hPj hP

theorem setPrev_eq {prev : List (Option NodePtr)} {p : NodePtr} (hlen : prev.length = kMaxHeight)
    (hi' : i < kMaxHeight) : setPrev prev i p = .ok (prev.set i (some p)) := by
  simp [setPrev, hlen, hi']

end Filled

/-- Nodes that hold a list of entries hold one of them each. -/
theorem exists_mem_of_map_entry {ps : List NodePtr} {es : List (K × V)}
    (h : ps.map s.entry = es.map some) {p : NodePtr} (hp : p ∈ ps) :
    ∃ e ∈ es, s.entry p = some (e.1, e.2) := by
  have hmem : s.entry p ∈ es.map some := h ▸ List.mem_map_of_mem hp
  obtain ⟨e, he, heq⟩ := List.mem_map.mp hmem
  exact ⟨e, he, heq.symm⟩

/-! ## The representation -/

section Rep

variable [LinearOrder K] [HasSize K] [HasSize V]

/-- What the entries of a map count for in the memory usage. -/
def usage (m : SortedMap K V) : ℤ :=
  (m.entries.map fun e => (HasSize.size e.1 + HasSize.size e.2 : ℤ)).sum

/-- **The skip list `s` holds the map `m` in the nodes `ns`.** -/
structure Rep (s : SkipList K V) (ns : List NodePtr) (m : SortedMap K V) : Prop where
  nodup : (head :: ns).Nodup
  headHeight : s.height head = kMaxHeight
  heights : ∀ p ∈ ns, 1 ≤ s.height p ∧ s.height p ≤ s.maxLevel
  maxLevel : 1 ≤ s.maxLevel ∧ s.maxLevel ≤ kMaxHeight
  entries : ns.map s.entry = m.entries.map some
  chained : ∀ i < kMaxHeight, Chain (s.link i) head (ns.filter (s.tall i))
  size : s.size = m.entries.length
  memUsage : s.memUsage = usage m

variable {ns : List NodePtr} {m : SortedMap K V}

theorem Rep.mem_heap (h : Rep s ns m) {p : NodePtr} (hp : p ∈ ns) : p < s.heap.length := by
  obtain ⟨nd, hnd, -⟩ := exists_node (show 0 < s.height p from (h.heights p hp).1)
  exact (List.getElem?_eq_some_iff.mp hnd).1

/-- The nodes fit into the heap beside the head, so the fuel exceeds them and the levels. -/
theorem Rep.length_lt_fuel (h : Rep s ns m) : ns.length + kMaxHeight ≤ s.fuel := by
  have hsub : ns ⊆ List.range s.heap.length := fun p hp => List.mem_range.mpr (h.mem_heap hp)
  have hlen := ((List.nodup_cons.mp h.nodup).2.subperm hsub).length_le
  rw [List.length_range] at hlen
  simp only [fuel]
  omega

/-- Every node is linked on level 0. -/
theorem Rep.filter_tall_zero (h : Rep s ns m) {ps : List NodePtr} (hsub : ps ⊆ ns) :
    ps.filter (s.tall 0) = ps := by
  refine List.filter_eq_self.mpr fun p hp => decide_eq_true ?_
  exact (h.heights p (hsub hp)).1

/-- No node is linked at or above the current height. -/
theorem Rep.filter_tall_of_maxLevel_le (h : Rep s ns m) {i : ℕ} (hi : s.maxLevel ≤ i) :
    ns.filter (s.tall i) = [] := by
  refine List.filter_eq_nil_iff.mpr fun p hp => ?_
  have hle := (h.heights p hp).2
  simp only [tall, decide_eq_true_eq]
  omega

/-- The nodes cut at a key: those below it, and the rest. -/
structure Cut (s : SkipList K V) (ns : List NodePtr) (m : SortedMap K V) (key : K)
    (lo hi : List NodePtr) : Prop where
  rep : Rep s ns m
  nodes : ns = lo ++ hi
  below : ∀ p ∈ lo, ∃ k v, s.entry p = some (k, v) ∧ k < key
  notBelow : ∀ p ∈ hi, ∃ k v, s.entry p = some (k, v) ∧ key ≤ k

/-- **The nodes are cut at every key.**  When the key is present the upper part starts with its
node; when it is absent the entries of the map are those of the two parts. -/
theorem Rep.exists_cut (h : Rep s ns m) (key : K) :
    ∃ lo hi a b, Cut s ns m key lo hi ∧ SortedMap.Split key a b ∧ lo.map s.entry = a.map some ∧
      ((m.entries = a ++ b ∧ hi.map s.entry = b.map some) ∨
        ∃ x rest v, m.entries = a ++ (key, v) :: b ∧ hi = x :: rest ∧
          s.entry x = some (key, v) ∧ rest.map s.entry = b.map some) := by
  obtain ⟨a, b, hs, hm⟩ := m.exists_split key
  have hcut : ∀ {c : List (K × V)}, m.entries = a ++ c → (∀ e ∈ c, key ≤ e.1) →
      ∃ lo hi, Cut s ns m key lo hi ∧ lo.map s.entry = a.map some ∧ hi.map s.entry = c.map some := by
    intro c hc hge
    have hmap : ns.map s.entry = a.map some ++ c.map some := by
      rw [h.entries, hc, List.map_append]
    obtain ⟨lo, hi, rfl, hlo, hhi⟩ := List.map_eq_append_iff.mp hmap
    refine ⟨lo, hi, ⟨h, rfl, fun p hp => ?_, fun p hp => ?_⟩, hlo, hhi⟩
    · obtain ⟨e, he, heq⟩ := exists_mem_of_map_entry hlo hp
      exact ⟨e.1, e.2, heq, hs.below e he⟩
    · obtain ⟨e, he, heq⟩ := exists_mem_of_map_entry hhi hp
      exact ⟨e.1, e.2, heq, hge e he⟩
  rcases hm with hm | ⟨v, hm⟩
  · obtain ⟨lo, hi, hc, hlo, hhi⟩ := hcut hm fun e he => (hs.above e he).le
    exact ⟨lo, hi, a, b, hc, hs, hlo, Or.inl ⟨hm, hhi⟩⟩
  · have hge : ∀ e ∈ (key, v) :: b, key ≤ e.1 := by
      intro e he
      rcases List.mem_cons.mp he with rfl | he
      · exact le_rfl
      · exact (hs.above e he).le
    obtain ⟨lo, hi, hc, hlo, hhi⟩ := hcut hm hge
    obtain ⟨x, rest, rfl, hx, hrest⟩ := List.map_eq_cons_iff.mp hhi
    exact ⟨lo, x :: rest, a, b, hc, hs, hlo, Or.inr ⟨x, rest, v, hm, rfl, hx, hrest⟩⟩

section AtCut

variable {key : K} {lo hi left : List NodePtr} {cur : NodePtr} {i : ℕ}

theorem Cut.start (hc : Cut s ns m key lo hi) (hi' : i < kMaxHeight) : At s lo head i lo :=
  ⟨by rw [hc.rep.headHeight]; exact hi', [], rfl, rfl⟩

/-- The chain of a level, from where a search stands. -/
theorem At.chain (h : At s lo cur i left) (hc : Cut s ns m key lo hi) (hi' : i < kMaxHeight) :
    Chain (s.link i) cur (left.filter (s.tall i) ++ hi.filter (s.tall i)) := by
  obtain ⟨done, rfl, rfl⟩ := h.passed
  have hchain := hc.rep.chained i hi'
  rw [hc.nodes, List.append_assoc, List.filter_append, List.filter_append] at hchain
  have hdrop := hchain.drop
  rwa [getLastD_filter_tall h.tall] at hdrop

/-- **One step of a search.**  The next node on the level lies below the cut, and the search may
move there; or the search stands on the predecessor, and the next node is the first of the upper
part that is tall enough. -/
theorem At.step (h : At s lo cur i left) (hc : Cut s ns m key lo hi) (hi' : i < kMaxHeight) :
    (∃ n left', s.linkAt cur i = .ok (some n) ∧ n ∈ lo ∧ left'.length < left.length ∧
      At s lo n i left') ∨
    (cur = s.pred lo i ∧ s.linkAt cur i = .ok (hi.filter (s.tall i)).head?) := by
  have hchain := h.chain hc hi'
  have hlink := (linkAt_eq h.tall).trans (congrArg Except.ok hchain.next_eq)
  obtain ⟨done, rfl, rfl⟩ := h.passed
  cases hleft : left.filter (s.tall i) with
  | nil =>
    refine Or.inr ⟨?_, by rw [hlink, hleft, List.nil_append]⟩
    rw [pred, List.filter_append, hleft, List.append_nil, getLastD_filter_tall h.tall]
  | cons n ps =>
    obtain ⟨skip, left', rfl, -, htall, -⟩ := List.filter_eq_cons_iff.mp hleft
    refine Or.inl ⟨n, left', by rw [hlink, hleft]; rfl, by simp, by simp; omega, ?_⟩
    refine ⟨by simpa [SkipList.tall] using htall, done ++ skip ++ [n], by simp, ?_⟩
    rw [List.getLastD_concat]

/-- The key of a node below the cut. -/
theorem Cut.deref_lo (hc : Cut s ns m key lo hi) {p : NodePtr} (hp : p ∈ lo) :
    ∃ nd, s.deref p = .ok nd ∧ nd.key < key := by
  obtain ⟨k, v, he, hk⟩ := hc.below p hp
  obtain ⟨nd, hd, rfl, -, -⟩ := deref_eq he
  exact ⟨nd, hd, hk⟩

/-- The key of a node that is not below the cut. -/
theorem Cut.deref_hi (hc : Cut s ns m key lo hi) {p : NodePtr} (hp : p ∈ hi) :
    ∃ nd, s.deref p = .ok nd ∧ key ≤ nd.key := by
  obtain ⟨k, v, he, hk⟩ := hc.notBelow p hp
  obtain ⟨nd, hd, rfl, -, -⟩ := deref_eq he
  exact ⟨nd, hd, hk⟩

/-- Every node is linked on level 0. -/
theorem Cut.filter_tall_zero (hc : Cut s ns m key lo hi) : hi.filter (s.tall 0) = hi :=
  hc.rep.filter_tall_zero fun _ hp => hc.nodes ▸ List.mem_append_right lo hp

/-! ## The search loops -/

omit [HasSize K] [HasSize V] in
/-- The loops read nothing but the heap. -/
theorem findPrevLoop_congr {s' : SkipList K V} (hheap : s'.heap = s.heap) :
    ∀ {fuel cur i} {prev : List (Option NodePtr)},
      s'.findPrevLoop key fuel cur i prev = s.findPrevLoop key fuel cur i prev := by
  intro fuel
  induction fuel with
  | zero => intros; rfl
  | succ fuel ih =>
    intro cur i prev
    simp only [findPrevLoop, linkAt, deref, hheap, ih]

omit [HasSize K] [HasSize V] in
theorem findPrevNode_congr {s' : SkipList K V} (hheap : s'.heap = s.heap)
    (hmax : s'.maxLevel = s.maxLevel) (prev : List (Option NodePtr)) :
    s'.findPrevNode key prev = s.findPrevNode key prev := by
  rw [findPrevNode, findPrevNode, findPrevLoop_congr hheap, fuel, fuel, hheap, getCurrentHeight,
    getCurrentHeight, hmax]

omit [HasSize K] [HasSize V] in
theorem deletePrevLoop_congr {s' : SkipList K V} (hheap : s'.heap = s.heap) :
    ∀ {fuel cur i} {prev : List (Option NodePtr)} {lvl : ℤ},
      s'.deletePrevLoop key fuel cur i prev lvl = s.deletePrevLoop key fuel cur i prev lvl := by
  intro fuel
  induction fuel with
  | zero => intros; rfl
  | succ fuel ih =>
    intro cur i prev lvl
    simp only [deletePrevLoop, linkAt, deref, hheap, ih]

/-- No node of the upper part has the key. -/
def Absent (s : SkipList K V) (key : K) (hi : List NodePtr) : Prop :=
  ∀ p ∈ hi, ∀ nd, s.deref p = .ok nd → key < nd.key

/-- **Searching for an absent key finds nothing.** -/
theorem searchLoop_absent (hc : Cut s ns m key lo hi) (habs : Absent s key hi) :
    ∀ {fuel cur i left}, At s lo cur i left → i < kMaxHeight → left.length + i < fuel →
      s.searchLoop key fuel cur i = .ok none := by
  intro fuel
  induction fuel with
  | zero => intro _ _ _ _ _ hf; omega
  | succ fuel ih =>
    intro cur i left hat hi' hf
    rcases hat.step hc hi' with ⟨n, left', hlink, hn, hlt, hat'⟩ | ⟨-, hlink⟩
    · obtain ⟨nd, hd, hkey⟩ := hc.deref_lo hn
      simp only [searchLoop, hlink, ok_bind, hd, hkey.ne, hkey, if_true, if_false]
      exact ih hat' hi' (by omega)
    · have hdown : (if i = 0 then .ok none else s.searchLoop key fuel cur (i - 1)) =
          (.ok none : Exec (Option (SkipNode K V))) := by
        rcases i with _ | i
        · rfl
        · exact ih hat.descend (by omega) (by omega)
      cases hnext : (hi.filter (s.tall i)).head? with
      | none => simpa only [searchLoop, hlink, hnext, ok_bind, pure_eq_ok] using hdown
      | some q =>
        have hq : q ∈ hi := (List.mem_filter.mp (List.mem_of_mem_head? hnext)).1
        obtain ⟨nd, hd, -⟩ := hc.deref_hi hq
        have hgt := habs q hq nd hd
        simpa [searchLoop, hlink, hnext, hd, hgt.ne', hgt.not_gt] using hdown

/-- **Searching for a present key finds its node**, on whatever level it is met. -/
theorem searchLoop_present {x : NodePtr} {rest : List NodePtr} {nd : SkipNode K V}
    (hc : Cut s ns m key lo (x :: rest)) (habs : Absent s key rest) (hx : s.deref x = .ok nd)
    (hkey : nd.key = key) :
    ∀ {fuel cur i left}, At s lo cur i left → i < kMaxHeight → left.length + i < fuel →
      s.searchLoop key fuel cur i = .ok (some nd) := by
  intro fuel
  induction fuel with
  | zero => intro _ _ _ _ _ hf; omega
  | succ fuel ih =>
    intro cur i left hat hi' hf
    rcases hat.step hc hi' with ⟨n, left', hlink, hn, hlt, hat'⟩ | ⟨-, hlink⟩
    · obtain ⟨nd', hd, hlow⟩ := hc.deref_lo hn
      simp only [searchLoop, hlink, ok_bind, hd, hlow.ne, hlow, if_true, if_false]
      exact ih hat' hi' (by omega)
    · by_cases htall : s.tall i x = true
      · rw [List.filter_cons_of_pos htall, List.head?_cons] at hlink
        simp only [searchLoop, hlink, ok_bind, hx, hkey, if_true, pure_eq_ok]
      · -- the target does not reach this level, so the search descends past it
        rcases i with _ | i
        · rw [hc.filter_tall_zero, List.head?_cons] at hlink
          simp only [searchLoop, hlink, ok_bind, hx, hkey, if_true, pure_eq_ok]
        · rw [List.filter_cons_of_neg htall] at hlink
          have hdown := ih hat.descend (by omega) (by omega)
          cases hnext : (rest.filter (s.tall (i + 1))).head? with
          | none => simpa [searchLoop, hlink, hnext] using hdown
          | some q =>
            have hq : q ∈ rest := (List.mem_filter.mp (List.mem_of_mem_head? hnext)).1
            obtain ⟨nd', hd, -⟩ := hc.deref_hi (List.mem_cons_of_mem x hq)
            have hgt := habs q hq nd' hd
            simpa [searchLoop, hlink, hnext, hd, hgt.ne', hgt.not_gt] using hdown

/-- **`FindPrevNode` records the predecessor of every level it passes.** -/
theorem findPrevLoop_spec (hc : Cut s ns m key lo hi) :
    ∀ {fuel cur i left} (prev : List (Option NodePtr)), At s lo cur i left → i < kMaxHeight →
      prev.length = kMaxHeight → left.length + i < fuel →
      ∃ prev', s.findPrevLoop key fuel cur i prev = .ok prev' ∧
        Filled s lo i (fun _ => True) prev prev' := by
  intro fuel
  induction fuel with
  | zero => intro _ _ _ _ _ _ _ hf; omega
  | succ fuel ih =>
    intro cur i left prev hat hi' hlen hf
    rcases hat.step hc hi' with ⟨n, left', hlink, hn, hlt, hat'⟩ | ⟨hcur, hlink⟩
    · obtain ⟨nd, hd, hkey⟩ := hc.deref_lo hn
      obtain ⟨prev', hrun, hfill⟩ := ih prev hat' hi' hlen (by omega)
      exact ⟨prev', by simpa [findPrevLoop, hlink, hd, hkey.not_ge] using hrun, hfill⟩
    · have hset := setPrev_eq (p := cur) hlen hi'
      have hdown : ∃ prev', (if i = 0 then .ok (prev.set i (some cur)) else
          s.findPrevLoop key fuel cur (i - 1) (prev.set i (some cur))) = .ok prev' ∧
          Filled s lo i (fun _ => True) prev prev' := by
        rcases i with _ | i
        · exact ⟨_, rfl, hcur ▸ Filled.zero hlen⟩
        · obtain ⟨prev', hrun, hfill⟩ := ih (prev.set (i + 1) (some cur)) hat.descend
            (by omega) (by simpa using hlen) (by omega)
          exact ⟨prev', hrun, Filled.of_set (hcur ▸ hfill) (by omega)⟩
      obtain ⟨prev', hrun, hfill⟩ := hdown
      refine ⟨prev', ?_, hfill⟩
      cases hnext : (hi.filter (s.tall i)).head? with
      | none => simpa [findPrevLoop, hlink, hnext, hset] using hrun
      | some q =>
        have hq : q ∈ hi := (List.mem_filter.mp (List.mem_of_mem_head? hnext)).1
        obtain ⟨nd, hd, hge⟩ := hc.deref_hi hq
        simpa [findPrevLoop, hlink, hnext, hset, hd, hge] using hrun

/-- **`Delete` records the predecessor of every level of its target**, and the target's height. -/
theorem deletePrevLoop_spec {x : NodePtr} {rest : List NodePtr} {nd : SkipNode K V}
    (hc : Cut s ns m key lo (x :: rest)) (habs : Absent s key rest) (hx : s.deref x = .ok nd)
    (hkey : nd.key = key) :
    ∀ {fuel cur i left} (prev : List (Option NodePtr)) (lvl : ℤ), At s lo cur i left →
      i < kMaxHeight → prev.length = kMaxHeight → left.length + i < fuel →
      ∃ prev', s.deletePrevLoop key fuel cur i prev lvl = .ok (prev', (nd.getLevel : ℤ)) ∧
        Filled s lo i (fun j => s.tall j x = true) prev prev' := by
  intro fuel
  induction fuel with
  | zero => intro _ _ _ _ _ _ _ _ hf; omega
  | succ fuel ih =>
    intro cur i left prev lvl hat hi' hlen hf
    rcases hat.step hc hi' with ⟨n, left', hlink, hn, hlt, hat'⟩ | ⟨hcur, hlink⟩
    · obtain ⟨nd', hd, hlow⟩ := hc.deref_lo hn
      obtain ⟨prev', hrun, hfill⟩ := ih prev lvl hat' hi' hlen (by omega)
      refine ⟨prev', ?_, hfill⟩
      simpa [deletePrevLoop, hlink, hd, hlow.ne, hlow] using hrun
    · have hset := setPrev_eq (p := cur) hlen hi'
      have hdown : ∀ (lvl : ℤ) (i' : ℕ), i = i' + 1 → ∃ prev',
          s.deletePrevLoop key fuel cur i' (prev.set i (some cur)) lvl =
            .ok (prev', (nd.getLevel : ℤ)) ∧
          Filled s lo i (fun j => s.tall j x = true) prev prev' := by
        rintro lvl i' rfl
        obtain ⟨prev', hrun, hfill⟩ := ih (prev.set (i' + 1) (some cur)) lvl
          hat.descend (by omega) (by simpa using hlen) (by omega)
        exact ⟨prev', hrun, Filled.of_set (hcur ▸ hfill) (by omega)⟩
      by_cases htall : s.tall i x = true
      · rw [List.filter_cons_of_pos htall, List.head?_cons] at hlink
        rcases i with _ | i
        · exact ⟨_, by simp [deletePrevLoop, hlink, hset, hx, hkey], hcur ▸ Filled.zero hlen⟩
        · obtain ⟨prev', hrun, hfill⟩ := hdown nd.getLevel i rfl
          exact ⟨prev', by simpa [deletePrevLoop, hlink, hset, hx, hkey] using hrun, hfill⟩
      · rcases i with _ | i
        · have hall : x ∈ (x :: rest).filter (s.tall 0) := by
            rw [hc.filter_tall_zero]
            exact List.mem_cons_self
          exact absurd (List.mem_filter.mp hall).2 htall
        · rw [List.filter_cons_of_neg htall] at hlink
          cases hnext : (rest.filter (s.tall (i + 1))).head? with
          | none =>
            obtain ⟨prev', hrun, hfill⟩ := ih prev lvl hat.descend
              (by omega) hlen (by omega)
            refine ⟨prev', ?_, hfill.skip htall⟩
            simpa [deletePrevLoop, hlink, hnext] using hrun
          | some q =>
            have hq : q ∈ rest := (List.mem_filter.mp (List.mem_of_mem_head? hnext)).1
            obtain ⟨nd', hd, -⟩ := hc.deref_hi (List.mem_cons_of_mem x hq)
            have hgt := habs q hq nd' hd
            obtain ⟨prev', hrun, hfill⟩ := hdown lvl i rfl
            refine ⟨prev', ?_, hfill⟩
            simpa [deletePrevLoop, hlink, hnext, hset, hd, hgt.ne', hgt.not_gt] using hrun

end AtCut

end Rep

end SmallKV.SkipList
