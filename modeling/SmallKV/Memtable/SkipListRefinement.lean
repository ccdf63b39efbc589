import SmallKV.Memtable.SkipListUpdate
import SmallKV.Foundations.Bytes
import SmallKV.Foundations.Cursor

/-!
# Memtable/SkipListRefinement — the skip list is a sorted map

`insert_spec`, `delete_spec`, `contains_spec`, `get_spec` and `traverse_spec` compare each operation
with the one of the map the list holds, for every outcome of `RandomLevel`; none of them faults.
`refines_sortedMap` runs this over any sequence of calls on a new list.
-/

namespace SmallKV.SkipList

variable {K V : Type} {s : SkipList K V}

/-- The iterator of a list as its callers use it. -/
def cursor (s : SkipList K V) : Cursor Iterator (K × V) :=
  ⟨Iterator.valid, Iterator.entry s, Iterator.next s⟩

theorem visit_eq_cursor (fuel : ℕ) (it : Iterator) : s.visit fuel it = s.cursor.visit fuel it := by
  induction fuel generalizing it with
  | zero => rfl
  | succ fuel ih =>
    simp only [visit, Cursor.visit, ih]
    rfl

/-- **The iterator after `q` shows the entries of the nodes that follow `q`.** -/
theorem yields_spec {ps : List NodePtr} : ∀ {es : List (K × V)} {q : NodePtr},
    Chain (s.link 0) q ps → ps.map s.entry = es.map some → (∀ p ∈ ps, 0 < s.height p) →
      s.cursor.Yields ⟨s.link 0 q⟩ es := by
  induction ps with
  | nil =>
    intro es q hq hes _
    obtain rfl : es = [] := by simpa using hes.symm
    rw [Chain.nil_iff.mp hq]
    exact .nil rfl
  | cons p ps ih =>
    intro es q hq hes hpos
    obtain ⟨⟨k, v⟩, es, rfl, hp, hes'⟩ := List.map_eq_cons_iff.mp hes.symm
    obtain ⟨hnext, hrest⟩ := Chain.cons_iff.mp hq
    obtain ⟨nd, hd, rfl, rfl, -⟩ := deref_eq hp.symm
    have hlink := linkAt_eq (hpos p List.mem_cons_self)
    rw [hnext]
    refine .cons rfl ?_ ?_ (ih hrest hes'.symm fun r hr => hpos r (List.mem_cons_of_mem p hr))
    · simp [cursor, Iterator.entry, Iterator.current, hd]
    · simp [cursor, Iterator.next, Iterator.current, hlink]

/-- Visiting from the node after `q` reads the entries of the nodes that follow `q`. -/
theorem visit_spec {ps : List NodePtr} {es : List (K × V)} {fuel : ℕ} {q : NodePtr}
    (hq : Chain (s.link 0) q ps) (hes : ps.map s.entry = es.map some)
    (hpos : ∀ p ∈ ps, 0 < s.height p) (hfuel : ps.length < fuel) :
    s.visit fuel ⟨s.link 0 q⟩ = .ok es := by
  have hlen : ps.length = es.length := by simpa using congrArg List.length hes
  rw [visit_eq_cursor, (yields_spec hq hes hpos).visit_eq, if_pos (hlen ▸ hfuel)]

/-- A new node leaves the nodes of the list as they were. -/
structure Fresh (s s₁ : SkipList K V) (ns : List NodePtr) (x : NodePtr) : Prop where
  notMem : x ∉ head :: ns
  height : ∀ p ∈ head :: ns, s₁.height p = s.height p
  entry : ∀ p ∈ head :: ns, s₁.entry p = s.entry p
  link : ∀ i, ∀ p ∈ head :: ns, s₁.link i p = s.link i p

/-- The nodes tall enough for a level stay the same ones. -/
theorem Fresh.filter_tall {s₁ : SkipList K V} {ns : List NodePtr} {x : NodePtr} (hf : Fresh s s₁ ns x)
    {ps : List NodePtr} (hsub : ps ⊆ ns) (i : ℕ) : ps.filter (s₁.tall i) = ps.filter (s.tall i) :=
  List.filter_congr fun p hp => by
    rw [tall, tall, hf.height p (List.mem_cons_of_mem _ (hsub hp))]

variable [LinearOrder K] {m : SortedMap K V}

/-- The upper part of a cut with entries above the key does not hold the key. -/
theorem absent_of_above {key : K} {hi : List NodePtr} {a b : List (K × V)}
    (hs : SortedMap.Split key a b) (hhi : hi.map s.entry = b.map some) : Absent s key hi := by
  intro p hp nd hd
  obtain ⟨e, he, heq⟩ := exists_mem_of_map_entry hhi hp
  obtain ⟨nd', hd', hk, -, -⟩ := deref_eq heq
  obtain rfl : nd' = nd := Except.ok.inj (hd'.symm.trans hd)
  exact hk ▸ hs.above e he

variable [HasSize K] [HasSize V] {ns : List NodePtr}

/-! ## Queries -/

/-- A search starts on a level that exists. -/
theorem Rep.topLevel (h : Rep s ns m) : s.getCurrentHeight - 1 < kMaxHeight := by
  have hmax := h.maxLevel
  simp only [getCurrentHeight]
  omega

/-- The fuel of a search exceeds the steps it can take from the head. -/
theorem Cut.fuel_enough {key : K} {lo hi : List NodePtr} (hc : Cut s ns m key lo hi) :
    lo.length + (s.getCurrentHeight - 1) < s.fuel := by
  have hfuel := hc.rep.length_lt_fuel
  have htop := hc.rep.topLevel
  rw [hc.nodes, List.length_append] at hfuel
  omega

/-- **The search finds the entry of the map.** -/
theorem searchLoop_spec (h : Rep s ns m) (key : K) :
    ∃ r, s.searchLoop key s.fuel head (s.getCurrentHeight - 1) = .ok r ∧
      r.map SkipNode.value = m.lookup key := by
  obtain ⟨lo, hi, a, b, hc, hs, -, hcase⟩ := h.exists_cut key
  have hat := hc.start h.topLevel
  rcases hcase with ⟨hm, hhi⟩ | ⟨x, rest, v, hm, rfl, hx, hrest⟩
  · have habs := absent_of_above hs hhi
    refine ⟨none, searchLoop_absent hc habs hat h.topLevel hc.fuel_enough, ?_⟩
    exact (SortedMap.lookup_of_split hs hm).symm
  · have habs := absent_of_above hs hrest
    obtain ⟨nd, hd, hk, hv, -⟩ := deref_eq hx
    refine ⟨some nd, searchLoop_present hc habs hd hk hat h.topLevel hc.fuel_enough, ?_⟩
    rw [SortedMap.lookup_of_split_cons hs hm, Option.map_some, hv]

/-- **`Contains` answers for the map.** -/
theorem contains_spec (h : Rep s ns m) (key : K) : s.contains key = .ok (m.contains key) := by
  obtain ⟨r, hrun, hr⟩ := searchLoop_spec h key
  simp [contains, hrun, SortedMap.contains, ← hr]

/-- **`Get` answers for the map.** -/
theorem get_spec (h : Rep s ns m) (key : K) : s.get key = .ok (m.lookup key) := by
  obtain ⟨r, hrun, hr⟩ := searchLoop_spec h key
  simp [get, hrun, hr]

/-! ## Traversal -/

/-- **A traversal visits the entries of the map in ascending order.** -/
theorem traverse_spec (h : Rep s ns m) : s.traverse = .ok m.entries := by
  have hchain := h.chained 0 (by decide)
  rw [h.filter_tall_zero (List.Subset.refl ns)] at hchain
  have hhead : 0 < s.height head := by rw [h.headHeight]; decide
  have hfuel : ns.length < s.fuel := Nat.lt_of_lt_of_le (by simp [kMaxHeight]) h.length_lt_fuel
  have hvisit := visit_spec hchain h.entries (fun p hp => (h.heights p hp).1) hfuel
  simp [traverse, moveToFirst, linkAt_eq hhead, hvisit]

/-! ## Lists whose lower levels are still to be linked -/

/-- The list holds the map but for the chains of the levels below `n`. -/
structure RepAbove (n : ℕ) (s : SkipList K V) (ns : List NodePtr) (m : SortedMap K V) : Prop where
  nodup : (head :: ns).Nodup
  headHeight : s.height head = kMaxHeight
  heights : ∀ p ∈ ns, 1 ≤ s.height p ∧ s.height p ≤ s.maxLevel
  maxLevel : 1 ≤ s.maxLevel ∧ s.maxLevel ≤ kMaxHeight
  entries : ns.map s.entry = m.entries.map some
  chained : ∀ i < kMaxHeight, n ≤ i → Chain (s.link i) head (ns.filter (s.tall i))
  size : s.size = m.entries.length
  memUsage : s.memUsage = usage m

/-- **Linking the levels below `n` is all that is left to do.** -/
theorem RepAbove.relinked {n : ℕ} {s₁ s₂ : SkipList K V} {ns : List NodePtr}
    (h : RepAbove n s₁ ns m) (hrel : Relinked s₁ ns n s₂) : Rep s₂ ns m where
  nodup := h.nodup
  headHeight := (hrel.height head).trans h.headHeight
  heights p hp := by
    rw [hrel.height, hrel.maxLevel]
    exact h.heights p hp
  maxLevel := hrel.maxLevel ▸ h.maxLevel
  entries := (List.map_congr_left fun p _ => hrel.entry p).trans h.entries
  chained i hi := by
    rw [hrel.tall i]
    by_cases hlt : i < n
    · exact hrel.done i hlt
    · exact (h.chained i hi (Nat.le_of_not_lt hlt)).congr fun p _ =>
        hrel.todo i (Nat.le_of_not_lt hlt) p
  size := hrel.size.trans h.size
  memUsage := hrel.memUsage.trans h.memUsage

/-! ## Insert -/

/-- What a list of entries counts for grows by what is put between its two parts. -/
theorem usage_of_split {m' : SortedMap K V} {a b : List (K × V)} {k : K} {v : V}
    (h : m.entries = a ++ b) (h' : m'.entries = a ++ (k, v) :: b) :
    usage m' = usage m + HasSize.size k + HasSize.size v := by
  simp only [usage, h, h', List.map_append, List.map_cons, List.sum_append, List.sum_cons]
  omega

/-- **A map that puts a value counts for the value more**, and for the key or less the old value. -/
theorem usage_put (m : SortedMap K V) (k : K) (v : V) : usage (m.put k v) =
    usage m + HasSize.size v +
      (m.lookup k).elim (HasSize.size k : ℤ) fun w => -(HasSize.size w : ℤ) := by
  obtain ⟨a, b, hs, h⟩ := m.exists_split k
  have hput := SortedMap.entries_put_of_split (v := v) hs h
  rcases h with h | ⟨w, h⟩
  · rw [usage_of_split h hput, SortedMap.lookup_of_split hs h, Option.elim_none]
    omega
  · have herased := SortedMap.entries_erase_of_split hs (Or.inr ⟨w, h⟩)
    rw [usage_of_split herased hput, usage_of_split herased h,
      SortedMap.lookup_of_split_cons hs h, Option.elim_some]
    omega

section Insert

variable {key : K} {value : V} {lo hi : List NodePtr} {level : ℕ}
  {prev : List (Option NodePtr)} {s' : SkipList K V}

/-- A node allocated now is fresh. -/
theorem Rep.fresh (h : Rep s ns m) (hheap : s'.heap = s.heap) :
    Fresh s (s'.newNode key level value) ns s.heap.length := by
  have hmem : ∀ p ∈ head :: ns, p < s'.heap.length := by
    intro p hp
    rw [hheap]
    rcases List.mem_cons.mp hp with rfl | hp
    · obtain ⟨nd, hnd, -⟩ := exists_node (show 0 < s.height head by rw [h.headHeight]; decide)
      exact (List.getElem?_eq_some_iff.mp hnd).1
    · exact h.mem_heap hp
  refine ⟨fun hx => ?_, fun p hp => ?_, fun p hp => ?_, fun i p hp => ?_⟩
  · exact Nat.lt_irrefl _ (hheap ▸ hmem _ hx)
  · rw [height_newNode (hmem p hp), SkipList.height, hheap, SkipList.height]
  · rw [entry_newNode (hmem p hp), SkipList.entry, hheap, SkipList.entry]
  · rw [link_newNode (hmem p hp), SkipList.link, hheap, SkipList.link]

/-- The chains of the list run on as before. -/
theorem Fresh.chained {s₁ : SkipList K V} {x : NodePtr} (hf : Fresh s s₁ ns x) (h : Rep s ns m)
    {i : ℕ} (hi' : i < kMaxHeight) : Chain (s₁.link i) head (ns.filter (s₁.tall i)) := by
  rw [hf.filter_tall (List.Subset.refl ns)]
  refine (h.chained i hi').congr fun p hp => hf.link i p ?_
  exact (List.filter_sublist.cons_cons head).subset hp

/-- `FindPrevNode` fills the levels the list has; above them there is only the head. -/
theorem Cut.prevAt (hc : Cut s ns m key lo hi)
    (hfill : Filled s lo (s.getCurrentHeight - 1) (fun _ => True)
      (List.replicate kMaxHeight none) prev) {i : ℕ} (hi' : i < kMaxHeight) :
    PrevAt s lo prev i := by
  have hmax := hc.rep.maxLevel
  rw [getCurrentHeight] at hfill
  by_cases hlt : i ≤ s.maxLevel - 1
  · exact Or.inl (hfill.filled i hlt trivial)
  · have hnone := hc.rep.filter_tall_of_maxLevel_le (i := i) (by omega)
    have hchain := hc.rep.chained i hi'
    rw [hnone] at hchain
    have hlo : lo.filter (s.tall i) = [] := by
      rw [hc.nodes, List.filter_append] at hnone
      exact (List.append_eq_nil_iff.mp hnone).1
    refine Or.inr ⟨?_, by rw [pred, hlo]; rfl, hchain⟩
    rw [hfill.kept i (by omega), List.getElem?_replicate, if_pos hi']

/-- **The linking loop puts the new node into the chain of each of its levels.** -/
theorem Cut.relink_insert (hc : Cut s ns m key lo hi) (s' : SkipList K V) (value : V)
    (hfill : Filled s lo (s.getCurrentHeight - 1) (fun _ => True)
      (List.replicate kMaxHeight none) prev)
    (hheap : s'.heap = s.heap) (hlevel : level ≤ kMaxHeight) :
    ∃ s₂, forLevels (linkLevel prev s.heap.length) level (s'.newNode key level value) = .ok s₂ ∧
      Relinked (s'.newNode key level value) (lo ++ s.heap.length :: hi) level s₂ := by
  have hf : Fresh s (s'.newNode key level value) ns s.heap.length := hc.rep.fresh hheap
  have hlen : s'.heap.length = s.heap.length := congrArg List.length hheap
  have hnodup : (head :: (lo ++ s.heap.length :: hi)).Nodup :=
    nodup_insert.mpr (hc.nodes ▸ ⟨hf.notMem, hc.rep.nodup⟩)
  refine forLevels_spec (Relinked.refl _ _) fun i s₂ hi' hrel => ?_
  have hi12 : i < kMaxHeight := by omega
  have hpred : (s'.newNode key level value).pred lo i = s.pred lo i := by
    rw [pred, pred, hf.filter_tall (hc.nodes ▸ List.subset_append_left lo hi)]
  have hhead := hf.height head List.mem_cons_self
  refine linkLevel_spec hrel ?_ ?_ ?_ hnodup ?_
  · rw [PrevAt, hpred, hf.link i head List.mem_cons_self]
    exact hc.prevAt hfill hi12
  · rwa [← hlen, height_newNode_new]
  · rwa [hhead, hc.rep.headHeight]
  · exact hc.nodes ▸ hf.chained hc.rep hi12

/-- **The new node, linked nowhere yet, holds the entry that is added to the map.** -/
theorem Cut.repAbove_newNode (value : V) (hc : Cut s ns m key lo hi) {a b : List (K × V)}
    (hs : SortedMap.Split key a b) (hm : m.entries = a ++ b) (hlo : lo.map s.entry = a.map some)
    (hhi : hi.map s.entry = b.map some) (hlevel : 1 ≤ level ∧ level ≤ kMaxHeight)
    {s' : SkipList K V} (hheap : s'.heap = s.heap) (hmax : s'.maxLevel = max level s.maxLevel)
    (hsize : s'.size = s.size + 1)
    (husage : s'.memUsage = s.memUsage + HasSize.size key + HasSize.size value) :
    RepAbove level (s'.newNode key level value) (lo ++ s.heap.length :: hi) (m.put key value) := by
  have hf : Fresh s (s'.newNode key level value) ns s.heap.length := hc.rep.fresh hheap
  have hlen : s'.heap.length = s.heap.length := congrArg List.length hheap
  have hns : ∀ p ∈ lo ++ hi, p ∈ head :: ns := fun p hp =>
    List.mem_cons_of_mem _ (hc.nodes ▸ hp)
  have hheight : (s'.newNode key level value).height s.heap.length = level :=
    hlen ▸ height_newNode_new
  have hentry : (s'.newNode key level value).entry s.heap.length = some (key, value) :=
    hlen ▸ entry_newNode_new
  have hentries : (m.put key value).entries = a ++ (key, value) :: b :=
    SortedMap.entries_put_of_split hs (Or.inl hm)
  refine ⟨?_, ?_, ?_, ?_, ?_, ?_, ?_, ?_⟩
  · exact nodup_insert.mpr (hc.nodes ▸ ⟨hf.notMem, hc.rep.nodup⟩)
  · rw [hf.height head List.mem_cons_self, hc.rep.headHeight]
  · intro p hp
    change _ ∧ _ ≤ s'.maxLevel
    rw [hmax]
    rcases List.mem_cons.mp (List.perm_middle.mem_iff.mp hp) with rfl | hp
    · rw [hheight]
      exact ⟨hlevel.1, le_max_left _ _⟩
    · rw [hf.height p (hns p hp)]
      have hp' := hc.rep.heights p (hc.nodes ▸ hp)
      exact ⟨hp'.1, hp'.2.trans (le_max_right _ _)⟩
  · change 1 ≤ s'.maxLevel ∧ s'.maxLevel ≤ kMaxHeight
    rw [hmax]
    exact ⟨hc.rep.maxLevel.1.trans (le_max_right _ _), max_le hlevel.2 hc.rep.maxLevel.2⟩
  · have hold : ∀ ps : List NodePtr, (∀ p ∈ ps, p ∈ lo ++ hi) →
        ps.map (s'.newNode key level value).entry = ps.map s.entry := fun ps hps =>
      List.map_congr_left fun p hp => hf.entry p (hns p (hps p hp))
    rw [hentries, List.map_append, List.map_cons, List.map_append, List.map_cons,
      hold lo fun p hp => List.mem_append_left hi hp,
      hold hi fun p hp => List.mem_append_right lo hp, hlo, hhi, hentry]
  · -- above its own height the new node is in no chain
    intro i hi' hle
    have hx : ¬ (s'.newNode key level value).tall i s.heap.length = true := by
      simp [tall, hheight, hle]
    have hold := hf.chained hc.rep hi'
    rw [hc.nodes, List.filter_append] at hold
    rwa [List.filter_append, List.filter_cons_of_neg hx]
  · change s'.size = _
    rw [hsize, hentries, hc.rep.size, hm]
    simp only [List.length_append, List.length_cons]
    push_cast
    omega
  · change s'.memUsage = _
    rw [husage, usage_of_split hm hentries, hc.rep.memUsage]

/-- **`FindPrevNode` returns**, and has recorded the predecessors on the levels the list has. -/
theorem Cut.findPrevNode_spec (hc : Cut s ns m key lo hi) (prev : List (Option NodePtr))
    (hlen : prev.length = kMaxHeight) :
    ∃ prev', s.findPrevNode key prev = .ok prev' ∧
      Filled s lo (s.getCurrentHeight - 1) (fun _ => True) prev prev' :=
  findPrevLoop_spec hc prev (hc.start hc.rep.topLevel) hc.rep.topLevel hlen hc.fuel_enough

/-- **Inserting an absent key represents the map with its entry added.** -/
theorem insert_absent (value : V) (hc : Cut s ns m key lo hi) {a b : List (K × V)}
    (hs : SortedMap.Split key a b) (hm : m.entries = a ++ b) (hlo : lo.map s.entry = a.map some)
    (hhi : hi.map s.entry = b.map some) (level : Level) :
    ∃ s₂, s.insert key value level = .ok s₂ ∧
      Rep s₂ (lo ++ s.heap.length :: hi) (m.put key value) := by
  have hcontains : s.contains key = .ok false := by
    rw [contains_spec hc.rep, SortedMap.contains, SortedMap.lookup_of_split hs hm]
    rfl
  obtain ⟨prev, hprev, hfill⟩ :=
    hc.findPrevNode_spec (List.replicate kMaxHeight none) List.length_replicate
  let s' : SkipList K V := { s with
    size := s.size + 1
    memUsage := s.memUsage + HasSize.size key + HasSize.size value
    maxLevel := max level.1 s.maxLevel }
  obtain ⟨s₂, hrun, hrel⟩ := hc.relink_insert s' value hfill rfl level.2.2
  refine ⟨s₂, ?_, ?_⟩
  · have hprev' : ({ s with
        size := s.size + 1
        memUsage := s.memUsage + HasSize.size key + HasSize.size value } : SkipList K V).findPrevNode
          key (List.replicate kMaxHeight none) = .ok prev := by
      refine (findPrevNode_congr (s := s) ?_ ?_ _).trans hprev <;> rfl
    simp only [insert, hcontains, ok_bind, Bool.false_eq_true, if_false, hprev']
    exact hrun
  · have habove : RepAbove level.1 (s'.newNode key level.1 value) (lo ++ s.heap.length :: hi)
        (m.put key value) :=
      hc.repAbove_newNode value hs hm hlo hhi level.2 rfl rfl rfl rfl
    exact habove.relinked hrel

/-- **`Insert` is the map's `insertNew`**, whatever `RandomLevel` returns. -/
theorem insert_spec (h : Rep s ns m) (key : K) (value : V) (level : Level) :
    ∃ s₂ ns₂, s.insert key value level = .ok s₂ ∧ Rep s₂ ns₂ (m.insertNew key value) := by
  obtain ⟨lo, hi, a, b, hc, hs, hlo, hcase⟩ := h.exists_cut key
  rcases hcase with ⟨hm, hhi⟩ | ⟨x, rest, v, hm, rfl, hx, hrest⟩
  · obtain ⟨s₂, hrun, hrep⟩ := insert_absent value hc hs hm hlo hhi level
    rw [SortedMap.insertNew_of_lookup_none m value (SortedMap.lookup_of_split hs hm)]
    exact ⟨s₂, _, hrun, hrep⟩
  · have hlookup := SortedMap.lookup_of_split_cons hs hm
    have hcontains : s.contains key = .ok true := by
      rw [contains_spec h, SortedMap.contains, hlookup]
      rfl
    rw [SortedMap.insertNew_of_lookup_some m value hlookup]
    exact ⟨s, ns, by simp [insert, hcontains], h⟩

end Insert

/-! ## Delete -/

section Delete

variable {key : K} {value : V} {lo rest : List NodePtr} {x : NodePtr}
  {prev : List (Option NodePtr)} {s' : SkipList K V}

/-- **The target comes right after its predecessor** on each of its levels. -/
theorem Cut.link_pred (hc : Cut s ns m key lo (x :: rest)) {i : ℕ} (hi' : i < s.height x) :
    s.link i (s.pred lo i) = some x := by
  have hx := (hc.rep.heights x (hc.nodes ▸ by simp)).2.trans hc.rep.maxLevel.2
  have hchain := hc.rep.chained i (Nat.lt_of_lt_of_le hi' hx)
  rw [hc.nodes, List.filter_append,
    List.filter_cons_of_pos (show s.tall i x = true from decide_eq_true hi')] at hchain
  exact hchain.drop.1

/-- **The unlinking loop takes the target out of the chain of each of its levels.** -/
theorem Cut.relink_delete (hc : Cut s ns m key lo (x :: rest)) (s' : SkipList K V) {i : ℕ}
    (hi' : s.height x ≤ i + 1)
    (hfill : Filled s lo i (fun j => s.tall j x = true) (List.replicate kMaxHeight none) prev)
    (hheap : s'.heap = s.heap) :
    ∃ s₂, forLevels (unlinkLevel prev) (s.height x) s' = .ok s₂ ∧
      Relinked s' (lo ++ rest) (s.height x) s₂ := by
  have hheight : s'.height = s.height := funext fun p => by rw [height, height, hheap]
  have htall : s'.tall = s.tall := by funext i p; rw [tall, tall, hheight]
  have hlink : s'.link = s.link := by funext i p; rw [link, link, hheap]
  have hx := hc.rep.heights x (hc.nodes ▸ by simp)
  refine forLevels_spec (Relinked.refl _ _) fun j s₂ hj hrel => ?_
  have hj12 : j < kMaxHeight := Nat.lt_of_lt_of_le hj (hx.2.trans hc.rep.maxLevel.2)
  refine unlinkLevel_spec (x := x) hrel ?_ ?_ ?_ (hc.nodes ▸ hc.rep.nodup) ?_
  · rw [pred, htall]
    exact hfill.filled j (by omega) (decide_eq_true hj)
  · rwa [hheight]
  · rwa [hheight, hc.rep.headHeight]
  · rw [hlink, htall]
    exact hc.nodes ▸ hc.rep.chained j hj12

/-- **Above the height of the target no chain holds it**, so they are those of the map without its
entry. -/
theorem Cut.repAbove_delete (hc : Cut s ns m key lo (x :: rest)) {a b : List (K × V)}
    (hs : SortedMap.Split key a b) (hm : m.entries = a ++ (key, value) :: b)
    (hlo : lo.map s.entry = a.map some) (hrest : rest.map s.entry = b.map some)
    {s' : SkipList K V} (hheap : s'.heap = s.heap) (hmax : s'.maxLevel = s.maxLevel)
    (hsize : s'.size = s.size - 1)
    (husage : s'.memUsage = s.memUsage - HasSize.size key - HasSize.size value) :
    RepAbove (s.height x) s' (lo ++ rest) (m.erase key) := by
  have hheight : s'.height = s.height := funext fun p => by rw [height, height, hheap]
  have hentry : s'.entry = s.entry := funext fun p => by rw [entry, entry, hheap]
  have htall : s'.tall = s.tall := by funext i p; rw [tall, tall, hheight]
  have hlink : s'.link = s.link := by funext i p; rw [link, link, hheap]
  have hsub : (lo ++ rest).Sublist ns := by
    rw [hc.nodes]
    exact List.Sublist.append_left (List.sublist_cons_self x rest) lo
  have hentries : (m.erase key).entries = a ++ b :=
    SortedMap.entries_erase_of_split hs (Or.inr ⟨value, hm⟩)
  refine ⟨?_, ?_, ?_, ?_, ?_, ?_, ?_, ?_⟩
  · exact hc.rep.nodup.sublist (List.Sublist.cons_cons head hsub)
  · rw [hheight, hc.rep.headHeight]
  · intro p hp
    rw [hheight, hmax]
    exact hc.rep.heights p (hsub.subset hp)
  · rw [hmax]
    exact hc.rep.maxLevel
  · rw [hentry, hentries, List.map_append, List.map_append, hlo, hrest]
  · intro i hi' hle
    have hchain := hc.rep.chained i hi'
    rw [hc.nodes, List.filter_append, List.filter_cons_of_neg (by simp [tall, hle]),
      ← List.filter_append] at hchain
    rwa [hlink, htall]
  · rw [hsize, hentries, hc.rep.size, hm]
    simp only [List.length_append, List.length_cons]
    push_cast
    omega
  · rw [husage, hc.rep.memUsage, usage_of_split hentries hm]
    omega

/-- **The search of `Delete` returns** the height of its target, and has recorded the predecessors on
the levels of that. -/
theorem Cut.deletePrev_spec (hc : Cut s ns m key lo (x :: rest)) {a b : List (K × V)}
    (hs : SortedMap.Split key a b) (hx : s.entry x = some (key, value))
    (hrest : rest.map s.entry = b.map some) :
    ∃ prev, s.deletePrevLoop key s.fuel head (s.getCurrentHeight - 1)
        (List.replicate kMaxHeight none) (-1) = .ok (prev, (s.height x : ℤ)) ∧
      Filled s lo (s.getCurrentHeight - 1) (fun j => s.tall j x = true)
        (List.replicate kMaxHeight none) prev := by
  obtain ⟨nd, hd, hkey, -, hxh⟩ := deref_eq hx
  rw [hxh]
  exact deletePrevLoop_spec hc (absent_of_above hs hrest) hd hkey _ _ (hc.start hc.rep.topLevel)
    hc.rep.topLevel List.length_replicate hc.fuel_enough

/-- **Deleting a present key represents the map without its entry.** -/
theorem delete_present (hc : Cut s ns m key lo (x :: rest)) {a b : List (K × V)}
    (hs : SortedMap.Split key a b) (hm : m.entries = a ++ (key, value) :: b)
    (hlo : lo.map s.entry = a.map some) (hx : s.entry x = some (key, value))
    (hrest : rest.map s.entry = b.map some) :
    ∃ s₂, s.delete key = .ok s₂ ∧ Rep s₂ (lo ++ rest) (m.erase key) := by
  have hcontains : s.contains key = .ok true := by
    rw [contains_spec hc.rep, SortedMap.contains, SortedMap.lookup_of_split_cons hs hm]
    rfl
  obtain ⟨nd, hd, -, hvalue, -⟩ := deref_eq hx
  obtain ⟨prev, hprev, hfill⟩ := hc.deletePrev_spec hs hx hrest
  have hxns : x ∈ ns := hc.nodes ▸ by simp
  have hx' := hc.rep.heights x hxns
  let s' : SkipList K V := { s with
    size := s.size - 1
    memUsage := s.memUsage - HasSize.size key - HasSize.size nd.value }
  obtain ⟨s₂, hrun, hrel⟩ := hc.relink_delete s' (i := s.getCurrentHeight - 1)
    (by rw [getCurrentHeight]; omega) hfill rfl
  refine ⟨s₂, ?_, ?_⟩
  · have hprev' : ({ s with size := s.size - 1 } : SkipList K V).deletePrevLoop key s.fuel head
        (s.getCurrentHeight - 1) (List.replicate kMaxHeight none) (-1) =
          .ok (prev, (s.height x : ℤ)) := by
      refine (deletePrevLoop_congr (s := s) ?_).trans hprev
      rfl
    have hpred : prev[0]? = some (some (s.pred lo 0)) :=
      hfill.filled 0 (Nat.zero_le _) (decide_eq_true hx'.1)
    have hlinkAt : s.linkAt (s.pred lo 0) 0 = .ok (some x) := by
      have hhead : 0 < s.height head := by rw [hc.rep.headHeight]; decide
      rw [linkAt_eq (lt_height_pred hhead), hc.link_pred hx'.1]
    rw [delete, hcontains, ok_bind]
    simp only [Bool.not_true, Bool.false_eq_true, if_false, fuel, getCurrentHeight] at hprev' ⊢
    rw [hprev', ok_bind]
    simp only [hpred, Option.join_some, orFault_some, ok_bind, Int.toNat_natCast]
    have hlinkAt' : ({ s with
        size := s.size - 1
        memUsage := s.memUsage - HasSize.size key } : SkipList K V).linkAt (s.pred lo 0) 0 =
          .ok (some x) := hlinkAt
    have hd' : ({ s with
        size := s.size - 1
        memUsage := s.memUsage - HasSize.size key } : SkipList K V).deref x = .ok nd := hd
    simp only [hlinkAt', hd', ok_bind, orFault_some]
    exact hrun
  · have habove : RepAbove (s.height x) s' (lo ++ rest) (m.erase key) :=
      hc.repAbove_delete hs hm hlo hrest rfl rfl rfl (hvalue ▸ rfl)
    exact habove.relinked hrel

/-- **`Delete` is the map's `erase`.** -/
theorem delete_spec (h : Rep s ns m) (key : K) :
    ∃ s₂ ns₂, s.delete key = .ok s₂ ∧ Rep s₂ ns₂ (m.erase key) := by
  obtain ⟨lo, hi, a, b, hc, hs, hlo, hcase⟩ := h.exists_cut key
  rcases hcase with ⟨hm, hhi⟩ | ⟨x, rest, v, hm, rfl, hx, hrest⟩
  · have hcontains : s.contains key = .ok false := by
      rw [contains_spec h, SortedMap.contains, SortedMap.lookup_of_split hs hm]
      rfl
    rw [SortedMap.erase_of_split hs hm]
    exact ⟨s, ns, by simp [delete, hcontains], h⟩
  · obtain ⟨s₂, hrun, hrep⟩ := delete_present hc hs hm hlo hx hrest
    exact ⟨s₂, _, hrun, hrep⟩

end Delete

/-! ## Runs -/

/-- **A new list holds the empty map.** -/
theorem rep_new [Inhabited K] [Inhabited V] :
    Rep (new : SkipList K V) [] (SortedMap.empty : SortedMap K V) := by
  refine ⟨by simp, rfl, by simp, ⟨Nat.le_refl 1, Nat.le_of_ble_eq_true rfl⟩, rfl, fun i hi => ?_, rfl,
    rfl⟩
  have hlink : (new : SkipList K V).link i head = none := by
    simp [link, new, head, hi]
  exact Chain.nil_iff.mpr hlink

/-- The calls on a list; in an `Insert`, `RandomLevel` returns `level`. -/
inductive Call (K V : Type)
  | insert (key : K) (value : V) (level : Level)
  | delete (key : K)
  | get (key : K)
  | contains (key : K)
  deriving Repr

/-- What the calls answer. -/
inductive Reply (V : Type)
  | done
  | value (value : Option V)
  | found (found : Bool)
  deriving DecidableEq, Repr

/-- One call on a list. -/
def perform (s : SkipList K V) : Call K V → Exec (SkipList K V × Reply V)
  | .insert key value level => do return (← s.insert key value level, .done)
  | .delete key => do return (← s.delete key, .done)
  | .get key => do return (s, .value (← s.get key))
  | .contains key => do return (s, .found (← s.contains key))

/-- The same call on the map. -/
def performMap (m : SortedMap K V) : Call K V → SortedMap K V × Reply V
  | .insert key value _ => (m.insertNew key value, .done)
  | .delete key => (m.erase key, .done)
  | .get key => (m, .value (m.lookup key))
  | .contains key => (m, .found (m.contains key))

/-- **Every call returns the map's answer and leaves a list of the map's next state.** -/
theorem perform_spec (h : Rep s ns m) (c : Call K V) :
    ∃ s₁, s.perform c = .ok (s₁, (performMap m c).2) ∧ ∃ ns₁, Rep s₁ ns₁ (performMap m c).1 := by
  cases c with
  | insert key value level =>
    obtain ⟨s₁, ns₁, hrun, hrep⟩ := insert_spec h key value level
    exact ⟨s₁, by simp [perform, performMap, hrun], ns₁, hrep⟩
  | delete key =>
    obtain ⟨s₁, ns₁, hrun, hrep⟩ := delete_spec h key
    exact ⟨s₁, by simp [perform, performMap, hrun], ns₁, hrep⟩
  | get key => exact ⟨s, by simp [perform, performMap, get_spec h key], ns, h⟩
  | contains key => exact ⟨s, by simp [perform, performMap, contains_spec h key], ns, h⟩

/-- A list of strings shows the map `m` to its callers. -/
structure Shows (s : SkipList Bytes Bytes) (m : SortedMap Bytes Bytes) : Prop where
  contains : ∀ key, s.contains key = .ok (m.contains key)
  get : ∀ key, s.get key = .ok (m.lookup key)
  traverse : s.traverse = .ok m.entries
  ascending : (m.entries.map Prod.fst).Pairwise (· < ·)
  size : s.size = m.entries.length
  memUsage : s.getMemUsage = (m.entries.map fun e => (e.1.length + e.2.length : ℤ)).sum

theorem Rep.shows {s : SkipList Bytes Bytes} {ns : List NodePtr} {m : SortedMap Bytes Bytes}
    (h : Rep s ns m) : Shows s m where
  contains := contains_spec h
  get := get_spec h
  traverse := traverse_spec h
  ascending := List.pairwise_map.mpr m.sorted
  size := h.size
  memUsage := h.memUsage

/-- **The skip list refines the sorted map**: any calls on a new list of strings, with any outcome
of `RandomLevel`, return what the map answers and leave a list that shows the map. -/
theorem refines_sortedMap (calls : List (Call Bytes Bytes)) :
    ∃ s, runFrom perform new calls = .ok (s, (replay performMap SortedMap.empty calls).2) ∧
      Shows s (replay performMap SortedMap.empty calls).1 := by
  obtain ⟨s, hrun, ns, hrep⟩ := run_simulates perform performMap
    (fun s m => ∃ ns, Rep s ns m) (fun _ _ c ⟨_, h⟩ => perform_spec h c) calls new
    SortedMap.empty ⟨[], rep_new⟩
  exact ⟨s, hrun, hrep.shows⟩

end SmallKV.SkipList
