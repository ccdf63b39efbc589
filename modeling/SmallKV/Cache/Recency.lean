import SmallKV.Cache.Lru
import SmallKV.Foundations.Recency
import Mathlib.Data.List.Nodup

/-!
# Cache/Recency — what the LRU cache keeps, over whole runs

The keys of the nodes, from the front of the list on, are a list in the order of last use
(`Lists`): `insert` uses a key, and so does a `get` that finds it.  Each operation does to this list
what it does in `Foundations/Recency`, and from this follows what is cached after any run
(`recent_of_run`).
-/

namespace SmallKV.LRU

variable {K V : Type}

/-! ## The keys of the nodes -/

/-- **The cached keys are `ks`**, from the most to the least recently used. -/
def Lists (l : LRU K V) (ks : List K) : Prop :=
  (l.nodes.map fun n => (l.heap n).map LruNode.key) = ks.map some

variable {l l' : LRU K V} {ks : List K} {n : NodeId} {nd : LruNode K V} {k : K}

theorem lists_new (cap : ℕ) : Lists (new cap : LRU K V) [] := rfl

theorem Lists.length (h : Lists l ks) : l.nodes.length = ks.length := by
  simpa using congrArg List.length h

/-- The index finds exactly the keys of the list. -/
theorem Lists.mem_iff (h : Lists l ks) (hwf : WF l) : k ∈ ks ↔ ∃ n, l.index k = some n := by
  have hmem : k ∈ ks ↔ some k ∈ l.nodes.map fun n => (l.heap n).map LruNode.key := by
    rw [h]
    simp
  rw [hmem, List.mem_map]
  constructor
  · rintro ⟨n, hn, hkey⟩
    obtain ⟨nd, hnd, rfl⟩ := Option.map_eq_some_iff.mp hkey
    exact ⟨n, hwf.index_key hn hnd⟩
  · rintro ⟨n, hidx⟩
    obtain ⟨nd, hnd, rfl, hn⟩ := hwf.exists_node hidx
    exact ⟨n, hn, by rw [hnd, Option.map_some]⟩

/-- The last node has the last key. -/
theorem Lists.getLast? (h : Lists l ks) (hlast : l.nodes.getLast? = some n)
    (hnd : l.heap n = some nd) : ks.getLast? = some nd.key := by
  have hmap := congrArg List.getLast? h
  rw [List.getLast?_map, List.getLast?_map, hlast, Option.map_some, hnd, Option.map_some] at hmap
  obtain ⟨k, hk, hkey⟩ := Option.map_eq_some_iff.mp hmap.symm
  exact hk.trans hkey

variable [DecidableEq K]

/-- **Taking a node out of the list takes out its key.** -/
theorem Lists.erase (h : Lists l ks) (hwf : WF l) (hn : n ∈ l.nodes) (hnd : l.heap n = some nd) :
    ((l.nodes.erase n).map fun m => (l.heap m).map LruNode.key) = (ks.erase nd.key).map some := by
  obtain ⟨a, b, hsplit⟩ := List.append_of_mem hn
  have hnotin : n ∉ a := by
    have hnodup := hwf.nodup
    rw [hsplit] at hnodup
    exact fun hmem => (List.nodup_append.mp hnodup).2.2 n hmem n List.mem_cons_self rfl
  have hkeys := h
  rw [Lists, hsplit, List.map_append, List.map_cons, hnd, Option.map_some] at hkeys
  obtain ⟨ka, kb', rfl, ha, hb'⟩ := List.map_eq_append_iff.mp hkeys.symm
  obtain ⟨k', kb, rfl, hk', hb⟩ := List.map_eq_cons_iff.mp hb'
  obtain rfl : k' = nd.key := Option.some.inj hk'
  have hkey : nd.key ∉ ka := by
    intro hmem
    have hmem' : some nd.key ∈ a.map fun m => (l.heap m).map LruNode.key :=
      ha ▸ List.mem_map_of_mem hmem
    obtain ⟨m, hm, heq⟩ := List.mem_map.mp hmem'
    obtain ⟨md, hmd, hsame⟩ := Option.map_eq_some_iff.mp heq
    have hm' : m ∈ l.nodes := hsplit ▸ List.mem_append_left _ hm
    exact hwf.key_ne hn hnd hm' hmd (fun hmn => hnotin (hmn ▸ hm)) hsame
  rw [hsplit, List.erase_append_right _ hnotin, List.erase_cons_head,
    List.erase_append_right _ hkey, List.erase_cons_head, List.map_append, List.map_append, ha, hb]

/-! ## The operations on the keys -/

section Operations

open Recency

variable {key : K} {uses : List K}

/-- What an operation makes of the cache: it keeps the shape, and the cached keys are `ks`. -/
structure Leads (cap : ℕ) (l : LRU K V) (ks : List K) : Prop where
  wf : WF l
  capacity : l.cap = cap
  lists : Lists l ks

variable {cap : ℕ}

/-- The keys after a new node is put in front. -/
theorem Leads.pushFront (h : Leads cap l ks) (hidx : l.index key = none) (val : V) :
    Leads cap (l.pushFront key val) (key :: ks) where
  wf := wf_pushFront h.wf hidx val
  capacity := h.capacity
  lists := by
    have hrest : (l.nodes.map fun m => ((l.pushFront key val).heap m).map LruNode.key) =
        l.nodes.map fun m => (l.heap m).map LruNode.key :=
      List.map_congr_left fun m hm => by rw [heap_pushFront_of_ne (h.wf.ne_fresh hm)]
    have hfront : ((l.pushFront key val).heap l.fresh).map LruNode.key = some key := by
      rw [heap_pushFront_fresh, Option.map_some]
    change ((l.fresh :: l.nodes).map fun m => ((l.pushFront key val).heap m).map LruNode.key) = _
    rw [List.map_cons, hfront, hrest, h.lists, List.map_cons]

/-- **The keys after a node has left.** -/
theorem Leads.left (h : Leads cap l ks) (hn : n ∈ l.nodes) (hnd : l.heap n = some nd)
    (hleft : Left l n nd l') : Leads cap l' (ks.erase nd.key) where
  wf := hleft.wf h.wf hn hnd
  capacity := hleft.cap.trans h.capacity
  lists := by
    rw [Lists, hleft.nodes, ← h.lists.erase h.wf hn hnd]
    refine List.map_congr_left fun m hm => ?_
    rw [hleft.heap m ((h.wf.nodup.mem_erase_iff).mp hm).1]

/-- The keys after a node has moved to the front. -/
theorem Leads.front (h : Leads cap l ks) (hidx : l.index key = some n) (hwf : WF l')
    (hcap : l'.cap = l.cap) (hnodes : l'.nodes = n :: l.nodes.erase n)
    (hheap : ∀ m ∈ l.nodes, (l'.heap m).map LruNode.key = (l.heap m).map LruNode.key) :
    Leads cap l' (key :: ks.erase key) where
  wf := hwf
  capacity := hcap.trans h.capacity
  lists := by
    obtain ⟨nd, hnd, rfl, hn⟩ := h.wf.exists_node hidx
    have hrest : ((l.nodes.erase n).map fun m => (l'.heap m).map LruNode.key) =
        (l.nodes.erase n).map fun m => (l.heap m).map LruNode.key :=
      List.map_congr_left fun m hm => hheap m (List.mem_of_mem_erase hm)
    rw [Lists, hnodes, List.map_cons, hheap n hn, hnd, Option.map_some, hrest,
      h.lists.erase h.wf hn hnd, List.map_cons]

/-- **`insert` uses its key.** -/
theorem insert_leads (h : Leads cap l ks) (ho : Ordered cap ks uses) (key : K) (val : V) :
    ∃ l', l.insert key val = .ok l' ∧ Leads cap l' (use cap ks key) := by
  cases hidx : l.index key with
  | some n =>
    obtain ⟨nd, -, -, hn⟩ := h.wf.exists_node hidx
    have hmem : key ∈ ks := (h.lists.mem_iff h.wf).mpr ⟨n, hidx⟩
    have hs := shuffled_touch h.wf hn key val
    refine ⟨_, insert_present hidx, ?_⟩
    rw [ho.use_of_mem hmem]
    refine h.front hidx (hs.wf h.wf) rfl rfl fun m hm => ?_
    simp only [touch, Function.update_of_ne (h.wf.ne_fresh hm)]
  | none =>
    have hnotin : key ∉ ks := by
      rw [h.lists.mem_iff h.wf, hidx]
      simp
    have hpush := h.pushFront hidx val
    rw [use, List.erase_of_not_mem hnotin]
    rcases Nat.lt_or_ge l.nodes.length l.cap with hcap | hcap
    · refine ⟨_, insert_roomy hidx hcap val, ?_⟩
      rwa [List.take_of_length_le]
      rw [h.capacity, h.lists.length] at hcap
      exact hcap
    · obtain ⟨l', n, nd, hrun, hlast, hnd, hleft⟩ := insert_full h.wf hidx hcap val
      refine ⟨l', hrun, ?_⟩
      have hgone := hpush.left (List.mem_of_getLast? hlast) hnd hleft
      -- the key that is evicted is the last one
      have hkey := hpush.lists.getLast? hlast hnd
      obtain ⟨front, hfront⟩ := List.getLast?_eq_some_iff.mp hkey
      have hlen : front.length = cap := by
        have heq := congrArg List.length hfront
        rw [List.length_cons, List.length_append, List.length_singleton] at heq
        rw [h.capacity, h.lists.length] at hcap
        have hbound := ho.bounded
        omega
      have hnodup : (key :: ks).Nodup := List.nodup_cons.mpr ⟨hnotin, ho.nodup⟩
      rw [hfront] at hgone hnodup ⊢
      have hlastOnly : nd.key ∉ front := fun hmem =>
        (List.nodup_append.mp hnodup).2.2 nd.key hmem nd.key List.mem_cons_self rfl
      rw [List.erase_append_right _ hlastOnly, List.erase_cons_head, List.append_nil] at hgone
      rwa [List.take_left' hlen]

/-- **`get` uses its key if it finds it.** -/
theorem get_leads (h : Leads cap l ks) (ho : Ordered cap ks uses) (key : K) :
    ∃ l' r, l.get key = .ok (l', r) ∧
      (key ∈ ks ∧ (∃ n, r = some n) ∧ Leads cap l' (use cap ks key) ∨
        key ∉ ks ∧ r = none ∧ l' = l) := by
  cases hidx : l.index key with
  | some n =>
    obtain ⟨nd, hnd, -, hn⟩ := h.wf.exists_node hidx
    have hmem : key ∈ ks := (h.lists.mem_iff h.wf).mpr ⟨n, hidx⟩
    refine ⟨_, _, get_present hidx hnd, Or.inl ⟨hmem, ⟨n, rfl⟩, ?_⟩⟩
    rw [ho.use_of_mem hmem]
    obtain ⟨l₁, r, hrun, hs, -⟩ := get_spec h.wf key
    rw [get_present hidx hnd] at hrun
    obtain ⟨rfl, -⟩ := Prod.mk.inj (Except.ok.inj hrun)
    refine h.front hidx (hs.wf h.wf) rfl rfl fun m hm => ?_
    have hentry := congrArg (Option.map Prod.fst) (hs.heap m hm)
    simpa [Function.comp_def, LruNode.entry] using hentry
  | none =>
    have hnotin : key ∉ ks := by
      rw [h.lists.mem_iff h.wf, hidx]
      simp
    exact ⟨l, none, by simp [get, hidx], Or.inr ⟨hnotin, rfl, rfl⟩⟩

/-- **`erase` takes its key out.** -/
theorem erase_leads (h : Leads cap l ks) (key : K) :
    ∃ l', l.erase key = .ok l' ∧ Leads cap l' (ks.erase key) := by
  cases hidx : l.index key with
  | some n =>
    obtain ⟨nd, hnd, rfl, hn⟩ := h.wf.exists_node hidx
    obtain ⟨l', hrun, hleft⟩ := phantomEraseNode_spec h.wf hn hnd
    exact ⟨l', by simp [LRU.erase, hidx, hrun], h.left hn hnd hleft⟩
  | none =>
    have hnotin : key ∉ ks := by
      rw [h.lists.mem_iff h.wf, hidx]
      simp
    refine ⟨l, by simp [LRU.erase, hidx], ?_⟩
    rwa [List.erase_of_not_mem hnotin]

end Operations

/-! ## Runs -/

/-- The calls on the cache. -/
inductive Access (K V : Type)
  | insert (key : K) (val : V)
  | erase (key : K)
  | get (key : K)
  | contains (key : K)

/-- What a call returns. -/
inductive Answer
  | done
  | node (n : Option NodeId)
  | found (b : Bool)

/-- One call. -/
def access (l : LRU K V) : Access K V → Exec (LRU K V × Answer)
  | .insert key val => do return (← l.insert key val, .done)
  | .erase key => do return (← l.erase key, .done)
  | .get key => do
      let (l, node) ← l.get key
      return (l, .node node)
  | .contains key => return (l, .found (l.contains key))

/-- The key that a call used: an `insert`, or a `get` that was successful. -/
def useOf : Access K V × Answer → Option K
  | (.insert key _, _) => some key
  | (.get key, .node (some _)) => some key
  | _ => none

/-- The keys used, the latest first. -/
def uses (h : List (Access K V × Answer)) : List K := (h.filterMap useOf).reverse

/-- The key was inserted, and not erased since. -/
def Inserted (h : List (Access K V × Answer)) (key : K) : Prop :=
  ∃ before val answer after, h = before ++ (.insert key val, answer) :: after ∧
    ∀ e ∈ after, e.1 ≠ .erase key

variable {h : List (Access K V × Answer)} {e : Access K V × Answer} {key : K} {cap : ℕ}

omit [DecidableEq K] in
theorem uses_append : uses (h ++ [e]) = (useOf e).toList ++ uses h := by
  rw [uses, uses, List.filterMap_append, List.reverse_append]
  cases he : useOf e <;> simp [he]

omit [DecidableEq K] in
theorem inserted_append (hk : Inserted (h ++ [e]) key) :
    (∃ val, e.1 = .insert key val) ∨ Inserted h key ∧ e.1 ≠ .erase key := by
  obtain ⟨before, val, answer, after, heq, hafter⟩ := hk
  rcases List.eq_nil_or_concat after with rfl | ⟨after', e', rfl⟩
  · obtain ⟨-, he⟩ := List.append_inj' heq rfl
    exact Or.inl ⟨val, by rw [List.cons.inj he |>.1]⟩
  · rw [List.concat_eq_append] at heq hafter
    have heq' : h ++ [e] = (before ++ (.insert key val, answer) :: after') ++ [e'] := by
      simpa using heq
    obtain ⟨rfl, he⟩ := List.append_inj' heq' rfl
    obtain rfl : e = e' := (List.cons.inj he).1
    exact Or.inr ⟨⟨before, val, answer, after', rfl, fun x hx => hafter x (by simp [hx])⟩,
      hafter e (by simp)⟩

section Runs

open Recency

variable {l l' : LRU K V} {ks : List K}

/-- The cached keys are `ks`, in the order of last use; and a key that was inserted is among them,
unless it was erased or as many other keys as the capacity have been used since its last use. -/
structure Tracks (cap : ℕ) (h : List (Access K V × Answer)) (l : LRU K V) (ks : List K) :
    Prop where
  leads : Leads cap l ks
  ordered : Ordered cap ks (uses h)
  kept : ∀ key, Inserted h key → key ∈ ks ∨ cap ≤ (usedSince (uses h) key).length

/-- **A use is tracked.** -/
theorem Tracks.use (t : Tracks cap h l ks) (huse : useOf e = some key)
    (hinserted : ∀ k, Inserted (h ++ [e]) k → k = key ∨ Inserted h k)
    (hleads : Leads cap l' (use cap ks key)) : Tracks cap (h ++ [e]) l' (use cap ks key) := by
  have huses : uses (h ++ [e]) = key :: uses h := by
    rw [uses_append, huse]
    rfl
  refine ⟨hleads, huses ▸ t.ordered.use key, fun k hk => ?_⟩
  rw [huses]
  by_cases hkey : k = key
  · subst hkey
    rcases Ordered.mem_use ks k with hmem | hzero
    · exact Or.inl hmem
    · exact Or.inr (hzero ▸ Nat.zero_le _)
  · rcases t.kept k ((hinserted k hk).resolve_left hkey) with hmem | hcap
    · exact t.ordered.kept hmem hkey
    · exact Or.inr (Nat.le_trans hcap (length_usedSince_cons hkey (uses h)))

/-- A call that uses no key is tracked if it keeps the keys that are still inserted. -/
theorem Tracks.unused {ks' : List K} (t : Tracks cap h l ks) (huse : useOf e = none)
    (hinserted : ∀ k, Inserted (h ++ [e]) k → Inserted h k ∧ (k ∈ ks → k ∈ ks'))
    (hordered : Ordered cap ks' (uses h)) (hleads : Leads cap l' ks') :
    Tracks cap (h ++ [e]) l' ks' := by
  have huses : uses (h ++ [e]) = uses h := by
    rw [uses_append, huse]
    rfl
  refine ⟨hleads, huses ▸ hordered, fun k hk => ?_⟩
  obtain ⟨hk', hmem⟩ := hinserted k hk
  rw [huses]
  exact (t.kept k hk').imp_left hmem

/-- **The step lemma of recency.** -/
theorem Tracks.step (t : Tracks cap h l ks) (c : Access K V) :
    ∃ l' r, access l c = .ok (l', r) ∧ ∃ ks', Tracks cap (h ++ [(c, r)]) l' ks' := by
  cases c with
  | insert key val =>
    obtain ⟨l', hrun, hleads⟩ := insert_leads t.leads t.ordered key val
    refine ⟨l', .done, by simp [access, hrun], _, t.use rfl (fun k hk => ?_) hleads⟩
    rcases inserted_append hk with ⟨val', heq⟩ | ⟨hk, -⟩
    · exact Or.inl (Access.insert.inj heq).1.symm
    · exact Or.inr hk
  | erase key =>
    obtain ⟨l', hrun, hleads⟩ := erase_leads t.leads key
    refine ⟨l', .done, by simp [access, hrun], _,
      t.unused rfl (fun k hk => ?_) (t.ordered.erase key) hleads⟩
    rcases inserted_append hk with ⟨val', heq⟩ | ⟨hk, hne⟩
    · cases heq
    · have hkey : k ≠ key := fun heq => hne (by rw [heq])
      exact ⟨hk, fun hmem => (List.mem_erase_of_ne hkey).mpr hmem⟩
  | get key =>
    obtain ⟨l', r, hrun, hget⟩ := get_leads t.leads t.ordered key
    refine ⟨l', .node r, by simp [access, hrun], ?_⟩
    have hinserted : ∀ k, Inserted (h ++ [(.get key, .node r)]) k → Inserted h k := by
      intro k hk
      rcases inserted_append hk with ⟨val', heq⟩ | ⟨hk, -⟩
      · cases heq
      · exact hk
    rcases hget with ⟨-, ⟨n, rfl⟩, hleads⟩ | ⟨-, rfl, rfl⟩
    · exact ⟨_, t.use rfl (fun k hk => Or.inr (hinserted k hk)) hleads⟩
    · exact ⟨_, t.unused rfl (fun k hk => ⟨hinserted k hk, id⟩) t.ordered t.leads⟩
  | contains key =>
    refine ⟨l, .found (l.contains key), rfl, _, t.unused rfl (fun k hk => ?_) t.ordered t.leads⟩
    rcases inserted_append hk with ⟨val', heq⟩ | ⟨hk, -⟩
    · cases heq
    · exact ⟨hk, id⟩

/-- **What the cache holds after the calls `h`**: the index is that of the nodes, of which there are
no more than the capacity; their keys are in the order of last use; and a key that was inserted is
there unless it was erased, or as many other keys as the capacity have been used since its last
use. -/
structure Recent (cap : ℕ) (h : List (Access K V × Answer)) (l : LRU K V) : Prop where
  indexed : ∀ key n, l.index key = some n ↔
    n ∈ l.nodes ∧ ∃ nd, l.heap n = some nd ∧ nd.key = key
  unique : l.nodes.Nodup
  bounded : l.nodes.length ≤ cap
  ordered : ∃ ks, Lists l ks ∧ ks.Nodup ∧ ks ⊆ uses h ∧ ks.Pairwise (MoreRecent (uses h))
  kept : ∀ key, Inserted h key →
    l.contains key = true ∨ cap ≤ (usedSince (uses h) key).length

theorem Tracks.recent (t : Tracks cap h l ks) : Recent cap h l where
  indexed := t.leads.wf.indexed
  unique := t.leads.wf.nodup
  bounded := t.leads.lists.length ▸ t.ordered.bounded
  ordered := ⟨ks, t.leads.lists, t.ordered.nodup, t.ordered.used, t.ordered.recent⟩
  kept key hk := (t.kept key hk).imp_left fun hmem => by
    obtain ⟨n, hidx⟩ := (t.leads.lists.mem_iff t.leads.wf).mp hmem
    rw [contains, hidx]
    rfl

/-- **Structure and recency of the LRU cache**: every run of calls returns, and the cache then holds
what it should. -/
theorem recent_of_run (cap : ℕ) (calls : List (Access K V)) :
    ∃ l answers, runFrom access (new cap) calls = .ok (l, answers) ∧
      Recent cap (calls.zip answers) l := by
  have hnew : Tracks cap [] (new cap : LRU K V) [] := by
    refine ⟨⟨wf_new cap, rfl, lists_new cap⟩, .nil, ?_⟩
    rintro key ⟨before, val, answer, after, heq, -⟩
    simp at heq
  obtain ⟨l, answers, hrun, ks, t⟩ := run_total_history access
    (I := fun h l => ∃ ks, Tracks cap h l ks) (fun h l c ⟨ks, t⟩ => t.step c) calls [] (new cap)
    ⟨[], hnew⟩
  exact ⟨l, answers, hrun, t.recent⟩

end Runs

end SmallKV.LRU
