import SmallKV.Db.Refinement
import SmallKV.Server.Session

/-!
# Server/Refinement — the server as a map from keys to values

The abstract server serves requests from one map (`serve`).  The concrete one sends the same replies
as long as every request is `Proper`: a `SET` replaces no other value, a `DEL` deletes no value, a
`GET` asks for a key that was written, and the memtable has room for what is written
(`onMessage_refines`).  Requests that the server does not understand are always proper.
-/

namespace SmallKV.LSMServer

open DbImpl (Represents NulFree Call)

/-! ## The abstract server -/

/-- One request on the map. -/
def serve (m : SortedMap Bytes Bytes) : Request → SortedMap Bytes Bytes × Bytes
  | .set key value => (m.put key value, ascii "+OK\r\n")
  | .get key => (m, (m.lookup key).elim absentReply valueReply)
  | .del keys => (keys.foldl (fun m key => m.put key []) m, ascii ":0\r\n")
  | .other reply => (m, reply)

/-- A nonempty string without NULs. -/
def Text (s : Bytes) : Prop := s ≠ [] ∧ NulFree s

instance : DecidablePred Text := fun _ => instDecidableAnd

/-- **A request that the server answers like the map**, whose memtable has the limit `limit`. -/
def Proper (limit : ℕ) (m : SortedMap Bytes Bytes) : Request → Prop
  | .set key value => (Text key ∧ Text value) ∧ (∀ w ∈ m.lookup key, w = [] ∨ w = value) ∧
      SkipList.usage (m.put key value) ≤ limit
  | .get key => Text key ∧ m.lookup key ≠ none
  | .del keys => (∀ key ∈ keys, NulFree key ∧ ∀ w ∈ m.lookup key, w = []) ∧
      SkipList.usage m + (keys.map List.length).sum ≤ limit
  | .other _ => True

instance (limit : ℕ) (m : SortedMap Bytes Bytes) : DecidablePred (Proper limit m)
  | .set _ _ => inferInstanceAs (Decidable (_ ∧ _ ∧ _))
  | .get _ => inferInstanceAs (Decidable (_ ∧ _))
  | .del _ => inferInstanceAs (Decidable (_ ∧ _))
  | .other _ => .isTrue trivial

/-! ## The calls of one request -/

variable {limit : ℕ} {m : SortedMap Bytes Bytes} {key value : Bytes}

/-- An entry counts for its key and its value. -/
theorem size_le_usage (h : m.lookup key = some value) :
    (key.length + value.length : ℤ) ≤ SkipList.usage m := by
  refine List.single_le_sum ?_ _ (List.mem_map.mpr ⟨_, (m.mem_entries_iff _).mpr h, rfl⟩)
  intro n hn
  obtain ⟨e, -, rfl⟩ := List.mem_map.mp hn
  positivity

/-- What fits into a memtable of less than 16 MiB can be logged. -/
theorem loggable_of_usage (hlimit : limit < 0x01010101)
    (h : SkipList.usage (m.put key value) ≤ limit) (stack : Bytes) :
    DbImpl.Loggable key value stack := by
  have hsize := size_le_usage (SortedMap.lookup_put_self m key value)
  refine DbImpl.loggable_of_short ?_ ?_ stack
  · omega
  · rw [uint32Max]
    omega

/-- **A write over nothing or over the same value is proper.** -/
theorem proper_put (hlimit : limit < 0x01010101) (hkey : NulFree key) (hvalue : NulFree value)
    (hold : ∀ w ∈ m.lookup key, w = [] ∨ w = value)
    (hroom : SkipList.usage (m.put key value) ≤ limit) (chance : Chance) :
    DbImpl.Proper limit m (.put (.ofBytes key) (.ofBytes value) chance) ∧
      DbImpl.spec m (.put (.ofBytes key) (.ofBytes value) chance) =
        (m.put key value, if key = [] ∨ value = [] then .invalidArgs else .success, none) := by
  refine ⟨⟨⟨StringView.isCStr_ofBytes hkey, StringView.isCStr_ofBytes hvalue⟩,
    loggable_of_usage hlimit hroom _, hold, hroom⟩, ?_⟩
  rw [DbImpl.spec, DbImpl.cstr_ofBytes hkey, DbImpl.cstr_ofBytes hvalue]
  simp [StringView.ofBytes, StringView.empty]

/-- **The loop of `DEL` is proper**: every `Put` of the empty value is refused, and written. -/
theorem replay_del (hlimit : limit < 0x01010101) : ∀ {keys : List Bytes}
    {m : SortedMap Bytes Bytes} (chances : ℕ → Chance), Proper limit m (.del keys) →
    Along (fun m c => .ok (DbImpl.spec m c)) (DbImpl.Proper limit) m
        ((Request.del keys).calls chances) ∧
      (replay DbImpl.spec m ((Request.del keys).calls chances)).1 = (serve m (.del keys)).1 ∧
      ∀ r ∈ (replay DbImpl.spec m ((Request.del keys).calls chances)).2, r.1 = .invalidArgs
  | [], m, _, _ => ⟨trivial, rfl, fun _ hr => by cases hr⟩
  | key :: keys, m, chances, ⟨hkeys, hroom⟩ => by
      obtain ⟨hkey, hold⟩ := hkeys key List.mem_cons_self
      have hput : SkipList.usage (m.put key []) ≤ SkipList.usage m + key.length := by
        rw [SkipList.usage_put]
        cases m.lookup key <;> simp [HasSize.size]
      rw [List.map_cons, List.sum_cons] at hroom
      have hrest : Proper limit (m.put key []) (.del keys) := by
        refine ⟨fun k hk => ⟨(hkeys k (List.mem_cons_of_mem _ hk)).1, fun w hw => ?_⟩, by omega⟩
        by_cases hkk : k = key
        · subst hkk
          rw [SortedMap.lookup_put_self] at hw
          exact (Option.some.inj hw).symm
        · rw [SortedMap.lookup_put_ne _ _ hkk] at hw
          exact (hkeys k (List.mem_cons_of_mem _ hk)).2 w hw
      obtain ⟨hproper, hspec⟩ := proper_put hlimit hkey (List.forall_mem_nil _)
        (fun w hw => Or.inl (hold w hw)) (show _ ≤ (limit : ℤ) by omega) (chances 0)
      obtain ⟨halong, hreplay, hrefused⟩ := replay_del hlimit (fun n => chances (n + 1)) hrest
      have hcalls : (Request.del (key :: keys)).calls chances =
          .put (.ofBytes key) (.ofBytes []) (chances 0) ::
            (Request.del keys).calls fun n => chances (n + 1) := List.mapIdx_cons
      rw [hcalls]
      refine ⟨(along_cons_of_step _ (congrArg Except.ok hspec)).mpr ⟨hproper, halong⟩, ?_, ?_⟩
      · rw [replay, hspec]
        exact hreplay
      · rw [replay, hspec]
        rintro r (_ | ⟨_, hr⟩)
        · simp
        · exact hrefused r hr

/-- **The calls of a proper request are proper**, and their answers make the reply of the map. -/
theorem replay_calls (hlimit : limit < 0x01010101) {r : Request} (chances : ℕ → Chance)
    (h : Proper limit m r) :
    Along (fun m c => .ok (DbImpl.spec m c)) (DbImpl.Proper limit) m (r.calls chances) ∧
      (replay DbImpl.spec m (r.calls chances)).1 = (serve m r).1 ∧
      r.reply (replay DbImpl.spec m (r.calls chances)).2 = (serve m r).2 := by
  cases r with
  | set key value =>
    obtain ⟨⟨hkey, hvalue⟩, hold, hroom⟩ := h
    obtain ⟨hproper, hspec⟩ := proper_put hlimit hkey.2 hvalue.2 hold hroom (chances 0)
    refine ⟨⟨hproper, fun _ _ _ => trivial⟩, ?_, ?_⟩
    · simp only [Request.calls, replay, hspec, serve]
    · simp [Request.calls, replay, hspec, Request.reply, serve, hkey.1, hvalue.1]
  | get key =>
    obtain ⟨hkey, hpresent⟩ := h
    obtain ⟨v, hv⟩ := Option.ne_none_iff_exists'.mp hpresent
    have hspec : DbImpl.spec m (.get (.ofBytes key) (some [])) = (m, .success, some v) := by
      simp only [DbImpl.spec, DbImpl.cstr_ofBytes hkey.2, DbImpl.empty_ofBytes hkey.1, hv]
      rfl
    refine ⟨⟨fun _ _ => ?_, fun _ _ _ => trivial⟩, ?_, ?_⟩
    · rwa [DbImpl.cstr_ofBytes hkey.2]
    · simp only [Request.calls, replay, hspec, serve]
    · simp [Request.calls, replay, hspec, Request.reply, serve, hv]
  | del keys =>
    obtain ⟨halong, hmap, hrefused⟩ := replay_del hlimit chances h
    refine ⟨halong, hmap, ?_⟩
    have hcount : (replay DbImpl.spec m ((Request.del keys).calls chances)).2.countP
        (fun r => r.1 = .success) = 0 := by
      refine List.countP_eq_zero.mpr fun r hr => ?_
      simp [hrefused r hr]
    rw [Request.reply, hcount]
    rfl
  | other reply => exact ⟨trivial, rfl, rfl⟩

/-! ## Runs -/

variable {env : Env} {s : LSMServer}

/-- **The step lemma of the refinement**: a proper request is answered like the map does. -/
theorem onMessage_of_proper (hlimit : limit < 0x01010101) (h : Represents env limit s.db m)
    {request : Bytes} (hproper : Proper limit m (.ofBytes request)) :
    ∃ s', s.onMessage env request = .ok (s', (serve m (.ofBytes request)).2) ∧
      Represents env limit s'.db (serve m (.ofBytes request)).1 := by
  obtain ⟨halong, hmap, hreply⟩ := replay_calls hlimit s.chances hproper
  obtain ⟨db, hrun, hrepresents⟩ := h.run halong
  rw [hmap] at hrepresents
  refine ⟨s.after db (Request.ofBytes request).writes, ?_, hrepresents⟩
  rw [onMessage, handleRequest_eq, ← hreply]
  dsimp only
  rw [hrun, ok_bind]
  rfl

/-- **The server refines the map.**  Over whatever log and table files, and whatever the writes find
by chance, every run of proper requests is answered with the replies that the map gives. -/
theorem onMessage_refines (env : Env) (wal : Bytes) (disk : Disk) (chances : ℕ → Chance)
    (requests : List Bytes)
    (hproper : Along (fun m r => .ok (serve m (Request.ofBytes r)))
      (fun m r => Proper ({} : Options).memTableMaxSize m (.ofBytes r)) .empty requests) :
    ∃ s, runFrom (onMessage env) (new wal disk chances) requests =
      .ok (s, (replay (fun m r => serve m (Request.ofBytes r)) .empty requests).2) := by
  obtain ⟨s, hrun, -⟩ := run_simulates_along (onMessage env)
    (fun m r => serve m (Request.ofBytes r)) (R := fun s m => Represents env _ s.db m)
    (fun _ _ _ h hproper => onMessage_of_proper (by decide) h hproper) requests
    (new wal disk chances) .empty (DbImpl.represents_new env {} wal disk) hproper
  exact ⟨s, hrun⟩

/-- A key that is set, read, set again and deleted before it was set. -/
def properRequests : List Bytes :=
  [encodeCommand [ascii "DEL", ascii "key"], encodeCommand [ascii "GET", ascii "key"],
    encodeCommand [ascii "SET", ascii "key", ascii "value"], ascii "PING\r\n",
    encodeCommand [ascii "SET", ascii "key", ascii "value"],
    encodeCommand [ascii "GET", ascii "key"], encodeCommand [ascii "ECHO"]]

/-- The tombstone and the value are read. -/
theorem onMessage_refines_seven : ∃ s, runFrom (onMessage Env.plain) fresh properRequests =
    .ok (s, [ascii ":0\r\n", ascii "$0\r\n\r\n", ascii "+OK\r\n", ascii "+PONG\r\n",
      ascii "+OK\r\n", ascii "$5\r\nvalue\r\n", ascii "-ERR unknown command 'ECHO'\r\n"]) :=
  onMessage_refines Env.plain [] (fun _ => none) (fun _ => .quiet) properRequests (by decide)

end SmallKV.LSMServer
