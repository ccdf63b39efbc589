import SmallKV.Sstparser.SstParser
import SmallKV.Table.Restarts

/-!
# Sstparser/Loads — what the parser's loads read

A load returns what stands at its address, and a load of bytes that do not stand there is a fault.
`At` says what stands where, with the NUL behind the contents, and each load is equal to it
(`loadInt32_eq_ok`, `stringAt_eq_ok`, `loadOffsetInfo_eq_ok`).
-/

namespace SmallKV.SSTParser

/-- Some bytes stand at an address of the contents, which a NUL follows. -/
def At (content : Bytes) (p : ℤ) (bs : Bytes) : Prop :=
  ∃ before after, content ++ [0] = before ++ (bs ++ after) ∧ (before.length : ℤ) = p

/-- An `int32_t` stands at an address. -/
def IntAt (content : Bytes) (p x : ℤ) : Prop :=
  ∃ bs : Bytes, bs.length = 4 ∧ toInt32 (leNat bs) = x ∧ At content p bs

variable {content : Bytes}

theorem At.length_le {p : ℤ} {bs : Bytes} (h : At content p bs) : bs.length ≤ content.length + 1 := by
  obtain ⟨before, after, heq, -⟩ := h
  have hlen := congrArg List.length heq
  simp only [List.length_append, List.length_singleton] at hlen
  omega

/-! ## The loads read what stands there -/

theorem loadAt_eq_ok {p : ℤ} {n : ℕ} {bs : Bytes} :
    loadAt content (.content p) n = .ok bs ↔ bs.length = n ∧ At content p bs := by
  simp only [loadAt, load, bind_eq_ok, require_eq_ok, decide_eq_true_eq, pure_eq_ok,
    Except.ok.injEq]
  constructor
  · rintro ⟨_, hp, _, hfits, rfl⟩
    refine ⟨?_, (content ++ [0]).take p.toNat, (content ++ [0]).drop (p.toNat + n), ?_, ?_⟩
    · rw [List.length_take, List.length_drop]
      omega
    · rw [← List.drop_drop, List.take_append_drop, List.take_append_drop]
    · rw [List.length_take]
      omega
  · rintro ⟨rfl, before, after, heq, rfl⟩
    refine ⟨(), by omega, (), ?_, ?_⟩
    · rw [heq, Int.toNat_natCast, List.length_append, List.length_append]
      omega
    · rw [heq, Int.toNat_natCast, List.drop_left' rfl, List.take_left' rfl]

theorem loadInt32_eq_ok {p x : ℤ} :
    loadInt32 content (.content p) = .ok x ↔ IntAt content p x := by
  simp only [loadInt32, bind_eq_ok, loadAt_eq_ok, pure_eq_ok, Except.ok.injEq, IntAt]
  constructor
  · rintro ⟨bs, ⟨hlen, hat⟩, rfl⟩
    exact ⟨bs, hlen, rfl, hat⟩
  · rintro ⟨bs, hlen, rfl, hat⟩
    exact ⟨bs, ⟨hlen, hat⟩, rfl⟩

theorem stringAt_eq_ok {p n : ℤ} {bs : Bytes} :
    stringAt content (.content p) n = .ok bs ↔ n = bs.length ∧ At content p bs := by
  simp only [stringAt, bind_eq_ok, require_eq_ok, decide_eq_true_eq, loadAt_eq_ok]
  constructor
  · rintro ⟨_, hn, hlen, hat⟩
    exact ⟨by omega, hat⟩
  · rintro ⟨rfl, hat⟩
    exact ⟨(), by omega, by omega, hat⟩

theorem loadOffsetInfo_eq_ok {p : ℤ} {o : OffsetInfo} :
    loadOffsetInfo content (.content p) = .ok o ↔
      IntAt content p o.size ∧ IntAt content (p + 4) o.offset := by
  simp only [loadOffsetInfo, bind_eq_ok, loadInt32_eq_ok, Ptr.add, pure_eq_ok, Except.ok.injEq]
  constructor
  · rintro ⟨size, hsize, offset, hoffset, rfl⟩
    exact ⟨hsize, hoffset⟩
  · rintro ⟨hsize, hoffset⟩
    exact ⟨_, hsize, _, hoffset, rfl⟩

theorem intAt_int32At {off : ℕ} (h : off + 4 ≤ content.length) :
    IntAt content off (int32At content off) := by
  have hlen : ((content.drop off).take 4).length = 4 := by
    rw [List.length_take, List.length_drop]
    omega
  refine ⟨_, hlen, rfl, content.take off, content.drop (off + 4) ++ [0], ?_, ?_⟩
  · rw [← List.append_assoc, ← List.append_assoc, List.append_assoc (content.take off),
      ← List.drop_drop, List.take_append_drop, List.take_append_drop]
  · rw [List.length_take, Nat.min_eq_left (by omega)]

/-- An encoded `int` stands where it was put. -/
theorem intAt_append (before : Bytes) {after : Bytes} {p x : ℤ} (hp : (before.length : ℤ) = p)
    (hcontent : content = before ++ (encodeFixed32 (toUInt32 x) ++ after)) :
    IntAt content p (toInt32 x) := by
  have hat : IntAt content before.length (int32At content before.length) := by
    refine intAt_int32At ?_
    rw [hcontent, List.length_append, List.length_append, length_encodeFixed32]
    omega
  rwa [hp, hcontent, int32At_append rfl, ← hcontent] at hat

/-- An encoded `OffsetInfo` stands where it was put. -/
theorem loadOffsetInfo_append (before : Bytes) {after : Bytes} {p : ℤ} {o : OffsetInfo}
    (hp : (before.length : ℤ) = p) (hcontent : content = before ++
      (encodeFixed32 (toUInt32 o.size) ++ (encodeFixed32 (toUInt32 o.offset) ++ after))) :
    loadOffsetInfo content (.content p) = .ok ⟨toInt32 o.size, toInt32 o.offset⟩ := by
  refine loadOffsetInfo_eq_ok.mpr ⟨intAt_append before hp hcontent, ?_⟩
  exact intAt_append (before ++ encodeFixed32 (toUInt32 o.size)) (by simp [← hp])
    (by rw [hcontent, List.append_assoc])

theorem at_append (before : Bytes) {bs after : Bytes} {p : ℤ} (hp : (before.length : ℤ) = p)
    (hcontent : content = before ++ (bs ++ after)) : At content p bs :=
  ⟨before, after ++ [0], by rw [hcontent, List.append_assoc, List.append_assoc], hp⟩

end SmallKV.SSTParser
