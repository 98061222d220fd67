import Mathlib
import EightBit.Memory
import EightBit.Proofs.Word

/-!
# Bytes in memory

What loading a run of bytes does to every single byte and mark of a memory. A run may be longer than the
memory and then overwrites itself, so the last byte of a run that falls on an address counts.

* `byteOn?`: the last byte of a run that falls on an address.
* `Memory.read_load`, `Memory.markAt_load`: bytes and marks after a load.
* `Memory.readBytes_load`: a run that fits into the memory is read back as it was loaded.
-/

namespace EightBit

/-- The last byte of a run from `addr` on that falls on `other`, where addresses are cut to the bits of
`mask`. -/
def byteOn? (mask other : UInt64) : UInt64 → List UInt8 → Option UInt8
  | _, [] => none
  | addr, b :: rest =>
    (byteOn? mask other (addr + 1) rest).or
      (if addr &&& mask = other &&& mask then some b else none)

/-- The place of a byte of a run, counted from the second byte on. -/
theorem add_succ_toUInt64 (addr : UInt64) (n : Nat) :
    addr + (n + 1).toUInt64 = addr + 1 + n.toUInt64 := by
  have hsucc : (n + 1).toUInt64 = n.toUInt64 + 1 := by
    simp [Nat.toUInt64, UInt64.ofNat_add]
  rw [hsucc, UInt64.add_comm n.toUInt64 1, UInt64.add_assoc]

/-- A run covers an address if one of its bytes falls on it. -/
theorem isSome_byteOn?_iff (mask other addr : UInt64) (bytes : List UInt8) :
    (byteOn? mask other addr bytes).isSome ↔
      ∃ n < bytes.length, (addr + n.toUInt64) &&& mask = other &&& mask := by
  induction bytes generalizing addr with
  | nil => simp [byteOn?]
  | cons b rest ih =>
    rw [byteOn?, Option.isSome_or, Bool.or_eq_true, ih]
    constructor
    · rintro (⟨n, hn, heq⟩ | hfirst)
      · exact ⟨n + 1, by simpa using hn, by rwa [add_succ_toUInt64]⟩
      · refine ⟨0, by simp, ?_⟩
        by_contra hne
        simp_all
    · rintro ⟨n, hn, heq⟩
      cases n with
      | zero => right; simp_all
      | succ n =>
        left
        exact ⟨n, by simpa using hn, by rwa [add_succ_toUInt64] at heq⟩

/-- The byte of a run that counts at an address stands at the last place that falls on it. -/
theorem byteOn?_eq_some_iff (mask other addr : UInt64) (bytes : List UInt8) (b : UInt8) :
    byteOn? mask other addr bytes = some b ↔
      ∃ n, bytes[n]? = some b ∧ (addr + n.toUInt64) &&& mask = other &&& mask ∧
        ∀ k, n < k → k < bytes.length → (addr + k.toUInt64) &&& mask ≠ other &&& mask := by
  induction bytes generalizing addr with
  | nil => simp [byteOn?]
  | cons c rest ih =>
    rw [byteOn?, Option.or_eq_some_iff, ih]
    constructor
    · rintro (⟨n, hn, heq, hlast⟩ | ⟨hnone, hfirst⟩)
      · refine ⟨n + 1, by simpa using hn, by rwa [add_succ_toUInt64], ?_⟩
        intro k hk hlen
        obtain ⟨k, rfl⟩ := Nat.exists_eq_add_of_lt (Nat.lt_of_le_of_lt (Nat.zero_le _) hk)
        rw [Nat.zero_add, add_succ_toUInt64]
        exact hlast k (by omega) (by simp at hlen; omega)
      · -- No later byte falls on the address, so that the first one counts.
        refine ⟨0, ?_, ?_, ?_⟩
        · by_contra hne
          simp_all
        · by_contra hne
          simp_all
        · intro k hk hlen heq
          obtain ⟨k, rfl⟩ := Nat.exists_eq_add_of_lt hk
          have hcovered : (byteOn? mask other (addr + 1) rest).isSome := by
            rw [isSome_byteOn?_iff]
            exact ⟨k, by simp at hlen; omega, by rwa [Nat.zero_add, add_succ_toUInt64] at heq⟩
          simp [hnone] at hcovered
    · rintro ⟨n, hn, heq, hlast⟩
      cases n with
      | zero =>
        right
        refine ⟨?_, by simp_all⟩
        by_contra hne
        obtain ⟨k, hk, hfalls⟩ :=
          (isSome_byteOn?_iff mask other (addr + 1) rest).1 (Option.isSome_iff_ne_none.2 hne)
        exact hlast (k + 1) (by omega) (by simpa using hk) (by rwa [add_succ_toUInt64])
      | succ n =>
        left
        refine ⟨n, by simpa using hn, by rwa [add_succ_toUInt64] at heq, ?_⟩
        intro k hk hlen
        rw [← add_succ_toUInt64]
        exact hlast (k + 1) (by omega) (by simpa using hlen)

namespace Memory

@[simp] theorem mask_setMark (m : Memory) (addr : UInt64) (mark : Mark) :
    (m.setMark addr mark).mask = m.mask := rfl

@[simp] theorem read_setMark (m : Memory) (addr other : UInt64) (mark : Mark) :
    (m.setMark addr mark).read other = m.read other := rfl

@[simp] theorem markAt_write (m : Memory) (addr other : UInt64) (b : UInt8) :
    (m.write addr b).markAt other = m.markAt other := rfl

@[simp] theorem width_load (m : Memory) (addr : UInt64) (bytes : List UInt8) (mark : Mark) :
    (m.load addr bytes mark).width = m.width := by
  induction bytes generalizing m addr with
  | nil => rfl
  | cons b rest ih => rw [load, ih]; rfl

@[simp] theorem order_load (m : Memory) (addr : UInt64) (bytes : List UInt8) (mark : Mark) :
    (m.load addr bytes mark).order = m.order := by
  induction bytes generalizing m addr with
  | nil => rfl
  | cons b rest ih => rw [load, ih]; rfl

@[simp] theorem mask_load (m : Memory) (addr : UInt64) (bytes : List UInt8) (mark : Mark) :
    (m.load addr bytes mark).mask = m.mask := by
  simp [mask]

/-- A load changes exactly the bytes that it covers. -/
theorem read_load (m : Memory) (addr other : UInt64) (bytes : List UInt8) (mark : Mark) :
    (m.load addr bytes mark).read other = (byteOn? m.mask other addr bytes).getD (m.read other) := by
  induction bytes generalizing m addr with
  | nil => rfl
  | cons b rest ih =>
    rw [load, ih, byteOn?]
    simp only [mask_setMark, mask_write, read_setMark, read_write]
    cases byteOn? m.mask other (addr + 1) rest with
    | some c => rfl
    | none => by_cases h : addr &&& m.mask = other &&& m.mask <;> simp [h]

/-- A load marks exactly the bytes that it covers. -/
theorem markAt_load (m : Memory) (addr other : UInt64) (bytes : List UInt8) (mark : Mark) :
    (m.load addr bytes mark).markAt other =
      if (byteOn? m.mask other addr bytes).isSome then mark else m.markAt other := by
  induction bytes generalizing m addr with
  | nil => rfl
  | cons b rest ih =>
    rw [load, ih, byteOn?]
    simp only [mask_setMark, mask_write, markAt_setMark, markAt_write]
    cases byteOn? m.mask other (addr + 1) rest with
    | some c => simp
    | none => by_cases h : addr &&& m.mask = other &&& m.mask <;> simp [h]

/-- Two loads of adjacent runs are the load of both. -/
theorem load_append (m : Memory) (addr : UInt64) (first second : List UInt8) (mark : Mark) :
    m.load addr (first ++ second) mark =
      (m.load addr first mark).load (addr + first.length.toUInt64) second mark := by
  induction first generalizing m addr with
  | nil => simp [load]
  | cons b rest ih =>
    rw [List.cons_append, load, ih, load, List.length_cons, add_succ_toUInt64]

@[simp] theorem length_readBytes (m : Memory) (addr : UInt64) (n : Nat) :
    (m.readBytes addr n).length = n := by
  induction n generalizing addr with
  | zero => rfl
  | succ n ih => simp [readBytes, ih]

theorem getElem?_readBytes (m : Memory) (addr : UInt64) {n k : Nat} (hk : k < n) :
    (m.readBytes addr n)[k]? = some (m.read (addr + k.toUInt64)) := by
  induction n generalizing addr k with
  | zero => omega
  | succ n ih =>
    cases k with
    | zero => simp [readBytes]
    | succ k => rw [readBytes, List.getElem?_cons_succ, ih _ (by omega), add_succ_toUInt64]

/-- A run may start at any address that is the same to the memory. -/
theorem readBytes_and_mask (m : Memory) (hwidth : m.width < 64) (addr : UInt64) (n : Nat) :
    m.readBytes (addr &&& m.mask) n = m.readBytes addr n := by
  apply List.ext_getElem?
  intro k
  by_cases hk : k < n
  · rw [getElem?_readBytes _ _ hk, getElem?_readBytes _ _ hk, read, read, mask,
      Word.and_mask_add_and_mask _ _ hwidth]
  · rw [List.getElem?_eq_none (by simpa using hk), List.getElem?_eq_none (by simpa using hk)]

/-- The bytes of a range are those of its parts. -/
theorem readBytes_add (m : Memory) (addr : UInt64) (n k : Nat) :
    m.readBytes addr (n + k) = m.readBytes addr n ++ m.readBytes (addr + n.toUInt64) k := by
  induction n generalizing addr with
  | zero => simp [readBytes]
  | succ n ih =>
    rw [Nat.succ_add, readBytes, ih, readBytes, List.cons_append, add_succ_toUInt64]

/-- The bytes between two addresses are as many as these are apart. -/
theorem slice_eq_readBytes (m : Memory) {start stop : UInt64} {n : Nat}
    (hn : start.toNat + n = stop.toNat) : m.slice start stop = m.readBytes start n := by
  have hle : start ≤ stop := UInt64.le_iff_toNat_le.2 (by omega)
  have hdiff : (stop - start).toNat = n := by
    rw [UInt64.toNat_sub_of_le _ _ hle]
    omega
  rw [slice, hdiff]
  split_ifs with hlt
  · rfl
  · rw [UInt64.lt_iff_toNat_lt] at hlt
    obtain rfl : n = 0 := by omega
    rfl

/-- Two places of a run that fits into the memory do not fall on the same byte. -/
theorem add_and_mask_ne (m : Memory) (hwidth : m.width < 64) (addr : UInt64) {n k : Nat}
    (hnk : n < k) (hk : k < 2 ^ m.width) :
    (addr + k.toUInt64) &&& m.mask ≠ (addr + n.toUInt64) &&& m.mask := by
  intro heq
  have hpow : 2 ^ m.width ∣ 2 ^ 64 := pow_dvd_pow 2 (by omega)
  have hlt : 2 ^ m.width < 2 ^ 64 := Nat.pow_lt_pow_right (by decide) hwidth
  have hnat := congrArg UInt64.toNat heq
  rw [mask, Word.toNat_and_mask _ hwidth, Word.toNat_and_mask _ hwidth, UInt64.toNat_add,
    UInt64.toNat_add, Nat.mod_mod_of_dvd _ hpow, Nat.mod_mod_of_dvd _ hpow,
    Word.toNat_toUInt64 (by omega), Word.toNat_toUInt64 (by omega)] at hnat
  -- Both places are below the size of the memory, where remainders differ.
  have hmod : k ≡ n [MOD 2 ^ m.width] := Nat.ModEq.add_left_cancel' _ hnat
  have hself : k = n := by
    rwa [Nat.ModEq, Nat.mod_eq_of_lt hk, Nat.mod_eq_of_lt (by omega)] at hmod
  omega

/-- The same where addresses are whole words, if the run is no longer than these can tell apart. -/
theorem add_and_mask_ne_of_wide {m : Memory} (hwidth : 64 ≤ m.width) (addr : UInt64) {n k : Nat}
    (hnk : n < k) (hk : k < 2 ^ 64) :
    (addr + k.toUInt64) &&& m.mask ≠ (addr + n.toUInt64) &&& m.mask := by
  have hmask : m.mask = -1 := by rw [mask, Word.mask, if_neg (by omega)]
  rw [hmask, UInt64.and_neg_one, UInt64.and_neg_one]
  intro heq
  have hnat := congrArg UInt64.toNat ((UInt64.add_right_inj addr).1 heq)
  rw [Word.toNat_toUInt64 hk, Word.toNat_toUInt64 (by omega)] at hnat
  omega

/-- A run that fits into the memory is read back as it was loaded, in memories of any width. -/
theorem readBytes_load_of_le (m : Memory) (addr : UInt64) (bytes : List UInt8) (mark : Mark)
    (hfits : bytes.length ≤ 2 ^ m.width) (hword : bytes.length ≤ 2 ^ 64) :
    (m.load addr bytes mark).readBytes addr bytes.length = bytes := by
  have hapart : ∀ {n k : Nat}, n < k → k < bytes.length →
      (addr + k.toUInt64) &&& m.mask ≠ (addr + n.toUInt64) &&& m.mask := by
    intro n k hnk hk
    rcases Nat.lt_or_ge m.width 64 with hwidth | hwidth
    · exact m.add_and_mask_ne hwidth addr hnk (by omega)
    · exact add_and_mask_ne_of_wide hwidth addr hnk (by omega)
  apply List.ext_getElem?
  intro n
  by_cases hn : n < bytes.length
  · have hlast : byteOn? m.mask (addr + n.toUInt64) addr bytes = some bytes[n] := by
      rw [byteOn?_eq_some_iff]
      exact ⟨n, List.getElem?_eq_getElem hn, rfl, fun k hnk hk => hapart hnk hk⟩
    rw [getElem?_readBytes _ _ hn, read_load, hlast, List.getElem?_eq_getElem hn]
    rfl
  · rw [List.getElem?_eq_none (by simpa using hn), List.getElem?_eq_none (by simpa using hn)]

/-- A run that fits into the memory is read back as it was loaded. -/
theorem readBytes_load (m : Memory) (hwidth : m.width < 64) (addr : UInt64) (bytes : List UInt8)
    (mark : Mark) (hfits : bytes.length ≤ 2 ^ m.width) :
    (m.load addr bytes mark).readBytes addr bytes.length = bytes :=
  m.readBytes_load_of_le addr bytes mark hfits
    (hfits.trans (Nat.pow_le_pow_right (by decide) hwidth.le))

end Memory

end EightBit
