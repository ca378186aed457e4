import LittleC.Proofs.Machine.Word

/-! # Memory

A byte for every address, the low byte of a number first. What a store changes lies within the bytes
it covers. -/

namespace LittleC

abbrev Memory := Word → BitVec 8

/-- Address `b` is one of the `n` bytes at `a`. -/
def Covers (a : Word) (n : Nat) (b : Word) : Prop := (b - a).toNat < n

instance (a : Word) (n : Nat) (b : Word) : Decidable (Covers a n b) :=
  inferInstanceAs (Decidable ((b - a).toNat < n))

namespace Memory

/-- The number in the `n` bytes at `a`. -/
def bytes (m : Memory) (a : Word) : Nat → Nat
  | 0 => 0
  | n + 1 => m.bytes a n + 2 ^ (8 * n) * (m (a + .ofNat 64 n)).toNat

def load (m : Memory) (a : Word) (n : Nat) : Word := .ofNat 64 (m.bytes a n)

/-- Byte number `i` of a word. -/
def byteOf (w : Word) (i : Nat) : BitVec 8 := .ofNat 8 (w.toNat / 2 ^ (8 * i))

def store (m : Memory) (a : Word) (n : Nat) (w : Word) : Memory := fun b =>
  if Covers a n b then byteOf w (b - a).toNat else m b

section
variable {m m' : Memory} {a : Word} {n k : Nat}

theorem store_of_covers {b : Word} (w : Word) (h : Covers a n b) :
    m.store a n w b = byteOf w (b - a).toNat := if_pos h

theorem store_of_not_covers {b : Word} (w : Word) (h : ¬Covers a n b) : m.store a n w b = m b :=
  if_neg h

theorem add_sub_toNat (a : Word) (hk : k < 8) : (a + BitVec.ofNat 64 k - a).toNat = k := by
  have h : a + BitVec.ofNat 64 k - a = BitVec.ofNat 64 k := by
    rw [BitVec.add_comm, BitVec.add_sub_cancel]
  rw [h, BitVec.toNat_ofNat]
  exact Nat.mod_eq_of_lt (by omega)

theorem covers_add (a : Word) (hk : k < n) (hn : n ≤ 8) : Covers a n (a + BitVec.ofNat 64 k) := by
  unfold Covers
  rw [add_sub_toNat a (by omega)]
  exact hk

/-- A load depends on the bytes that it covers only. -/
theorem bytes_congr (hn : n ≤ 8) (h : ∀ b, Covers a n b → m' b = m b) (hk : k ≤ n) :
    m'.bytes a k = m.bytes a k := by
  induction k with
  | zero => rfl
  | succ k ih => rw [bytes, bytes, ih (by omega), h _ (covers_add a hk hn)]

theorem load_congr (hn : n ≤ 8) (h : ∀ b, Covers a n b → m' b = m b) :
    m'.load a n = m.load a n := by
  rw [load, load, bytes_congr hn h (Nat.le_refl n)]

theorem bytes_store (w : Word) (hn : n ≤ 8) (hk : k ≤ n) :
    (m.store a n w).bytes a k = w.toNat % 2 ^ (8 * k) := by
  induction k with
  | zero => exact (Nat.mod_one _).symm
  | succ k ih =>
      have hbyte := store_of_covers (m := m) w (covers_add a hk hn)
      rw [add_sub_toNat a (by omega)] at hbyte
      rw [bytes, ih (by omega), hbyte, byteOf, BitVec.toNat_ofNat, Nat.mul_succ, Nat.pow_add,
        Nat.mod_mul]

theorem byteOf_congr {i : Nat} (hi : i < n) {w x : Word}
    (h : unsigned n w = unsigned n x) : byteOf w i = byteOf x i := by
  have hbyte (y : Word) : (byteOf y i).toNat = unsigned n y / 2 ^ (8 * i) % 2 ^ 8 := by
    have hsplit : 2 ^ (8 * n) = 2 ^ (8 * i) * 2 ^ (8 * (n - i)) := by
      rw [← Nat.pow_add, show 8 * i + 8 * (n - i) = 8 * n by omega]
    rw [byteOf, BitVec.toNat_ofNat, unsigned, hsplit, Nat.mod_mul_right_div_self,
      Nat.mod_mod_of_dvd _ (pow_dvd_pow 2 (by omega))]
  apply BitVec.eq_of_toNat_eq
  rw [hbyte w, hbyte x, h]

/-- What was stored is loaded again. -/
theorem signed_load_store (m : Memory) (a : Word) (hn : n ≤ 8) (w : Word) :
    signed n ((m.store a n w).load a n) = signed n w := by
  rw [signed_eq_iff, unsigned, load, bytes_store w hn (Nat.le_refl n), BitVec.toNat_ofNat,
    Nat.mod_mod_of_dvd _ (pow_dvd_pow 2 (by omega)), Nat.mod_mod]
  rfl

/-- A wider load has the bytes of a narrow one below. -/
theorem signed_load_of_le {a : Word} (hn : n ≤ k) (hk : k ≤ 8) :
    signed n (m.load a k) = signed n (m.load a n) := by
  have hlow : ∀ j, n ≤ j → m.bytes a j % 2 ^ (8 * n) = m.bytes a n % 2 ^ (8 * n) := by
    intro j hj
    induction j, hj using Nat.le_induction with
    | base => rfl
    | succ j hj ih =>
        have hdvd : 2 ^ (8 * n) ∣ 2 ^ (8 * j) * (m (a + .ofNat 64 j)).toNat :=
          Dvd.dvd.mul_right (pow_dvd_pow 2 (by omega)) _
        rw [bytes, Nat.add_mod, Nat.mod_eq_zero_of_dvd hdvd, Nat.add_zero, Nat.mod_mod, ih]
  have hunsigned (w : Nat) : unsigned n (.ofNat 64 w) = w % 2 ^ (8 * n) := by
    rw [unsigned, BitVec.toNat_ofNat, Nat.mod_mod_of_dvd _ (pow_dvd_pow 2 (by omega))]
  rw [signed_eq_iff, load, load, hunsigned, hunsigned, hlow k hn]

/-- A whole word is loaded as it was stored. -/
theorem load_store (m : Memory) (a w : Word) : (m.store a 8 w).load a 8 = w := by
  rw [← ofInt_signed ((m.store a 8 w).load a 8), signed_load_store m a (Nat.le_refl 8),
    ofInt_signed]

/-- Only the low bytes of a word are stored. -/
theorem store_congr (m : Memory) (a : Word) {w x : Word}
    (h : signed n w = signed n x) : m.store a n w = m.store a n x := by
  funext b
  by_cases hb : Covers a n b
  · have hlow := signed_eq_iff.mp h
    rw [store_of_covers w hb, store_of_covers x hb]
    exact byteOf_congr hb hlow
  · rw [store_of_not_covers w hb, store_of_not_covers x hb]

end

end Memory

/-! ## Places relative to the frame base -/

/-- The addresses from offset `lo` up to `hi` from the frame base. -/
def Zone (base : Word) (lo hi : Int) (b : Word) : Prop :=
  ∃ o : Int, lo ≤ o ∧ o < hi ∧ b = base + BitVec.ofInt 64 o

/-- None of the `n` bytes at `a` is in the zone. -/
def Apart (base : Word) (lo hi : Int) (a : Word) (n : Nat) : Prop :=
  ∀ b, Covers a n b → ¬Zone base lo hi b

section
variable {base a b : Word} {lo hi : Int} {n : Nat}

theorem Zone.mono {lo' hi' : Int} (h : Zone base lo hi b) (hlo : lo' ≤ lo) (hhi : hi ≤ hi') :
    Zone base lo' hi' b := by
  obtain ⟨o, hle, hlt, rfl⟩ := h
  exact ⟨o, Int.le_trans hlo hle, Int.lt_of_lt_of_le hlt hhi, rfl⟩

theorem Apart.mono {lo' hi' : Int} (h : Apart base lo hi a n) (hlo : lo ≤ lo') (hhi : hi' ≤ hi) :
    Apart base lo' hi' a n :=
  fun b hb hzone => h b hb (hzone.mono hlo hhi)

/-- Offsets less than the size of memory apart are different places. -/
theorem add_ofInt_inj {o p : Int} (h : base + BitVec.ofInt 64 o = base + BitVec.ofInt 64 p)
    (hlo : -2 ^ 64 < o - p) (hhi : o - p < 2 ^ 64) : o = p := by
  have heq : BitVec.ofInt 64 o = BitVec.ofInt 64 p := by
    have hsub := congrArg (· - base) h
    simpa [BitVec.add_comm base, BitVec.add_sub_cancel] using hsub
  have hnat := congrArg BitVec.toNat heq
  rw [BitVec.toNat_ofInt, BitVec.toNat_ofInt] at hnat
  omega

/-- The bytes of a place in the frame are the offsets from its own on. -/
theorem zone_of_covers {o : Int} (h : Covers (base + BitVec.ofInt 64 o) n b) :
    Zone base o (o + n) b := by
  refine ⟨o + (b - (base + BitVec.ofInt 64 o)).toNat, by omega, by unfold Covers at h; omega, ?_⟩
  have hsplit : BitVec.ofInt 64 (o + (b - (base + BitVec.ofInt 64 o)).toNat) =
      BitVec.ofInt 64 o + (b - (base + BitVec.ofInt 64 o)) := by
    rw [BitVec.ofInt_add, BitVec.ofInt_natCast, BitVec.ofNat_toNat, BitVec.setWidth_eq]
  rw [hsplit, ← BitVec.add_assoc, BitVec.add_comm, BitVec.sub_add_cancel]

/-- The bytes at the frame base are the offsets from zero on. -/
theorem zone_of_covers_base (h : Covers base n b) : Zone base 0 n b := by
  have hplace : base = base + BitVec.ofInt 64 0 := (BitVec.add_zero base).symm
  rw [hplace] at h
  have hzone := zone_of_covers h
  rwa [Int.zero_add] at hzone

/-- Zones above each other share no address, as long as both fit into memory. -/
theorem Zone.not_above {lo' hi' : Int} (h : Zone base lo hi b) (hle : hi ≤ lo')
    (hroom : hi' - lo ≤ 2 ^ 64) : ¬Zone base lo' hi' b := by
  rintro ⟨q, hq, hqn, heq⟩
  obtain ⟨p, hp, hpn, rfl⟩ := h
  have := add_ofInt_inj heq (by omega) (by omega)
  omega

/-- A place of the frame is apart from the zone below it. -/
theorem apart_below {o : Int} (hhi : hi ≤ o) (hroom : o + n - lo ≤ 2 ^ 64) :
    Apart base lo hi (base + BitVec.ofInt 64 o) n :=
  fun _ hb hzone => hzone.not_above hhi hroom (zone_of_covers hb)

end

end LittleC
