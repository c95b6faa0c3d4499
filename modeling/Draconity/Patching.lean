import Draconity.CodeHook

/-!
`CodeHook::write` on macOS, and the page protections it changes on the way.

The start of the range is rounded down to a page and its size is rounded up, each with the same mask,
so the pages that become writable have room for the bytes but need not be theirs.
-/

namespace Draconity

open Lib Lib.Rounding

/-! ### Protections -/

/-- `PROT_READ|PROT_WRITE` and `PROT_READ|PROT_EXEC`. -/
inductive Protection
  | readWrite
  | readExec
  deriving DecidableEq

/-- The memory of a process: the protection of each page, by its number, and the bytes. -/
structure Memory where
  protection : ℕ → Protection
  bytes : ℕ → UInt8

/-- The first two arguments of `mprotect`. -/
structure ProtRange where
  addr : ℕ
  size : ℕ

def ProtRange.Touches (r : ProtRange) (P : Platform) (page : ℕ) : Prop :=
  0 < r.size ∧ r.addr / P.pageSize ≤ page ∧ page * P.pageSize < r.addr + r.size

instance (r : ProtRange) (P : Platform) (page : ℕ) : Decidable (r.Touches P page) :=
  inferInstanceAs (Decidable (_ ∧ _ ∧ _))

def mprotect (P : Platform) (r : ProtRange) (p : Protection) (m : Memory) : Memory :=
  { m with protection := fun page => if r.Touches P page then p else m.protection page }

/-- `prot_addr` and `prot_size`.  The sum is one of `uint64_t`s, and `prot_size` is a `size_t`. -/
def protRange (arch : Arch) (P : Platform) (addr size : ℕ) : ProtRange :=
  let pageMask := P.pageSize - 1
  { addr := addr.ldiff pageMask
    size := ((size + pageMask) % 2 ^ 64).ldiff pageMask % 256 ^ arch.ptrSize }

def protectRW (arch : Arch) (P : Platform) (addr size : ℕ) : Memory → Memory :=
  mprotect P (protRange arch P addr size) .readWrite

def protectRX (arch : Arch) (P : Platform) (addr size : ℕ) : Memory → Memory :=
  mprotect P (protRange arch P addr size) .readExec

/-- `memcpy`, `none` when it faults. -/
def memcpy (P : Platform) (addr : ℕ) (data : List UInt8) (m : Memory) : Option Memory :=
  if ∀ i < data.length, m.protection ((addr + i) / P.pageSize) = .readWrite then
    some { m with
      bytes := fun a =>
        if addr ≤ a ∧ a < addr + data.length then data.getD (a - addr) 0 else m.bytes a }
  else none

/-- `CodeHook::write`, `none` when it faults. -/
def CodeHook.write (arch : Arch) (P : Platform) (addr : ℕ) (data : List UInt8) (m : Memory) :
    Option Memory := do
  let m ← memcpy P addr data (protectRW arch P addr data.length m)
  return protectRX arch P addr data.length m

def CodeHook.apply (arch : Arch) (P : Platform) (hook : CodeHook) (m : Memory) : Option Memory :=
  CodeHook.write arch P hook.addr hook.patchData m

variable {arch : Arch} {P : Platform} {addr size page a : ℕ} {data : List UInt8} {m m' : Memory}
  {r : ProtRange} {p : Protection} {hook : CodeHook}

theorem ProtRange.touches_iff :
    r.Touches P page ↔ ∃ a, r.addr ≤ a ∧ a < r.addr + r.size ∧ a / P.pageSize = page := by
  have hp := P.pageSize_pos
  constructor
  · rintro ⟨hsize, hfirst, hlast⟩
    have hdiv : page * P.pageSize / P.pageSize = page := Nat.mul_div_cancel _ hp
    rcases Nat.le_total r.addr (page * P.pageSize) with h | h
    · exact ⟨_, h, hlast, hdiv⟩
    · refine ⟨r.addr, le_rfl, by omega, le_antisymm hfirst ?_⟩
      exact hdiv ▸ Nat.div_le_div_right h
  · rintro ⟨a, hfirst, hlast, rfl⟩
    exact ⟨by omega, Nat.div_le_div_right hfirst, (Nat.div_mul_le_self a _).trans_lt hlast⟩

theorem Platform.pageSize_dvd (hP : P.pageSize < 256 ^ arch.ptrSize) :
    P.pageSize ∣ 256 ^ arch.ptrSize := by
  have hpow : 256 ^ arch.ptrSize = 2 ^ (8 * arch.ptrSize) := by
    rw [Nat.pow_mul]
  rw [P.pageSize_eq, hpow] at hP ⊢
  exact Nat.pow_dvd_pow 2 ((Nat.pow_lt_pow_iff_right (by decide)).1 hP).le

theorem Arch.addresses_dvd (arch : Arch) : 256 ^ arch.ptrSize ∣ 2 ^ 64 := by
  cases arch <;> decide

def ProtRange.Contains (r : ProtRange) (a : ℕ) : Prop := r.addr ≤ a ∧ a < r.addr + r.size

/-- A range of whole pages has all the bytes of the pages it touches. -/
theorem ProtRange.touches_div_iff (haddr : P.pageSize ∣ r.addr) (hsize : P.pageSize ∣ r.size) :
    r.Touches P (a / P.pageSize) ↔ r.Contains a := by
  have hp := P.pageSize_pos
  constructor
  · rintro ⟨-, hfirst, hlast⟩
    obtain ⟨i, hi⟩ := haddr
    obtain ⟨j, hj⟩ := Nat.dvd_add ⟨i, hi⟩ hsize
    rw [hi, Nat.mul_div_cancel_left _ hp, Nat.le_div_iff_mul_le hp] at hfirst
    rw [hj, Nat.mul_comm P.pageSize, Nat.mul_lt_mul_right hp, Nat.div_lt_iff_lt_mul hp] at hlast
    unfold ProtRange.Contains
    rw [hj, hi, Nat.mul_comm, Nat.mul_comm _ j]
    exact ⟨hfirst, hlast⟩
  · rintro ⟨hfirst, hlast⟩
    exact touches_iff.2 ⟨a, hfirst, hlast, rfl⟩

/-- `prot_addr` and `prot_size` are the start and the size, rounded. -/
theorem protRange_eq (addr size : ℕ) (hP : P.pageSize < 256 ^ arch.ptrSize) :
    protRange arch P addr size =
      ⟨down P.pageSize addr, up P.pageSize size % 256 ^ arch.ptrSize⟩ := by
  have hdvd := arch.addresses_dvd
  unfold protRange
  dsimp only
  rw [P.ldiff_pageMask, P.ldiff_pageMask, down_mod ((P.pageSize_dvd hP).trans hdvd),
    Nat.mod_mod_of_dvd _ hdvd]
  rfl

/-! ### What a patch asks of them -/

/-- Patching a range works: the pages that are made writable contain every byte of it, so the copy
does not fault, whatever the protections were; the same pages are restored; and when no page was
writable before, none is left writable. -/
structure Patches (arch : Arch) (P : Platform) (addr size : ℕ) : Prop where
  contains : ∀ a, addr ≤ a → a < addr + size → (protRange arch P addr size).Contains a
  writes : ∀ m (data : List UInt8), data.length = size → ∃ m',
    CodeHook.write arch P addr data m = some m' ∧ ∀ a, m'.bytes a =
      if addr ≤ a ∧ a < addr + size then data.getD (a - addr) 0 else m.bytes a
  restores : {page | ∀ m, (protectRW arch P addr size m).protection page = .readWrite} =
    {page | ∀ m, (protectRX arch P addr size m).protection page = .readExec}
  sealed : ∀ m m' (data : List UInt8), data.length = size →
    (∀ page, m.protection page = .readExec) → CodeHook.write arch P addr data m = some m' →
      ∀ page, m'.protection page = .readExec

theorem mprotect_iff (h : ∃ q, q ≠ p) :
    (∀ m, (mprotect P r p m).protection page = p) ↔ r.Touches P page := by
  obtain ⟨q, hq⟩ := h
  unfold mprotect
  constructor
  · intro h
    by_contra ht
    exact hq (by simpa [ht] using h ⟨fun _ => q, fun _ => 0⟩)
  · intro ht m
    exact if_pos ht

/-- The pages that are made writable are those that are restored. -/
theorem protect_same (arch : Arch) (P : Platform) (addr size : ℕ) :
    {page | ∀ m, (protectRW arch P addr size m).protection page = .readWrite} =
      {page | ∀ m, (protectRX arch P addr size m).protection page = .readExec} := by
  ext page
  exact (mprotect_iff ⟨.readExec, by decide⟩).trans (mprotect_iff ⟨.readWrite, by decide⟩).symm

/-- A patch leaves no page writable that was not writable before. -/
theorem write_sealed (hm : ∀ page, m.protection page = .readExec)
    (h : CodeHook.write arch P addr data m = some m') (page : ℕ) :
    m'.protection page = .readExec := by
  obtain ⟨m₁, hcopy, hrx⟩ := Option.bind_eq_some_iff.1 h
  obtain rfl := Option.some.inj hrx
  unfold memcpy at hcopy
  split_ifs at hcopy
  obtain rfl := Option.some.inj hcopy
  show (if _ then _ else if _ then _ else m.protection page) = _
  split_ifs
  · rfl
  · exact hm page

/-- The copy does not fault when the pages that were made writable contain the bytes. -/
theorem write_of_contains (hsize : data.length = size)
    (h : ∀ a, addr ≤ a → a < addr + size → (protRange arch P addr size).Contains a)
    (m : Memory) :
    ∃ m', CodeHook.write arch P addr data m = some m' ∧ ∀ a, m'.bytes a =
      if addr ≤ a ∧ a < addr + size then data.getD (a - addr) 0 else m.bytes a := by
  subst hsize
  have hwritable : ∀ i < data.length, (protectRW arch P addr data.length m).protection
      ((addr + i) / P.pageSize) = .readWrite := by
    intro i hi
    obtain ⟨hfirst, hlast⟩ := h (addr + i) (Nat.le_add_right ..) (Nat.add_lt_add_left hi _)
    exact if_pos (ProtRange.touches_iff.2 ⟨_, hfirst, hlast, rfl⟩)
  unfold CodeHook.write memcpy
  rw [if_pos hwritable]
  exact ⟨_, rfl, fun a => rfl⟩

/-- The rounded range contains the bytes just when the offset of the first byte in its page and the
size do not carry, and the rounded size is one. -/
theorem contains_iff (hsize : 0 < size) (hwrap : size ≤ 256 ^ arch.ptrSize)
    (hP : P.pageSize < 256 ^ arch.ptrSize) :
    (∀ a, addr ≤ a → a < addr + size → (protRange arch P addr size).Contains a) ↔
      addr % P.pageSize + (size - 1) % P.pageSize < P.pageSize ∧
        size + P.pageSize ≤ 256 ^ arch.ptrSize := by
  have hp := P.pageSize_pos
  have hdvd := P.pageSize_dvd hP
  rw [protRange_eq addr size hP, ← covers_iff hp hsize, ← up_lt_iff hp hdvd]
  unfold ProtRange.Contains
  dsimp only
  constructor
  · intro h
    obtain ⟨-, hlast⟩ := h (addr + (size - 1)) (Nat.le_add_right ..) (by omega)
    have hround : up P.pageSize size < 256 ^ arch.ptrSize := by
      -- a rounded size of all addresses is passed as zero
      refine lt_of_le_of_ne (up_le hp hwrap hdvd) fun hall => ?_
      have hdown : down P.pageSize addr ≤ addr := Nat.div_mul_le_self addr _
      rw [hall, Nat.mod_self] at hlast
      omega
    rw [Nat.mod_eq_of_lt hround] at hlast
    exact ⟨by omega, hround⟩
  · rintro ⟨hcovers, hlt⟩ a hfirst hlast
    rw [Nat.mod_eq_of_lt hlt]
    exact ⟨(Nat.div_mul_le_self addr _).trans hfirst, hlast.trans_le hcovers⟩

theorem patches_of_contains
    (h : ∀ a, addr ≤ a → a < addr + size → (protRange arch P addr size).Contains a) :
    Patches arch P addr size :=
  ⟨h, fun m _ hdata => write_of_contains hdata h m, protect_same arch P addr size,
    fun _ _ _ _ hm hw => write_sealed hm hw⟩

/-- **When a patch works.**  For every page size and every range of bytes that does not wrap around:
just when the offset of its start in a page and the offset of the last byte of a range of its size do
not carry into the next page, and its size rounded up to pages is one. -/
theorem write_patches_iff (hP : P.pageSize < 256 ^ arch.ptrSize) (hsize : 0 < size)
    (hwrap : addr + size ≤ 256 ^ arch.ptrSize) :
    Patches arch P addr size ↔ addr % P.pageSize + (size - 1) % P.pageSize < P.pageSize ∧
      size + P.pageSize ≤ 256 ^ arch.ptrSize := by
  have hbound : size ≤ 256 ^ arch.ptrSize := (Nat.le_add_left ..).trans hwrap
  exact ⟨fun h => (contains_iff hsize hbound hP).1 h.contains,
    fun h => patches_of_contains ((contains_iff hsize hbound hP).2 h)⟩

theorem write_patches_iff_end : Patches .x64 onePage 0x10ff4 12 :=
  (write_patches_iff (by decide) (by decide) (by decide)).2 (by decide)

/-- A jump of twelve bytes that starts six bytes before the end of its page. -/
theorem write_patches_fails : ¬ ∀ (arch : Arch) (P : Platform) (addr size : ℕ),
    P.pageSize < 256 ^ arch.ptrSize → 0 < size → addr + size ≤ 256 ^ arch.ptrSize →
      Patches arch P addr size := by
  intro h
  have hpatches := h .x64 onePage 0x10ffa 12 (by decide) (by decide) (by decide)
  have hlast := (hpatches.contains 0x11005 (by decide) (by decide)).2
  rw [protRange_eq 0x10ffa 12 (show onePage.pageSize < 256 ^ Arch.x64.ptrSize by decide)] at hlast
  exact absurd hlast (by decide)

/-! ### The jump of a hook -/

theorem protRange_pages (addr size : ℕ) (hP : P.pageSize < 256 ^ arch.ptrSize) :
    P.pageSize ∣ (protRange arch P addr size).addr ∧
      P.pageSize ∣ (protRange arch P addr size).size := by
  rw [protRange_eq addr size hP]
  exact ⟨Nat.dvd_mul_left .., (Nat.dvd_mod_iff (P.pageSize_dvd hP)).2 (dvd_up ..)⟩

/-- Where no page is writable, the copy faults just when the pages that are made writable do not
contain the bytes. -/
theorem write_isSome_iff (hP : P.pageSize < 256 ^ arch.ptrSize)
    (hm : ∀ page, m.protection page = .readExec) (hsize : data.length = size) :
    (CodeHook.write arch P addr data m).isSome ↔
      ∀ a, addr ≤ a → a < addr + size → (protRange arch P addr size).Contains a := by
  constructor
  · intro h a hfirst hlast
    subst hsize
    obtain ⟨hdvd, hdvd'⟩ := protRange_pages addr data.length hP
    obtain ⟨m', hw⟩ := Option.isSome_iff_exists.1 h
    obtain ⟨m₁, hcopy, -⟩ := Option.bind_eq_some_iff.1 hw
    unfold memcpy at hcopy
    split_ifs at hcopy with hwritable
    have hpage := hwritable (a - addr) (by omega)
    rw [Nat.add_sub_cancel' hfirst] at hpage
    by_contra hout
    have hkept : (protectRW arch P addr data.length m).protection (a / P.pageSize) = .readExec :=
      (if_neg fun ht => hout ((ProtRange.touches_div_iff hdvd hdvd').1 ht)).trans (hm _)
    rw [hkept] at hpage
    cases hpage
  · intro h
    obtain ⟨m', hw, -⟩ := write_of_contains hsize h m
    exact hw ▸ rfl

/-- **When a hook is applied.**  With pages that have room for its jump: just when the jump stays in
the page of the hooked address, and else the process faults. -/
theorem apply_isSome_iff (hP : P.pageSize < 256 ^ arch.ptrSize) (hjump : arch.jmpSize ≤ P.pageSize)
    (hwrap : hook.addr + arch.jmpSize ≤ 256 ^ arch.ptrSize)
    (hdata : hook.patchData.length = arch.jmpSize) (hm : ∀ page, m.protection page = .readExec) :
    (hook.apply arch P m).isSome ↔ hook.addr % P.pageSize + arch.jmpSize ≤ P.pageSize := by
  have hpos : 0 < arch.jmpSize := by cases arch <;> decide
  have hroom : arch.jmpSize + P.pageSize ≤ 256 ^ arch.ptrSize := by
    obtain ⟨k, hk⟩ := P.pageSize_dvd hP
    have hk₂ : 2 ≤ k := by
      by_contra hk₁
      have : P.pageSize * k ≤ P.pageSize * 1 := Nat.mul_le_mul_left _ (by omega)
      omega
    have : P.pageSize * 2 ≤ P.pageSize * k := Nat.mul_le_mul_left _ hk₂
    omega
  unfold CodeHook.apply
  rw [write_isSome_iff hP hm hdata, contains_iff hpos ((Nat.le_add_left ..).trans hwrap) hP,
    and_iff_left hroom, Nat.mod_eq_of_lt (by omega : arch.jmpSize - 1 < P.pageSize)]
  omega

end Draconity
