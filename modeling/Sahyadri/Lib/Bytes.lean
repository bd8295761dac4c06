import Mathlib.Tactic.Common
import Mathlib.Tactic.Ring
import Mathlib.Data.List.Basic

/-!
# Little-endian numbers in byte lists, and saturating 64-bit arithmetic

* `leBytes n v`: the low `n` bytes of `v`, lowest first; `ofLe` reads such a list back.
  `ofLe_leBytes` and `leBytes_ofLe` are the two round trips.
-/

namespace Sahyadri.Lib

open List

/-! ## 1. Little-endian numbers -/

abbrev Bytes := List UInt8

/-- The low `n` bytes of `v`, lowest first. -/
def leBytes : Nat → Nat → Bytes
  | 0, _ => []
  | n + 1, v => UInt8.ofNat v :: leBytes n (v / 256)

/-- The number a byte list stands for, lowest byte first. -/
def ofLe : Bytes → Nat
  | [] => 0
  | b :: bs => b.toNat + 256 * ofLe bs

@[simp] theorem length_leBytes (n v : Nat) : (leBytes n v).length = n := by
  induction n generalizing v with
  | zero => rfl
  | succ n ih => simp [leBytes, ih]

theorem ofLe_lt (bs : Bytes) : ofLe bs < 256 ^ bs.length := by
  induction bs with
  | nil => simp [ofLe]
  | cons b bs ih =>
    have hb := b.toNat_lt
    simp only [ofLe, length_cons, Nat.pow_succ]
    omega

theorem ofLe_leBytes (n v : Nat) : ofLe (leBytes n v) = v % 256 ^ n := by
  induction n generalizing v with
  | zero => simp [leBytes, ofLe, Nat.mod_one]
  | succ n ih =>
    have hm : 256 ^ (n + 1) = 256 * 256 ^ n := by ring
    rw [leBytes, ofLe, ih, UInt8.toNat_ofNat', hm, Nat.mod_mul]

theorem leBytes_ofLe (bs : Bytes) : leBytes bs.length (ofLe bs) = bs := by
  induction bs with
  | nil => rfl
  | cons b bs ih =>
    have hb := b.toNat_lt
    have h1 : (b.toNat + 256 * ofLe bs) / 256 = ofLe bs := by omega
    have h2 : UInt8.ofNat (b.toNat + 256 * ofLe bs) = b := by
      apply UInt8.toNat_inj.mp
      rw [UInt8.toNat_ofNat']
      omega
    simp only [length_cons, leBytes, ofLe, h1, h2, ih]

variable {n v w : Nat}

theorem ofLe_leBytes_of_lt (h : v < 256 ^ n) : ofLe (leBytes n v) = v := by
  rw [ofLe_leBytes, Nat.mod_eq_of_lt h]

theorem leBytes_inj (hv : v < 256 ^ n) (hw : w < 256 ^ n) (h : leBytes n v = leBytes n w) :
    v = w := by
  rw [← ofLe_leBytes_of_lt hv, h, ofLe_leBytes_of_lt hw]

def u64Le (x : UInt64) : Bytes := leBytes 8 x.toNat

@[simp] theorem length_u64Le (x : UInt64) : (u64Le x).length = 8 := length_leBytes 8 _

theorem u64Le_inj {x y : UInt64} (h : u64Le x = u64Le y) : x = y := by
  have hx := x.toNat_lt
  have hy := y.toNat_lt
  exact UInt64.toNat_inj.mp (leBytes_inj (by omega) (by omega) h)

def ofU64Le (bs : Bytes) : UInt64 := UInt64.ofNat (ofLe bs)

theorem u64Le_ofU64Le {bs : Bytes} (h : bs.length = 8) : u64Le (ofU64Le bs) = bs := by
  have hlt := ofLe_lt bs
  rw [h] at hlt
  rw [u64Le, ofU64Le, UInt64.toNat_ofNat', Nat.mod_eq_of_lt (by omega), ← h]
  exact leBytes_ofLe bs

@[simp] theorem ofU64Le_u64Le (x : UInt64) : ofU64Le (u64Le x) = x := by
  have hx := x.toNat_lt
  apply UInt64.toNat_inj.mp
  rw [ofU64Le, u64Le, ofLe_leBytes_of_lt (by omega), UInt64.toNat_ofNat']
  omega

/-- Encodings of one length, one after the other, can be told apart. -/
theorem flatMap_inj_of_length {α : Type} {f : α → Bytes} (hn : 0 < n) (hf : ∀ a, (f a).length = n) :
    ∀ {xs ys : List α}, xs.flatMap f = ys.flatMap f → xs.map f = ys.map f
  | [], [], _ => rfl
  | [], y :: ys, h => by
    have := congrArg length h
    simp only [flatMap_nil, length_nil, flatMap_cons, length_append, hf] at this
    omega
  | x :: xs, [], h => by
    have := congrArg length h
    simp only [flatMap_nil, length_nil, flatMap_cons, length_append, hf] at this
    omega
  | x :: xs, y :: ys, h => by
    obtain ⟨h1, h2⟩ := append_inj h (by rw [hf, hf])
    rw [map_cons, map_cons, h1, flatMap_inj_of_length hn hf h2]

/-- The first `n` bytes and the rest, if there are that many. -/
def readN (n : Nat) (bs : Bytes) : Option (Bytes × Bytes) :=
  if n ≤ bs.length then some (bs.take n, bs.drop n) else none

theorem readN_append {as : Bytes} (h : as.length = n) (bs : Bytes) :
    readN n (as ++ bs) = some (as, bs) := by
  subst h
  simp [readN]

theorem readN_eq_some {bs as rest : Bytes} (h : readN n bs = some (as, rest)) :
    bs = as ++ rest ∧ as.length = n := by
  unfold readN at h
  split at h
  · rename_i hn
    cases h
    exact ⟨(take_append_drop n bs).symm, by rw [length_take]; omega⟩
  · cases h

/-! ## 2. Saturating arithmetic -/

variable (a b : UInt64)

/-- `u64::saturating_add`. -/
def satAdd : UInt64 := UInt64.ofNat (min (a.toNat + b.toNat) (2 ^ 64 - 1))

/-- `u64::saturating_sub`. -/
def satSub : UInt64 := UInt64.ofNat (a.toNat - b.toNat)

theorem toNat_satAdd : (satAdd a b).toNat = min (a.toNat + b.toNat) (2 ^ 64 - 1) := by
  rw [satAdd, UInt64.toNat_ofNat']
  omega

theorem toNat_satSub : (satSub a b).toNat = a.toNat - b.toNat := by
  have ha := a.toNat_lt
  rw [satSub, UInt64.toNat_ofNat']
  omega

end Sahyadri.Lib
