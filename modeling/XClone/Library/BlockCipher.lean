import XClone.Library.Bytes
import Mathlib.Data.List.OfFn
import Mathlib.Logic.Equiv.Basic

/-! # Cipher block chaining with a padded last block

The block cipher is an arbitrary permutation of blocks of `n` bytes. A message is
padded with `1..n` copies of the pad length, cut into blocks, and chained from a
fixed initial vector. The padded mode is injective, for every message length.
-/
namespace BlockCipher

abbrev Block (n : ℕ) := Fin n → UInt8

variable {n : ℕ}

def xorBlock (a b : Block n) : Block n := fun i => a i ^^^ b i

theorem xorBlock_right_injective (b : Block n) : Function.Injective (xorBlock · b) := by
  intro x y h
  funext i
  have hi : x i ^^^ b i = y i ^^^ b i := congrFun h i
  calc x i = x i ^^^ b i ^^^ b i := by rw [UInt8.xor_assoc, UInt8.xor_self, UInt8.xor_zero]
    _ = y i ^^^ b i ^^^ b i := by rw [hi]
    _ = y i := by rw [UInt8.xor_assoc, UInt8.xor_self, UInt8.xor_zero]

/-- Chain the blocks: each one is masked with the cipher text before it. -/
def cbcEncrypt (E : Equiv.Perm (Block n)) : Block n → List (Block n) → List (Block n)
  | _, [] => []
  | iv, b :: bs => E (xorBlock b iv) :: cbcEncrypt E (E (xorBlock b iv)) bs

@[simp] theorem length_cbcEncrypt (E : Equiv.Perm (Block n)) (iv : Block n) (bs : List (Block n)) :
    (cbcEncrypt E iv bs).length = bs.length := by
  induction bs generalizing iv with
  | nil => rfl
  | cons b bs ih => simp only [cbcEncrypt, List.length_cons, ih]

theorem cbcEncrypt_injective (E : Equiv.Perm (Block n)) (iv : Block n) :
    Function.Injective (cbcEncrypt E iv) := by
  intro xs ys h
  induction xs generalizing iv ys with
  | nil =>
    cases ys with
    | nil => rfl
    | cons y ys => cases h
  | cons x xs ih =>
    cases ys with
    | nil => cases h
    | cons y ys =>
      obtain ⟨hhead,htail⟩ := List.cons.inj h
      rw [hhead] at htail
      rw [xorBlock_right_injective iv (E.injective hhead), ih _ htail]

/-! ## Blocks as bytes -/

def blockOf (n : ℕ) (bs : List UInt8) : Block n := fun i => bs.getD i 0

def toBlocks (n : ℕ) (bs : List UInt8) : List (Block n) := (Bytes.chunks n bs).map (blockOf n)

def ofBlocks (bs : List (Block n)) : List UInt8 := bs.flatMap List.ofFn

@[simp] theorem length_ofBlocks (bs : List (Block n)) : (ofBlocks bs).length = n * bs.length := by
  induction bs with
  | nil => rfl
  | cons b bs ih =>
    change (List.ofFn b ++ ofBlocks bs).length = _
    rw [List.length_append, ih, List.length_ofFn, List.length_cons]
    ring

theorem ofFn_blockOf {bs : List UInt8} (h : bs.length = n) : List.ofFn (blockOf n bs) = bs := by
  subst h
  apply List.ext_getElem (List.length_ofFn)
  intro i h1 h2
  simp [blockOf, h2]

/-- Cutting whole blocks into blocks and joining them again changes nothing. -/
theorem ofBlocks_toBlocks (hn : 0 < n) {bs : List UInt8} (h : n ∣ bs.length) :
    ofBlocks (toBlocks n bs) = bs := by
  induction bs using Bytes.chunk_induction hn with
  | nil => rfl
  | step bs hne ih =>
    have hle : n ≤ bs.length := Nat.le_of_dvd (List.length_pos_of_ne_nil hne) h
    have hd : n ∣ (bs.drop n).length := by
      rw [List.length_drop]
      exact Nat.dvd_sub h (dvd_refl n)
    simp only [toBlocks, ofBlocks] at ih ⊢
    rw [Bytes.chunks_of_ne_nil hn hne, List.map_cons, List.flatMap_cons, ih hd,
      ofFn_blockOf (List.length_take_of_le hle), List.take_append_drop]

theorem ofBlocks_injective (hn : 0 < n) : Function.Injective (ofBlocks (n := n)) := by
  intro xs ys h
  have hlen : n * xs.length = n * ys.length := by
    rw [← length_ofBlocks, ← length_ofBlocks, h]
  have hcount : xs.length = ys.length := Nat.eq_of_mul_eq_mul_left hn hlen
  clear hlen
  induction xs generalizing ys with
  | nil => exact (List.length_eq_zero_iff.mp hcount.symm).symm
  | cons x xs ih =>
    cases ys with
    | nil => cases hcount
    | cons y ys =>
      have happ : List.ofFn x ++ ofBlocks xs = List.ofFn y ++ ofBlocks ys := h
      obtain ⟨hhead,htail⟩ := List.append_inj happ (by simp)
      rw [List.ofFn_injective hhead, ih htail (by simpa using hcount)]

theorem length_toBlocks (hn : 0 < n) {bs : List UInt8} (h : n ∣ bs.length) :
    n * (toBlocks n bs).length = bs.length := by
  rw [← length_ofBlocks, ofBlocks_toBlocks hn h]

/-! ## Padding -/

/-- The number of pad bytes, between `1` and `n`. -/
def padLength (n len : ℕ) : ℕ := n - len % n

theorem padLength_pos (hn : 0 < n) (len : ℕ) : 0 < padLength n len :=
  Nat.sub_pos_of_lt (Nat.mod_lt len hn)

theorem padLength_le (n len : ℕ) : padLength n len ≤ n := Nat.sub_le _ _

theorem dvd_add_padLength (hn : 0 < n) (len : ℕ) : n ∣ len + padLength n len := by
  have hm := Nat.mod_lt len hn
  have hd := Nat.mod_add_div len n
  refine ⟨len / n + 1,?_⟩
  rw [padLength, Nat.mul_add, Nat.mul_one]
  omega

def pad (n : ℕ) (bs : List UInt8) : List UInt8 :=
  bs ++ List.replicate (padLength n bs.length) (UInt8.ofNat (padLength n bs.length))

theorem length_pad (n : ℕ) (bs : List UInt8) :
    (pad n bs).length = bs.length + padLength n bs.length := by
  rw [pad, List.length_append, List.length_replicate]

/-- The last byte tells the pad length, so padding loses nothing. -/
theorem pad_injective (hn : 0 < n) (hn' : n < 256) : Function.Injective (pad n) := by
  intro x y h
  have hlast : ∀ bs : List UInt8, (pad n bs).getLast? = some (UInt8.ofNat (padLength n bs.length)) := by
    intro bs
    have hp := padLength_pos hn bs.length
    rw [pad, List.getLast?_append, List.getLast?_replicate, if_neg (by omega), Option.some_or]
  have hb : UInt8.ofNat (padLength n x.length) = UInt8.ofNat (padLength n y.length) := by
    have := (hlast x).symm.trans ((congrArg List.getLast? h).trans (hlast y))
    exact Option.some.inj this
  have hp : padLength n x.length = padLength n y.length := by
    have hx := padLength_le n x.length
    have hy := padLength_le n y.length
    have := congrArg UInt8.toNat hb
    rwa [UInt8.toNat_ofNat_of_lt' (hx.trans_lt hn'), UInt8.toNat_ofNat_of_lt' (hy.trans_lt hn')] at this
  have hl := congrArg List.length h
  rw [length_pad, length_pad, hp] at hl
  exact (List.append_inj h (by omega)).1

/-- The whole mode on a byte message. -/
def encryptBytes (E : Equiv.Perm (Block n)) (iv : Block n) (bs : List UInt8) : List UInt8 :=
  ofBlocks (cbcEncrypt E iv (toBlocks n bs))

theorem length_encryptBytes (hn : 0 < n) (E : Equiv.Perm (Block n)) (iv : Block n) {bs : List UInt8}
    (h : n ∣ bs.length) : (encryptBytes E iv bs).length = bs.length := by
  rw [encryptBytes, length_ofBlocks, length_cbcEncrypt, length_toBlocks hn h]

theorem encryptBytes_pad_injective (hn : 0 < n) (hn' : n < 256) (E : Equiv.Perm (Block n))
    (iv : Block n) : Function.Injective (fun bs => encryptBytes E iv (pad n bs)) := by
  intro x y h
  have hb := cbcEncrypt_injective E iv (ofBlocks_injective hn h)
  have hx : n ∣ (pad n x).length := length_pad n x ▸ dvd_add_padLength hn _
  have hy : n ∣ (pad n y).length := length_pad n y ▸ dvd_add_padLength hn _
  apply pad_injective hn hn'
  rw [← ofBlocks_toBlocks hn hx, ← ofBlocks_toBlocks hn hy, hb]

end BlockCipher
