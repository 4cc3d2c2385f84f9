import Mathlib.Data.Nat.Basic
import Mathlib.Data.List.Basic
import Mathlib.Tactic.Ring
import Mathlib.Tactic.NormNum

/-!
Byte-addressed storage and little-endian numbers in it.
A store is a map from addresses to bytes. Loads and stores of a number of
any width, fills and block writes are functions on such maps, and every law
below says which addresses an operation reads or changes.
-/
namespace Bytes

open List Nat

/-- The number whose little-endian digits are the first `n` bytes. -/
def leNat : ℕ → (ℕ → UInt8) → ℕ
  | 0, _ => 0
  | n + 1, f => (f 0).toNat + 256 * leNat n (fun k => f (k + 1))

/-- Digit `k` of a number in base 256. -/
def byteAt (v k : ℕ) : UInt8 := UInt8.ofNat (v / 256 ^ k)

theorem leNat_congr (n : ℕ) (f g : ℕ → UInt8) (h : ∀ k, k < n → f k = g k) :
    leNat n f = leNat n g := by
  induction n generalizing f g with
  | zero => rfl
  | succ n ih =>
    simp only [leNat]
    rw [h 0 (by omega), ih (fun k => f (k + 1)) (fun k => g (k + 1))
      (fun k hk => h (k + 1) (by omega))]

theorem leNat_lt (n : ℕ) (f : ℕ → UInt8) : leNat n f < 256 ^ n := by
  induction n generalizing f with
  | zero => simp [leNat]
  | succ n ih =>
    have h := ih fun k => f (k + 1)
    have hb : (f 0).toNat < 256 := (f 0).toNat_lt
    simp only [leNat, pow_succ]
    omega

/-- Splitting a number into digits and reading them back loses the high part only. -/
theorem leNat_byteAt (n v : ℕ) : leNat n (byteAt v) = v % 256 ^ n := by
  induction n generalizing v with
  | zero => simp [leNat, Nat.mod_one]
  | succ n ih =>
    have hshift : (fun k => byteAt v (k + 1)) = byteAt (v / 256) := by
      funext k
      simp only [byteAt, Nat.pow_succ, Nat.div_div_eq_div_mul, Nat.mul_comm]
    simp only [leNat, hshift, ih]
    have hhead : (byteAt v 0).toNat = v % 256 := by
      simp [byteAt]
    rw [hhead, Nat.pow_succ, Nat.mul_comm (256 ^ n), Nat.mod_mul]

/-- Byte storage. -/
abbrev Store := ℕ → UInt8

variable {m : Store}

/-- Load an `n`-byte little-endian number. -/
def load (n : ℕ) (m : Store) (a : ℕ) : ℕ := leNat n fun k => m (a + k)

/-- Store an `n`-byte little-endian number. -/
def store (n : ℕ) (m : Store) (a v : ℕ) : Store := fun x =>
  if a ≤ x ∧ x < a + n then byteAt v (x - a) else m x

/-- Set `n` bytes from `a` on to one value. -/
def fill (m : Store) (a n : ℕ) (b : UInt8) : Store := fun x =>
  if a ≤ x ∧ x < a + n then b else m x

/-- Write a list of bytes from `a` on. -/
def write (m : Store) (a : ℕ) (l : List UInt8) : Store := fun x =>
  if a ≤ x ∧ x < a + l.length then l.getD (x - a) 0 else m x

/-- Copy `n` bytes from `src` to `dst`. -/
def copy (m : Store) (src dst n : ℕ) : Store := fun x =>
  if dst ≤ x ∧ x < dst + n then m (src + (x - dst)) else m x

/-- The `n` bytes from `a` on. -/
def read (m : Store) (a n : ℕ) : List UInt8 := (List.range n).map fun k => m (a + k)

theorem load_lt (n : ℕ) (m : Store) (a : ℕ) : load n m a < 256 ^ n := leNat_lt n _

theorem load_congr (n : ℕ) (m m' : Store) (a : ℕ)
    (h : ∀ x, a ≤ x → x < a + n → m x = m' x) : load n m a = load n m' a :=
  leNat_congr n _ _ fun k hk => h (a + k) (by omega) (by omega)

theorem store_outside {n : ℕ} {a v x : ℕ} (h : x < a ∨ a + n ≤ x) :
    store n m a v x = m x := by
  unfold store
  rw [if_neg (by omega)]

theorem fill_outside {a n x : ℕ} {b : UInt8} (h : x < a ∨ a + n ≤ x) :
    fill m a n b x = m x := by
  unfold fill
  rw [if_neg (by omega)]

theorem fill_inside {a n x : ℕ} {b : UInt8} (h : a ≤ x) (h' : x < a + n) :
    fill m a n b x = b := by
  unfold fill
  rw [if_pos ⟨h, h'⟩]

theorem write_outside {a x : ℕ} {l : List UInt8} (h : x < a ∨ a + l.length ≤ x) :
    write m a l x = m x := by
  unfold write
  rw [if_neg (by omega)]

theorem copy_outside {src dst n x : ℕ} (h : x < dst ∨ dst + n ≤ x) :
    copy m src dst n x = m x := by
  unfold copy
  rw [if_neg (by omega)]

theorem load_store_same (n : ℕ) (m : Store) (a v : ℕ) :
    load n (store n m a v) a = v % 256 ^ n := by
  rw [← leNat_byteAt]
  apply leNat_congr
  intro k hk
  simp only [store]
  rw [if_pos (by omega)]
  congr 1
  omega

theorem load_store_of_disjoint (n k : ℕ) (m : Store) (a b v : ℕ)
    (h : b + k ≤ a ∨ a + n ≤ b) : load k (store n m a v) b = load k m b :=
  load_congr k _ _ b fun _ hx hx' => store_outside (by omega)

theorem load_fill_inside (n : ℕ) (m : Store) (a len b : ℕ) (c : UInt8)
    (h : a ≤ b) (h' : b + n ≤ a + len) : load n (fill m a len c) b = leNat n fun _ => c :=
  leNat_congr n _ _ fun k hk => fill_inside (by omega) (by omega)

theorem load_fill_zero (n : ℕ) (m : Store) (a len b : ℕ)
    (h : a ≤ b) (h' : b + n ≤ a + len) : load n (fill m a len 0) b = 0 := by
  rw [load_fill_inside n m a len b 0 h h']
  have hz : ∀ n, leNat n (fun _ => (0 : UInt8)) = 0 := by
    intro n
    induction n with
    | zero => rfl
    | succ n ih => simp [leNat, ih]
  exact hz n

theorem read_length (m : Store) (a n : ℕ) : (read m a n).length = n := by
  simp [read]

theorem read_congr (m m' : Store) (a n : ℕ)
    (h : ∀ x, a ≤ x → x < a + n → m x = m' x) : read m a n = read m' a n := by
  unfold read
  apply map_congr_left
  intro k hk
  rw [mem_range] at hk
  exact h (a + k) (by omega) (by omega)

theorem read_zero (m : Store) (a : ℕ) : read m a 0 = [] := rfl

theorem read_add (m : Store) (a n k : ℕ) : read m a (n + k) = read m a n ++ read m (a + n) k := by
  simp [read, range_add, add_assoc]

theorem read_getElem (m : Store) (a n k : ℕ) (h : k < (read m a n).length) :
    (read m a n)[k] = m (a + k) := by
  simp [read]

theorem read_slice (m : Store) (size off len : ℕ) :
    ((read m 0 size).drop off).take len = read m off (min len (size - off)) := by
  refine ext_getElem ?_ fun k h1 h2 => ?_
  · simp only [length_take, length_drop, read_length]
  · rw [getElem_take, getElem_drop, read_getElem, read_getElem, zero_add]

/-- Consecutive writes are one write. -/
theorem write_append (m : Store) (a : ℕ) (l l' : List UInt8) :
    write (write m a l) (a + l.length) l' = write m a (l ++ l') := by
  funext x
  simp only [write, length_append]
  by_cases h : x < a
  · rw [if_neg (by omega), if_neg (by omega), if_neg (by omega)]
  by_cases h1 : x < a + l.length
  · rw [if_neg (by omega), if_pos (by omega), if_pos (by omega)]
    simp [List.getD, List.getElem?_append, show x - a < l.length by omega]
  by_cases h2 : x < a + l.length + l'.length
  · rw [if_pos (by omega), if_pos (by omega)]
    simp [List.getD, List.getElem?_append, show ¬ x - a < l.length by omega,
      show x - (a + l.length) = x - a - l.length by omega]
  · rw [if_neg (by omega), if_neg (by omega), if_neg (by omega)]

theorem write_nil (m : Store) (a : ℕ) : write m a [] = m := by
  funext x
  simp only [write, length_nil]
  rw [if_neg (by omega)]

theorem write_replicate (m : Store) (a n : ℕ) (b : UInt8) :
    write m a (List.replicate n b) = fill m a n b := by
  funext x
  simp only [write, fill, length_replicate]
  split
  · rw [getD_eq_getElem?_getD, List.getElem?_replicate, if_pos (by omega), Option.getD_some]
  · rfl

/-- Replace the bytes from `off` on, after zeros up to `off` where the list is shorter. -/
def overwrite (old : List UInt8) (off : ℕ) (new : List UInt8) : List UInt8 :=
  let base := old ++ List.replicate (off - old.length) 0
  base.take off ++ new ++ base.drop (off + new.length)

theorem overwrite_nil {old : List UInt8} {off : ℕ} (h : off ≤ old.length) :
    overwrite old off [] = old := by
  simp [overwrite, Nat.sub_eq_zero_of_le h]

theorem overwrite_length (old new : List UInt8) (off : ℕ) :
    (overwrite old off new).length = max old.length (off + new.length) := by
  simp only [overwrite, length_append, length_take, length_drop,
    length_replicate]
  omega

/-- A write at the end appends. -/
theorem overwrite_end (old new : List UInt8) : overwrite old old.length new = old ++ new := by
  simp [overwrite, drop_eq_nil_of_le]

/-- What an overwritten list says of the bytes it is read from. -/
theorem read_eq_overwrite {m m' : Store} {size off : ℕ} {new : List UInt8}
    (h : ∀ k, k < max size (off + new.length) →
      m' k = write (fill m size (off - size) 0) off new k) :
    read m' 0 (max size (off + new.length)) = overwrite (read m 0 size) off new := by
  have hbase : read (fill m size (off - size) 0) 0 (max size off) =
      read m 0 size ++ List.replicate (off - (read m 0 size).length) 0 := by
    rw [show max size off = size + (off - size) by omega, read_add, read_length]
    congr 1
    · exact read_congr _ _ _ _ fun x _ hx => fill_outside (by omega)
    · refine ext_getElem (by simp [read_length]) fun k h1 h2 => ?_
      rw [read_getElem, getElem_replicate]
      rw [read_length] at h1
      exact fill_inside (by omega) (by omega)
  unfold overwrite
  simp only [← hbase]
  refine ext_getElem ?_ fun k h1 h2 => ?_
  · simp only [read_length, length_append, length_take, length_drop]
    omega
  · rw [read_length] at h1
    rw [read_getElem, zero_add, h k h1]
    by_cases hlow : k < off
    · have hlen : k < (List.take off (read (fill m size (off - size) 0) 0 (max size off)) ++
          new).length := by
        simp only [length_append, length_take, read_length]
        omega
      rw [getElem_append_left hlen, getElem_append_left
        (by simp only [length_take, read_length]; omega), getElem_take, read_getElem,
        zero_add]
      exact write_outside (by omega)
    · have htake : (List.take off (read (fill m size (off - size) 0) 0 (max size off))).length =
          off := by
        simp only [length_take, read_length]
        omega
      by_cases hmid : k < off + new.length
      · rw [getElem_append_left (by simp only [length_append, htake]; omega),
          getElem_append_right (by omega)]
        simp only [htake, write]
        rw [if_pos (by omega), getD_eq_getElem?_getD, List.getElem?_eq_getElem (by omega),
          Option.getD_some]
      · rw [getElem_append_right (by simp only [length_append, htake]; omega),
          getElem_drop, read_getElem]
        simp only [length_append, htake]
        rw [write_outside (by omega)]
        congr 1
        omega

/-- Reading back a number that was written as part of a longer byte list. -/
theorem load_write_append (m : Store) (a n v : ℕ) (front back : List UInt8) :
    load n (write m a (front ++ (List.range n).map (byteAt v) ++ back)) (a + front.length) =
      v % 256 ^ n := by
  rw [← leNat_byteAt]
  apply leNat_congr
  intro k hk
  simp only [write, length_append, length_map, length_range]
  rw [if_pos (by omega), show a + front.length + k - a = front.length + k by omega]
  simp [List.getD, List.getElem?_append, hk]

/-- Reading back a part of what was written. -/
theorem read_write_append (m : Store) (a : ℕ) (front mid back : List UInt8) :
    read (write m a (front ++ mid ++ back)) (a + front.length) mid.length = mid := by
  refine ext_getElem (read_length _ _ _) fun k h1 h2 => ?_
  rw [read_getElem]
  simp only [write, length_append]
  rw [if_pos (by omega), show a + front.length + k - a = front.length + k by omega]
  simp [List.getD, List.getElem?_append, h2]

theorem load_write_of_disjoint (n : ℕ) (m : Store) (a b : ℕ) (l : List UInt8)
    (h : b + n ≤ a ∨ a + l.length ≤ b) : load n (write m a l) b = load n m b :=
  load_congr n _ _ b fun _ hx hx' => write_outside (by omega)

end Bytes
