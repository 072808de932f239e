import Mathlib.Data.List.Basic
import Mathlib.Tactic.Ring

namespace SystemProgramming.ByteFile

/-!
# Byte files and little-endian integers

A file is its list of bytes.  `readAt` / `writeAt` are `pread` / `pwrite` of a regular file,
and `encode32` / `decode32` the memory image of an `int`.

* `readAt_writeAt_self`, `readAt_writeAt_of_le` — what is read after a write inside the file:
  the written bytes on its range, the old bytes on a range before or after it;
* `decode32_encode32` — the image of an `int` gives the `int` back.
-/

/-- The bytes a read of `n` bytes at offset `off` returns (fewer at the end of the file). -/
def readAt (f : List UInt8) (off n : ℕ) : List UInt8 := (f.drop off).take n

/-- The file after writing `bs` at offset `off` (a gap past the end is filled with zeros). -/
def writeAt (f : List UInt8) (off : ℕ) (bs : List UInt8) : List UInt8 :=
  f.take off ++ List.replicate (off - f.length) 0 ++ bs ++ f.drop (off + bs.length)

theorem length_readAt {f : List UInt8} {off n : ℕ} (h : off + n ≤ f.length) :
    (readAt f off n).length = n := by
  simp only [readAt, List.length_take, List.length_drop]
  omega

theorem writeAt_of_le {f : List UInt8} {off : ℕ} {bs : List UInt8}
    (h : off + bs.length ≤ f.length) :
    writeAt f off bs = f.take off ++ bs ++ f.drop (off + bs.length) := by
  have hz : off - f.length = 0 := by omega
  simp [writeAt, hz]

theorem length_writeAt {f : List UInt8} {off : ℕ} {bs : List UInt8}
    (h : off + bs.length ≤ f.length) : (writeAt f off bs).length = f.length := by
  simp only [writeAt_of_le h, List.length_append, List.length_take, List.length_drop]
  omega

/-- Reading back what was written. -/
theorem readAt_writeAt_self {f : List UInt8} {off : ℕ} {bs : List UInt8}
    (h : off + bs.length ≤ f.length) : readAt (writeAt f off bs) off bs.length = bs := by
  have hlen : (f.take off).length = off := by simp only [List.length_take]; omega
  rw [readAt, writeAt_of_le h, List.append_assoc, List.drop_append, hlen,
    List.drop_of_length_le (by omega), Nat.sub_self, List.drop_zero, List.nil_append,
    List.take_append, List.take_length, Nat.sub_self, List.take_zero, List.append_nil]

/-- A write leaves every range before it or after it alone. -/
theorem readAt_writeAt_of_le {f : List UInt8} {off off' n : ℕ} {bs : List UInt8}
    (h : off + bs.length ≤ f.length) (hd : off' + n ≤ off ∨ off + bs.length ≤ off') :
    readAt (writeAt f off bs) off' n = readAt f off' n := by
  apply List.ext_getElem?
  intro i
  simp only [readAt, writeAt_of_le h, List.getElem?_take, List.getElem?_drop]
  split
  · rcases hd with hd | hd
    · rw [List.append_assoc, List.getElem?_append_left (by simp only [List.length_take]; omega),
        List.getElem?_take_of_lt (by omega)]
    · rw [List.getElem?_append_right (by simp only [List.length_append, List.length_take]; omega),
        List.getElem?_drop]
      congr 1
      simp only [List.length_append, List.length_take]
      omega
  · rfl

/-! ### The memory image of an `int` -/

/-- The four bytes of an `int`, least significant first. -/
def encode32 (x : Int32) : List UInt8 :=
  let n := x.toUInt32.toNat
  [UInt8.ofNat n, UInt8.ofNat (n / 256), UInt8.ofNat (n / 65536), UInt8.ofNat (n / 16777216)]

/-- The `int` whose image is `b`; missing bytes read as zero. -/
def decode32 (b : List UInt8) : Int32 :=
  (UInt32.ofNat ((b.getD 0 0).toNat + 256 * (b.getD 1 0).toNat + 65536 * (b.getD 2 0).toNat +
    16777216 * (b.getD 3 0).toNat)).toInt32

@[simp] theorem length_encode32 (x : Int32) : (encode32 x).length = 4 := rfl

/-- Decoding reads the first four bytes only. -/
theorem decode32_encode32_append (x : Int32) (r : List UInt8) :
    decode32 (encode32 x ++ r) = x := by
  have hx : x.toUInt32.toNat < 4294967296 := x.toUInt32.toNat_lt
  have hsum : x.toUInt32.toNat % 256 + 256 * (x.toUInt32.toNat / 256 % 256) +
      65536 * (x.toUInt32.toNat / 65536 % 256) +
      16777216 * (x.toUInt32.toNat / 16777216 % 256) = x.toUInt32.toNat := by omega
  simp only [decode32, encode32, List.cons_append, List.getD_cons_zero, List.getD_cons_succ,
    UInt8.toNat_ofNat']
  rw [show (2 : ℕ) ^ 8 = 256 from rfl, hsum]
  simp

end SystemProgramming.ByteFile
