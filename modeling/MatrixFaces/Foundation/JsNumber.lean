import MatrixFaces.Foundation.Bytes

set_option autoImplicit false

/-!
# JavaScript's numbers and typed arrays

A number that holds an integer is an `Int`; every integer up to `2 ^ 53` is one.  The
bitwise operators read their operands modulo `2 ^ 32` and answer a signed word, `>>>` an
unsigned one.  An element of a typed array is stored modulo its width.

`bitAnd`, `bitOr`, `bitXor` and the shifts are taken to words of fixed width by `ofInt_bitOr`
and its like, so a program in this arithmetic is compared with one over words.
-/

namespace MatrixFaces.Foundation.Js

@[simp] theorem ofInt_natCast (word : UInt32) : UInt32.ofInt (word.toNat : Int) = word := by
  have hmod : ((word.toNat : Int) % 2 ^ 32).toNat = word.toNat := by
    have hlt := word.toNat_lt
    omega
  rw [UInt32.ofInt, hmod, UInt32.ofNat_toNat]

theorem ofInt_ofNat (n : Nat) : UInt32.ofInt (no_index (OfNat.ofNat n)) = OfNat.ofNat n := by
  have hmod : ((n : Int) % 2 ^ 32).toNat = n % 2 ^ 32 := by omega
  change UInt32.ofNat ((n : Int) % 2 ^ 32).toNat = UInt32.ofNat n
  rw [hmod]
  exact UInt32.ofNat_mod_size

theorem ofInt_sub (x y : Int) : UInt32.ofInt (x - y) = UInt32.ofInt x - UInt32.ofInt y := by
  rw [Int.sub_eq_add_neg, UInt32.ofInt_add, UInt32.ofInt_neg, ← UInt32.sub_eq_add_neg]

/-- A word read as a signed number. -/
def signed (word : UInt32) : Int := Int.bmod word.toNat (2 ^ 32)

@[simp] theorem ofInt_signed (word : UInt32) : UInt32.ofInt (signed word) = word := by
  have hmod : signed word % 2 ^ 32 = (word.toNat : Int) % 2 ^ 32 := Int.bmod_emod
  rw [UInt32.ofInt, hmod, ← UInt32.ofInt, ofInt_natCast]

/-! ## The operators -/

/-- `x & y` -/
def bitAnd (x y : Int) : Int := signed (UInt32.ofInt x &&& UInt32.ofInt y)

/-- `x | y` -/
def bitOr (x y : Int) : Int := signed (UInt32.ofInt x ||| UInt32.ofInt y)

/-- `x ^ y` -/
def bitXor (x y : Int) : Int := signed (UInt32.ofInt x ^^^ UInt32.ofInt y)

/-- `~x` -/
def bitNot (x : Int) : Int := signed (~~~UInt32.ofInt x)

/-- `x << n` -/
def shiftLeft (x n : Int) : Int := signed (UInt32.ofInt x <<< UInt32.ofInt n)

/-- `x >>> n` -/
def shiftRight (x n : Int) : Int := ((UInt32.ofInt x >>> UInt32.ofInt n).toNat : Int)

@[simp] theorem ofInt_bitAnd (x y : Int) :
    UInt32.ofInt (bitAnd x y) = UInt32.ofInt x &&& UInt32.ofInt y := ofInt_signed _

@[simp] theorem ofInt_bitOr (x y : Int) :
    UInt32.ofInt (bitOr x y) = UInt32.ofInt x ||| UInt32.ofInt y := ofInt_signed _

@[simp] theorem ofInt_bitXor (x y : Int) :
    UInt32.ofInt (bitXor x y) = UInt32.ofInt x ^^^ UInt32.ofInt y := ofInt_signed _

@[simp] theorem ofInt_bitNot (x : Int) : UInt32.ofInt (bitNot x) = ~~~UInt32.ofInt x :=
  ofInt_signed _

@[simp] theorem ofInt_shiftLeft (x n : Int) :
    UInt32.ofInt (shiftLeft x n) = UInt32.ofInt x <<< UInt32.ofInt n := ofInt_signed _

@[simp] theorem ofInt_shiftRight (x n : Int) :
    UInt32.ofInt (shiftRight x n) = UInt32.ofInt x >>> UInt32.ofInt n := ofInt_natCast _

/-! ### The low byte -/

theorem toUInt8_ofInt (x : Int) : (UInt32.ofInt x).toUInt8 = UInt8.ofInt x := by
  apply UInt8.toNat_inj.mp
  rw [UInt32.toNat_toUInt8, UInt32.ofInt, UInt32.toNat_ofNat', UInt8.ofInt, UInt8.toNat_ofNat']
  omega

theorem ofInt8_signed (word : UInt32) : UInt8.ofInt (signed word) = word.toUInt8 := by
  rw [← toUInt8_ofInt, ofInt_signed]

theorem ofInt8_bitXor (x y : Int) :
    UInt8.ofInt (bitXor x y) = UInt8.ofInt x ^^^ UInt8.ofInt y := by
  rw [bitXor, ofInt8_signed, UInt32.toUInt8_xor, toUInt8_ofInt, toUInt8_ofInt]

theorem ofInt8_natCast (byte : UInt8) : UInt8.ofInt (byte.toNat : Int) = byte := by
  have hmod : ((byte.toNat : Int) % 2 ^ 8).toNat = byte.toNat := by
    have hlt := byte.toNat_lt
    omega
  rw [UInt8.ofInt, hmod, UInt8.ofNat_toNat]

/-! ## Typed arrays -/

/-- `Uint8Array`. -/
abbrev Uint8Array := List UInt8

/-- `Uint32Array`. -/
abbrev Uint32Array := List UInt32

/-- `array[i]` -/
def Uint8Array.read (array : Uint8Array) (i : Nat) : Int := ((array.getD i 0).toNat : Int)

/-- `array[i] = x` -/
def Uint8Array.write (array : Uint8Array) (i : Nat) (x : Int) : Uint8Array :=
  array.set i (UInt8.ofInt x)

/-- `array[i]` -/
def Uint32Array.read (array : Uint32Array) (i : Nat) : Int := ((array.getD i 0).toNat : Int)

/-- `array[i] = x` -/
def Uint32Array.write (array : Uint32Array) (i : Nat) (x : Int) : Uint32Array :=
  array.set i (UInt32.ofInt x)

@[simp] theorem ofInt_read (array : Uint32Array) (i : Nat) :
    UInt32.ofInt (array.read i) = array.getD i 0 := ofInt_natCast _

/-- `new Uint8Array(n)` after `set(bytes)`. -/
def Uint8Array.filled (n : Nat) (bytes : Bytes) : Uint8Array :=
  bytes ++ List.replicate (n - bytes.length) 0

/-! ### `DataView`, big-endian -/

/-- The word at an offset. -/
def uint32At (view : Uint8Array) (at_ : Nat) : UInt32 :=
  (view.getD at_ 0).toUInt32 <<< 24 ||| (view.getD (at_ + 1) 0).toUInt32 <<< 16 |||
    (view.getD (at_ + 2) 0).toUInt32 <<< 8 ||| (view.getD (at_ + 3) 0).toUInt32

/-- The bytes of a word. -/
def uint32Bytes (word : UInt32) : Bytes :=
  [(word >>> 24).toUInt8, (word >>> 16).toUInt8, (word >>> 8).toUInt8, word.toUInt8]

/-- `view.getUint32(at, false)` -/
def getUint32 (view : Uint8Array) (at_ : Nat) : Int := ((uint32At view at_).toNat : Int)

/-- `view.setUint32(at, x, false)` -/
def setUint32 (view : Uint8Array) (at_ : Nat) (x : Int) : Uint8Array :=
  view.take at_ ++ uint32Bytes (UInt32.ofInt x) ++ view.drop (at_ + 4)

@[simp] theorem ofInt_getUint32 (view : Uint8Array) (at_ : Nat) :
    UInt32.ofInt (getUint32 view at_) = uint32At view at_ := ofInt_natCast _

theorem setUint32_append {front old : Uint8Array} (hold : old.length = 4) (back : Uint8Array)
    (x : Int) :
    setUint32 (front ++ old ++ back) front.length x =
      front ++ uint32Bytes (UInt32.ofInt x) ++ back := by
  rw [setUint32, List.append_assoc front old back, List.take_left, ← hold,
    ← List.drop_drop, List.drop_left, List.drop_left]

/-! ## Filling an array -/

/-- Writing a list from one of its positions on, each entry from those before it, is
appending to the part before. -/
theorem foldl_set_eq {Item : Type} {entry : List Item → Nat → Item} {start : Nat}
    (hentry : ∀ front back : List Item, start ≤ front.length →
      entry (front ++ back) front.length = entry front front.length)
    {front back : List Item} (hfront : front.length = start) {n : Nat} (hroom : n ≤ back.length) :
    (List.range n).foldl (fun w i => w.set (i + start) (entry w (i + start))) (front ++ back) =
      (List.range n).foldl (fun w i => w ++ [entry w (i + start)]) front ++ back.drop n ∧
    ((List.range n).foldl (fun w i => w ++ [entry w (i + start)]) front).length = n + start := by
  induction n with
  | zero => simp [hfront]
  | succ n ih =>
      obtain ⟨hfill, hlength⟩ := ih (by omega)
      rw [List.range_succ, List.foldl_append, List.foldl_append, hfill]
      simp only [List.foldl_cons, List.foldl_nil]
      generalize (List.range n).foldl (fun w i => w ++ [entry w (i + start)]) front = filled at *
      refine ⟨?_, by rw [List.length_append, List.length_singleton, hlength]; omega⟩
      rw [List.drop_eq_getElem_cons (by omega), ← hlength, hentry filled _ (by omega),
        List.set_append_right _ _ (Nat.le_refl _), Nat.sub_self, List.set_cons_zero,
        List.append_assoc, List.singleton_append]

end MatrixFaces.Foundation.Js
