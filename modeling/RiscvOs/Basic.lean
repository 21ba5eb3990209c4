import Mathlib
/-!
# Machine integers, memory, and the two ways the kernel stops

The kernel is built for `rv32imacd` (`CMakeLists.txt`): `int`, `long`, `size_t` and a pointer are 32 bits wide.
Addresses, sizes and counters are kept as `Nat`, with the reduction modulo `2 ^ 32` written where an operation can
wrap; machine words are `BitVec xlen`, since the bitmap is written for both word sizes.
-/
namespace RiscvOs

/-- A result truncated to a 32-bit unsigned register. -/
def wrap32 (x : Nat) : Nat := x % 2 ^ 32

def sub32 (a b : Nat) : Nat := (a + (2 ^ 32 - b % 2 ^ 32)) % 2 ^ 32

/-- An unsigned 32-bit value read as `int` or `long`. -/
def toInt32 (x : Nat) : Int := if x % 2 ^ 32 < 2 ^ 31 then (x % 2 ^ 32 : Nat) else (x % 2 ^ 32 : Nat) - (2 ^ 32 : Int)

/-- An `int` read as an unsigned 32-bit value. -/
def toUint32 (i : Int) : Nat := (i % (2 ^ 32 : Int)).toNat

theorem wrap32_of_lt {x : Nat} (h : x < 2 ^ 32) : wrap32 x = x := Nat.mod_eq_of_lt h

theorem wrap32_lt (x : Nat) : wrap32 x < 2 ^ 32 := Nat.mod_lt _ (by decide)

theorem wrap32_sub32_add {a : Nat} (h : a < 2 ^ 32) : wrap32 (sub32 a 1 + 1) = a := by
  unfold wrap32 sub32; omega

theorem sub32_of_le {a b : Nat} (hba : b ≤ a) (ha : a < 2 ^ 32) : sub32 a b = a - b := by
  unfold sub32; omega

theorem toInt32_of_lt {x : Nat} (h : x < 2 ^ 31) : toInt32 x = x := by
  unfold toInt32; split <;> omega

theorem toUint32_lt (i : Int) : toUint32 i < 2 ^ 32 := by
  unfold toUint32; omega

theorem toUint32_toInt32_mod (x : Nat) : toUint32 (toInt32 x) = x % 2 ^ 32 := by
  unfold toUint32 toInt32; split <;> omega

theorem toUint32_toInt32 {x : Nat} (h : x < 2 ^ 32) : toUint32 (toInt32 x) = x := by
  rw [toUint32_toInt32_mod, Nat.mod_eq_of_lt h]

theorem toUint32_natCast {x : Nat} (h : x < 2 ^ 32) : toUint32 x = x := by
  unfold toUint32; omega

theorem toInt32_eq_neg_one_iff {x : Nat} (h : x < 2 ^ 32) : toInt32 x = -1 ↔ x = 2 ^ 32 - 1 := by
  unfold toInt32; split <;> omega

/-- Memory, one word for each address a word is stored at. -/
abbrev Mem (xlen : Nat) := Nat → BitVec xlen

def Mem.store {xlen : Nat} (m : Mem xlen) (a : Nat) (v : BitVec xlen) : Mem xlen := Function.update m a v

theorem Mem.store_apply {xlen : Nat} (m : Mem xlen) (a b : Nat) (v : BitVec xlen) :
    m.store a v b = if b = a then v else m b := by
  simp [Mem.store, Function.update_apply]

/-- The texts `KERNEL_PANIC` is called with. -/
inductive Panic where
  | notEnoughRam (unborrowed : Int)
  | noContinuousSpace
deriving DecidableEq, Repr

def Panic.text : Panic → String
  | .notEnoughRam n     => "not enough RAM available (" ++ toString (toUint32 n) ++ " bytes only)"
  | .noContinuousSpace  =>
    "can't find continuous space for bitmap; non-continuous page bitmaps not supported yet"

/-- Control never comes back from a failed `DEBUG_ASSERT`, nor from `KERNEL_PANIC`: both end in `halt`. -/
inductive Stop where
  | assertion (condition : String)
  | panic (message : Panic)
deriving DecidableEq, Repr

/-- `DEBUG_ASSERT(condition)`: it halts unless the build defines `NDEBUG`. -/
def debugAssert (ndebug : Bool) (condition : Bool) (text : String) : Except Stop Unit :=
  if ndebug || condition then .ok () else .error (.assertion text)

theorem debugAssert_bind {α : Type} (ndebug c : Bool) (text : String) (f : Unit → Except Stop α) :
    (debugAssert ndebug c text >>= f) = if (ndebug || c) = true then f () else .error (.assertion text) := by
  unfold debugAssert
  cases ndebug || c <;> rfl

end RiscvOs
