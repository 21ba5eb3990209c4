import Mathlib
/-!
# Little-endian words in a memory of bytes

Bit `j` of the word at `p` is bit `j % 8` of byte `p + j / 8` (`getLsbD_load`).  A word that has been stored is read
back (`load_store`), and a store elsewhere does not change it (`load_store_of_disjoint`).
-/
namespace LittleEndian

variable {w : Nat}

/-- The first `n` bytes of the word at `p`, each in its place. -/
def loadBytes (m : Nat → BitVec 8) (p : Nat) : (n : Nat) → BitVec w
  | 0     => 0
  | n + 1 => loadBytes m p n ||| ((m (p + n)).setWidth w <<< (8 * n))

def load (m : Nat → BitVec 8) (p : Nat) : BitVec w := loadBytes m p (w / 8)

def store (m : Nat → BitVec 8) (p : Nat) (v : BitVec w) : Nat → BitVec 8 := fun a =>
  if p ≤ a ∧ a < p + w / 8 then v.extractLsb' (8 * (a - p)) 8 else m a

variable {m m' : Nat → BitVec 8} {p q : Nat}

theorem getLsbD_loadBytes (j : Nat) : ∀ n : Nat, (loadBytes m p n : BitVec w).getLsbD j =
    (decide (j < 8 * n) && (decide (j < w) && (m (p + j / 8)).getLsbD (j % 8)))
  | 0 => by simp [loadBytes]
  | n + 1 => by
    rw [loadBytes, BitVec.getLsbD_or, getLsbD_loadBytes j n, BitVec.getLsbD_shiftLeft, BitVec.getLsbD_setWidth]
    by_cases hw : j < w
    · rcases Nat.lt_trichotomy (j / 8) n with h | h | h
      · have hlt : j < 8 * n := by omega
        have hlt' : j < 8 * (n + 1) := by omega
        simp [hw, hlt, hlt']
      · have hge : ¬ j < 8 * n := by omega
        have hlt' : j < 8 * (n + 1) := by omega
        have hbit : j - 8 * n = j % 8 := by omega
        have hin : j % 8 < w := by omega
        simp [hw, hge, hlt', hbit, hin, h]
      · have hge : ¬ j < 8 * n := by omega
        have hge' : ¬ j < 8 * (n + 1) := by omega
        have hbeyond : (m (p + n)).getLsbD (j - 8 * n) = false := BitVec.getLsbD_of_ge _ _ (by omega)
        simp [hge, hge', hbeyond]
    · simp [hw]

theorem getLsbD_load (hw : 8 ∣ w) (j : Nat) :
    (load m p : BitVec w).getLsbD j = (decide (j < w) && (m (p + j / 8)).getLsbD (j % 8)) := by
  rw [load, getLsbD_loadBytes, Nat.mul_div_cancel' hw, ← Bool.and_assoc, Bool.and_self]

/-- **The bytes of a word**, from its lowest. -/
theorem extract_load (hw : 8 ∣ w) {i : Nat} (hi : i < w / 8) :
    (load m p : BitVec w).extractLsb' (8 * i) 8 = m (p + i) := by
  apply BitVec.eq_of_getLsbD_eq
  intro j hj
  have hin : 8 * i + j < w := by omega
  have hbyte : (8 * i + j) / 8 = i := by omega
  have hbit : (8 * i + j) % 8 = j := by omega
  rw [BitVec.getLsbD_extractLsb', getLsbD_load hw, hbyte, hbit, decide_eq_true hj, decide_eq_true hin, Bool.true_and,
    Bool.true_and]

theorem load_congr (h : ∀ i < w / 8, m (p + i) = m' (p + i)) : (load m p : BitVec w) = load m' p := by
  have hbytes : ∀ n ≤ w / 8, (loadBytes m p n : BitVec w) = loadBytes m' p n := by
    intro n
    induction n with
    | zero => exact fun _ => rfl
    | succ n ih =>
      intro hn
      rw [loadBytes, loadBytes, ih (Nat.le_of_succ_le hn), h n hn]
  exact hbytes (w / 8) (Nat.le_refl _)

variable {v : BitVec w} {a : Nat}

theorem store_of_outside (h : a < p ∨ p + w / 8 ≤ a) : store m p v a = m a := by
  unfold store
  rw [if_neg (by omega)]

/-- **A stored word is read back.** -/
theorem load_store (hw : 8 ∣ w) : load (store m p v) p = v := by
  apply BitVec.eq_of_getLsbD_eq
  intro j hj
  have hin : p ≤ p + j / 8 ∧ p + j / 8 < p + w / 8 := by omega
  have hoff : 8 * (p + j / 8 - p) + j % 8 = j := by omega
  rw [getLsbD_load hw, store, if_pos hin, BitVec.getLsbD_extractLsb', hoff, decide_eq_true hj,
    decide_eq_true (Nat.mod_lt j (by decide)), Bool.true_and, Bool.true_and]

/-- **A store leaves the words beside it.** -/
theorem load_store_of_disjoint {w' : Nat} (h : q + w' / 8 ≤ p ∨ p + w / 8 ≤ q) :
    (load (store m p v) q : BitVec w') = load m q := by
  apply load_congr
  intro i hi
  exact store_of_outside (by omega)

end LittleEndian
