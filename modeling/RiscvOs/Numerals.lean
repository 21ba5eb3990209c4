import Mathlib
/-!
# Reading numerals

A text in any alphabet whose letters have a value is read in a base for as long as its letters are digits of that base.
The digits of a number, the most significant first, read back as the number (`read_write`); without the first of them
they read as less (`read_drop_write_lt`).
-/
namespace Numerals

variable {α : Type*} (val : α → Nat) (base : Nat)

/-- The digits at the head of a text, read after a number that came before them. -/
def read : List α → Nat → Nat
  | [], v      => v
  | c :: cs, v => if val c < base then read cs (v * base + val c) else v

/-- No digit comes next. -/
def Ends (cs : List α) : Prop := ∀ c ∈ cs.head?, base ≤ val c

/-- The letters for the digits of a number, the most significant first. -/
def write (letter : Nat → α) (n : Nat) : List α := (base.digits n).reverse.map letter

variable {val base}

theorem ends_nil : Ends val base [] := fun c hc => by cases hc

theorem ends_cons {c : α} {cs : List α} (h : base ≤ val c) : Ends val base (c :: cs) := by
  intro d hd
  cases Option.mem_some_iff.1 hd
  exact h

theorem read_of_ends {cs : List α} (h : Ends val base cs) (v : Nat) : read val base cs v = v := by
  cases cs with
  | nil => rfl
  | cons c cs => exact if_neg (Nat.not_lt.2 (h c rfl))

theorem read_append : ∀ {cs : List α}, (∀ c ∈ cs, val c < base) → ∀ (rest : List α) (v : Nat),
    read val base (cs ++ rest) v = read val base rest (cs.foldl (fun v c => v * base + val c) v)
  | [], _, _, _         => rfl
  | c :: cs, h, rest, v => by
    rw [List.cons_append, read, if_pos (h c List.mem_cons_self), List.foldl_cons]
    exact read_append (fun d hd => h d (List.mem_cons_of_mem c hd)) rest _

/-- Leading zeros change nothing. -/
theorem read_zeros {z : α} (hz : val z = 0) (hbase : 0 < base) (n : Nat) (cs : List α) :
    read val base (List.replicate n z ++ cs) 0 = read val base cs 0 := by
  induction n with
  | zero => rfl
  | succ n ih =>
    rw [List.replicate_succ, List.cons_append, read, hz, if_pos hbase, Nat.zero_mul]
    exact ih

section

variable {letter : Nat → α} (hletter : ∀ d < base, val (letter d) = d)
include hletter

theorem read_letters {ds : List Nat} (hds : ∀ d ∈ ds, d < base) {rest : List α} (hrest : Ends val base rest) :
    read val base (ds.reverse.map letter ++ rest) 0 = Nat.ofDigits base ds := by
  have hall : ∀ c ∈ ds.reverse.map letter, val c < base := by
    intro c hc
    obtain ⟨d, hd, rfl⟩ := List.mem_map.1 hc
    have hlt := hds d (List.mem_reverse.1 hd)
    rw [hletter d hlt]
    exact hlt
  rw [read_append hall, read_of_ends hrest, List.foldl_map, List.foldl_reverse]
  induction ds with
  | nil => rfl
  | cons d ds ih =>
    have hd := hletter d (hds d List.mem_cons_self)
    have htail := ih (fun e he => hds e (List.mem_cons_of_mem d he)) (fun c hc => hall c (by
      rw [List.reverse_cons, List.map_append]
      exact List.mem_append_left _ hc))
    rw [List.foldr_cons, htail, hd, Nat.ofDigits_cons, Nat.mul_comm, Nat.add_comm]

/-- **Round trip**: what `write` writes reads back. -/
theorem read_write (hbase : 1 < base) (n : Nat) {rest : List α} (hrest : Ends val base rest) :
    read val base (write base letter n ++ rest) 0 = n := by
  unfold write
  rw [read_letters hletter (fun d hd => Nat.digits_lt_base hbase hd) hrest, Nat.ofDigits_digits]

/-- Without its first digits a number is smaller. -/
theorem read_drop_write_lt (hbase : 1 < base) {n k : Nat} (hn : n ≠ 0) (hk : 0 < k) {rest : List α}
    (hrest : Ends val base rest) : read val base ((write base letter n).drop k ++ rest) 0 < n := by
  have hdrop : (write base letter n).drop k =
      ((base.digits n).take ((base.digits n).length - k)).reverse.map letter := by
    unfold write
    rw [← List.map_drop, List.drop_reverse]
  have hlt : ∀ d ∈ (base.digits n).take ((base.digits n).length - k), d < base :=
    fun d hd => Nat.digits_lt_base hbase (List.mem_of_mem_take hd)
  have hlen : 0 < (base.digits n).length := List.length_pos_iff.2 (Nat.digits_ne_nil_iff_ne_zero.2 hn)
  rw [hdrop, read_letters hletter hlt hrest]
  refine Nat.lt_of_mul_lt_mul_left (a := base) ?_
  calc base * Nat.ofDigits base ((base.digits n).take ((base.digits n).length - k))
      < base * base ^ ((base.digits n).length - k) := by
        have := Nat.ofDigits_lt_base_pow_length hbase hlt
        rw [List.length_take, Nat.min_eq_left (Nat.sub_le _ _)] at this
        exact Nat.mul_lt_mul_of_pos_left this (Nat.lt_trans Nat.one_pos hbase)
    _ ≤ base ^ (base.digits n).length := by
        rw [← Nat.pow_succ']
        exact Nat.pow_le_pow_right (Nat.lt_trans Nat.one_pos hbase) (by omega)
    _ ≤ base * n := Nat.base_pow_length_digits_le base n hbase hn

end

end Numerals
