import RiscvOs.Basic
import RiscvOs.Halves
/-!
# `timer_sleep` on a 32-bit hart (`riscv/timer.c`)

The counter and the comparator of the timer are 64 bits wide.  A 32-bit hart loads and stores them half by half, the
low half first, while the counter keeps running.
-/
namespace RiscvOs

open Halves (low high join)

/-- The registers of the timer. -/
structure Timer where
  mtime : Nat
  mtimecmp : Nat
  mtime_lt : mtime < 2 ^ 64
  mtimecmp_lt : mtimecmp < 2 ^ 64

theorem high_lt {x : Nat} (h : x < 2 ^ 64) : high (2 ^ 32) x < 2 ^ 32 := by
  unfold high
  omega

theorem join_wrap32_lt (lo hi : Nat) : join (2 ^ 32) (wrap32 lo) (wrap32 hi) < 2 ^ 64 :=
  Halves.join_lt (wrap32_lt lo) (wrap32_lt hi)

theorem join_wrap32 {lo : Nat} (hi : Nat) (hlo : lo < 2 ^ 32) :
    join (2 ^ 32) lo (wrap32 hi) = join (2 ^ 32) lo hi % 2 ^ 64 := by
  unfold join wrap32
  omega

namespace Timer

/-- The counter runs on. -/
def wait (d : Timer) (ticks : Nat) : Timer :=
  { d with mtime := (d.mtime + ticks) % 2 ^ 64, mtime_lt := Nat.mod_lt _ (by decide) }

/-- `mtimecmp[0] = v`. -/
def storeLow (d : Timer) (v : Nat) : Timer :=
  { d with
    mtimecmp := join (2 ^ 32) (wrap32 v) (wrap32 (high (2 ^ 32) d.mtimecmp))
    mtimecmp_lt := join_wrap32_lt _ _ }

/-- `mtimecmp[1] = v`. -/
def storeHigh (d : Timer) (v : Nat) : Timer :=
  { d with
    mtimecmp := join (2 ^ 32) (wrap32 (low (2 ^ 32) d.mtimecmp)) (wrap32 v)
    mtimecmp_lt := join_wrap32_lt _ _ }

/-- The timer interrupt is pending. -/
def Pending (d : Timer) : Prop := d.mtimecmp ≤ d.mtime

instance (d : Timer) : Decidable d.Pending := inferInstanceAs (Decidable (_ ≤ _))

end Timer

/-- The timer between the two stores of `timer_sleep`, and after them. -/
structure Sleep where
  between : Timer
  done : Timer

/-- `timer_sleep(cycles)`, with the ticks that pass between its four accesses to the timer. -/
def timerSleep (cycles : Nat) (d : Timer) (ticks₁ ticks₂ ticks₃ : Nat) : Sleep :=
  let lowerMtime := low (2 ^ 32) d.mtime
  let d := d.wait ticks₁
  let higherMtime := high (2 ^ 32) d.mtime
  let newMtimecmpLo := wrap32 (lowerMtime + cycles)
  let higherMtime := if newMtimecmpLo < lowerMtime then wrap32 (higherMtime + 1) else higherMtime
  let d := (d.wait ticks₂).storeLow newMtimecmpLo
  ⟨d, (d.wait ticks₃).storeHigh higherMtime⟩

section

variable (cycles : Nat) (d : Timer) (ticks₁ ticks₂ ticks₃ : Nat)

/-- **Between the stores** the comparator has the new low half and the old high half. -/
theorem timerSleep_between : (timerSleep cycles d ticks₁ ticks₂ ticks₃).between.mtimecmp =
    join (2 ^ 32) (low (2 ^ 32) (d.mtime + cycles)) (high (2 ^ 32) d.mtimecmp) := by
  have hlow : wrap32 (wrap32 (low (2 ^ 32) d.mtime + cycles)) = low (2 ^ 32) (d.mtime + cycles) := by
    unfold wrap32 low
    omega
  change join (2 ^ 32) (wrap32 (wrap32 (low (2 ^ 32) d.mtime + cycles))) (wrap32 (high (2 ^ 32) d.mtimecmp)) = _
  rw [hlow, wrap32_of_lt (high_lt d.mtimecmp_lt)]

theorem timerSleep_between_mtime : (timerSleep cycles d ticks₁ ticks₂ ticks₃).between.mtime =
    (d.mtime + ticks₁ + ticks₂) % 2 ^ 64 := by
  change ((d.mtime + ticks₁) % 2 ^ 64 + ticks₂) % 2 ^ 64 = _
  rw [Nat.mod_add_mod]

/-- **After the stores** the comparator is the loaded halves and `cycles`, added up. -/
theorem timerSleep_done (hc : cycles < 2 ^ 32) : (timerSleep cycles d ticks₁ ticks₂ ticks₃).done.mtimecmp =
    (join (2 ^ 32) (low (2 ^ 32) d.mtime) (high (2 ^ 32) (d.wait ticks₁).mtime) + cycles) % 2 ^ 64 := by
  have hlower : low (2 ^ 32) d.mtime < 2 ^ 32 := wrap32_lt d.mtime
  have hwrap : ∀ x, wrap32 (wrap32 x) = wrap32 x := fun x => wrap32_of_lt (wrap32_lt x)
  have hstored : (timerSleep cycles d ticks₁ ticks₂ ticks₃).done.mtimecmp =
      join (2 ^ 32) (wrap32 (low (2 ^ 32) d.mtime + cycles))
        (wrap32 (if wrap32 (low (2 ^ 32) d.mtime + cycles) < low (2 ^ 32) d.mtime
          then high (2 ^ 32) (d.wait ticks₁).mtime + 1 else high (2 ^ 32) (d.wait ticks₁).mtime)) := by
    simp only [timerSleep, Timer.storeHigh, Timer.storeLow, Timer.wait, Halves.low_join (wrap32_lt _), hwrap]
    split
    · rw [hwrap]
    · rfl
  rw [hstored, join_wrap32 _ (wrap32_lt _)]
  exact congrArg (· % 2 ^ 64) (Halves.join_carry hlower hc)

end

/-! ## The deadline -/

/-- **The deadline lies between the two that were asked for exactly when the counter's low half at the second load is
not below the one that was loaded**: no wrap of the low half falls between the loads, or it has come round again. -/
theorem timerSleep_deadline_iff (cycles : Nat) (d : Timer) (ticks₁ ticks₂ ticks₃ : Nat) (hc : cycles < 2 ^ 32)
    (hfit : d.mtime + ticks₁ + cycles < 2 ^ 64) :
    (d.mtime + cycles ≤ (timerSleep cycles d ticks₁ ticks₂ ticks₃).done.mtimecmp ∧
        (timerSleep cycles d ticks₁ ticks₂ ticks₃).done.mtimecmp ≤ d.mtime + ticks₁ + cycles) ↔
      d.mtime % 2 ^ 32 ≤ (d.mtime + ticks₁) % 2 ^ 32 := by
  have hmtime : (d.wait ticks₁).mtime = d.mtime + ticks₁ := Nat.mod_eq_of_lt (by omega)
  rw [timerSleep_done cycles d ticks₁ ticks₂ ticks₃ hc, hmtime]
  -- the halves that were loaded make up the counter of the second load, off by the difference of the low halves
  have hloaded : join (2 ^ 32) (low (2 ^ 32) d.mtime) (high (2 ^ 32) (d.mtime + ticks₁)) + (d.mtime + ticks₁) % 2 ^ 32 =
      d.mtime + ticks₁ + d.mtime % 2 ^ 32 := by
    unfold join low high
    omega
  have hhigh : d.mtime ≤ join (2 ^ 32) (low (2 ^ 32) d.mtime) (high (2 ^ 32) (d.mtime + ticks₁)) := by
    unfold join low high
    omega
  constructor
  · rintro ⟨hearly, hlate⟩
    by_contra hwrapped
    rcases Nat.lt_or_ge (join (2 ^ 32) (low (2 ^ 32) d.mtime) (high (2 ^ 32) (d.mtime + ticks₁)) + cycles) (2 ^ 64)
      with h | h
    · rw [Nat.mod_eq_of_lt h] at hlate
      omega
    · omega
  · intro hle
    rw [Nat.mod_eq_of_lt (by omega)]
    omega

theorem timerSleep_deadline_iff_nextTick :
    (0x1fffffff0 + 0x40 ≤ (timerSleep 0x40 ⟨0x1fffffff0, 0, by decide, by decide⟩ 1 1 1).done.mtimecmp ∧
        (timerSleep 0x40 ⟨0x1fffffff0, 0, by decide, by decide⟩ 1 1 1).done.mtimecmp ≤ 0x1fffffff0 + 1 + 0x40) ↔
      0x1fffffff0 % 2 ^ 32 ≤ (0x1fffffff0 + 1) % 2 ^ 32 :=
  timerSleep_deadline_iff 0x40 ⟨0x1fffffff0, 0, by decide, by decide⟩ 1 1 1 (by decide) (by decide)

/-- The low half wraps between the loads: ten cycles become more than `2 ^ 32`. -/
theorem deadline_late :
    (timerSleep 10 ⟨0xffffffff, 0, by decide, by decide⟩ 1 0 0).done.mtimecmp = 0x200000009 ∧
      ¬ (timerSleep 10 ⟨0xffffffff, 0, by decide, by decide⟩ 1 0 0).done.mtimecmp ≤ 0xffffffff + 1 + 10 := by
  decide

/-! ## The comparator between the stores -/

section

variable (cycles : Nat) (d : Timer) (ticks₁ ticks₂ ticks₃ ticks : Nat)

/-- Between the stores a deadline that has not been reached looks reached to the counter values of its own `2 ^ 32`
ticks whose low half is not below the new one. -/
theorem between_pending_iff
    (hold : ((timerSleep cycles d ticks₁ ticks₂ ticks₃).between.wait ticks).mtime < d.mtimecmp) :
    ((timerSleep cycles d ticks₁ ticks₂ ticks₃).between.wait ticks).Pending ↔
      high (2 ^ 32) ((timerSleep cycles d ticks₁ ticks₂ ticks₃).between.wait ticks).mtime =
          high (2 ^ 32) d.mtimecmp ∧
        low (2 ^ 32) (d.mtime + cycles) ≤
          low (2 ^ 32) ((timerSleep cycles d ticks₁ ticks₂ ticks₃).between.wait ticks).mtime := by
  have hcmp : ((timerSleep cycles d ticks₁ ticks₂ ticks₃).between.wait ticks).mtimecmp =
      join (2 ^ 32) (low (2 ^ 32) (d.mtime + cycles)) (high (2 ^ 32) d.mtimecmp) :=
    timerSleep_between cycles d ticks₁ ticks₂ ticks₃
  have hlow : low (2 ^ 32) (d.mtime + cycles) < 2 ^ 32 := Halves.low_lt (by decide) _
  generalize (timerSleep cycles d ticks₁ ticks₂ ticks₃).between.wait ticks = e at hold hcmp ⊢
  have hle : high (2 ^ 32) e.mtime ≤ high (2 ^ 32) d.mtimecmp := Nat.div_le_div_right (Nat.le_of_lt hold)
  unfold Timer.Pending
  rw [hcmp, ← Nat.not_lt, Halves.lt_join_iff e.mtime hlow]
  constructor
  · intro h
    have hhigh : high (2 ^ 32) e.mtime = high (2 ^ 32) d.mtimecmp :=
      Nat.le_antisymm hle (Nat.not_lt.1 fun hlt => h (Or.inl hlt))
    exact ⟨hhigh, Nat.not_lt.1 fun hlt => h (Or.inr ⟨hhigh, hlt⟩)⟩
  · rintro ⟨hhigh, hlow'⟩ h
    cases h with
    | inl hlt => exact absurd hhigh (Nat.ne_of_lt hlt)
    | inr h => exact absurd h.2 (Nat.not_lt.2 hlow')

/-- While the counter only runs up, a spurious interrupt takes a sum that carries into the high half. -/
theorem carry_of_between_pending (hc : cycles < 2 ^ 32) (hrun : d.mtime + ticks₁ + ticks₂ + ticks < 2 ^ 64)
    (hold : ((timerSleep cycles d ticks₁ ticks₂ ticks₃).between.wait ticks).mtime < d.mtimecmp)
    (hnew : ((timerSleep cycles d ticks₁ ticks₂ ticks₃).between.wait ticks).mtime <
      (timerSleep cycles d ticks₁ ticks₂ ticks₃).done.mtimecmp)
    (hp : ((timerSleep cycles d ticks₁ ticks₂ ticks₃).between.wait ticks).Pending) :
    2 ^ 32 ≤ low (2 ^ 32) d.mtime + cycles := by
  have hlow := ((between_pending_iff cycles d ticks₁ ticks₂ ticks₃ ticks hold).1 hp).2
  have hmtime : ((timerSleep cycles d ticks₁ ticks₂ ticks₃).between.wait ticks).mtime =
      d.mtime + ticks₁ + ticks₂ + ticks := by
    change ((timerSleep cycles d ticks₁ ticks₂ ticks₃).between.mtime + ticks) % 2 ^ 64 = _
    rw [timerSleep_between_mtime, Nat.mod_add_mod, Nat.mod_eq_of_lt hrun]
  have hloaded : (d.wait ticks₁).mtime = d.mtime + ticks₁ := Nat.mod_eq_of_lt (by omega)
  rw [hmtime] at hlow hnew
  rw [timerSleep_done cycles d ticks₁ ticks₂ ticks₃ hc, hloaded] at hnew
  by_contra hcarry
  have hdone := Nat.lt_of_lt_of_le hnew (Nat.mod_le _ _)
  unfold join low high at *
  omega

end

/-- **Between the stores no interrupt becomes pending before its time, exactly when** the counter is not in the
`2 ^ 32` ticks of the old deadline, or its low half is below that of the counter at the first load plus `cycles`. -/
theorem timerSleep_quiet_iff (cycles : Nat) (d : Timer) (ticks₁ ticks₂ ticks₃ ticks : Nat) :
    let now := (timerSleep cycles d ticks₁ ticks₂ ticks₃).between.wait ticks
    now.mtime < d.mtimecmp → now.mtime < (timerSleep cycles d ticks₁ ticks₂ ticks₃).done.mtimecmp →
      (¬ now.Pending ↔
        now.mtime / 2 ^ 32 ≠ d.mtimecmp / 2 ^ 32 ∨ now.mtime % 2 ^ 32 < (d.mtime + cycles) % 2 ^ 32) := by
  intro now hold _
  have hpending := between_pending_iff cycles d ticks₁ ticks₂ ticks₃ ticks hold
  rw [hpending, not_and_or, Nat.not_le]
  rfl

theorem timerSleep_quiet_iff_sameBlock :
    ¬ ((timerSleep 0x40 ⟨0x100000000, 0x100000080, by decide, by decide⟩ 1 1 1).between.wait 1).Pending ↔
      ((timerSleep 0x40 ⟨0x100000000, 0x100000080, by decide, by decide⟩ 1 1 1).between.wait 1).mtime / 2 ^ 32 ≠
          0x100000080 / 2 ^ 32 ∨
        ((timerSleep 0x40 ⟨0x100000000, 0x100000080, by decide, by decide⟩ 1 1 1).between.wait 1).mtime % 2 ^ 32 <
          (0x100000000 + 0x40) % 2 ^ 32 :=
  timerSleep_quiet_iff 0x40 ⟨0x100000000, 0x100000080, by decide, by decide⟩ 1 1 1 1 (by decide) (by decide)

/-- The old deadline is `0xe0` ticks away and the new one `0x200`: between the stores the comparator is
`0x100000100`. -/
theorem between_pending_early :
    let s := timerSleep 0x200 ⟨0x1ffffff00, 0x1ffffffe0, by decide, by decide⟩ 1 1 1
    s.between.mtimecmp = 0x100000100 ∧ s.between.mtime < 0x1ffffffe0 ∧ s.between.mtime < s.done.mtimecmp ∧
      s.between.Pending := by
  decide

end RiscvOs
