import RiscvOs.Crt0
import RiscvOs.LittleEndian
/-!
# `switch_context` (`riscv/context_switch`)

The two macros store and load the fields of `struct per_process_kern_context` in their order (`ctxSave_eq`,
`ctxLoad_eq`), so a switch between contexts in disjoint blocks resumes one with the registers it was last suspended
with.
-/
namespace RiscvOs

/-- The registers `switch_context` names. -/
inductive Gpr where
  | ra | sp | s0 | s1 | s2 | s3 | s4 | s5 | s6 | s7 | s8 | s9 | s10 | s11 | a0 | a1
deriving DecidableEq, Repr

inductive Instr where
  | sw (rs : Gpr) (offset : Nat) (base : Gpr)
  | lw (rd : Gpr) (offset : Nat) (base : Gpr)
  | ret
deriving DecidableEq, Repr

def ctxSave (base : Gpr) : List Instr :=
  [.sw .ra 0 base, .sw .sp 4 base, .sw .s0 8 base, .sw .s1 12 base, .sw .s2 16 base, .sw .s3 20 base, .sw .s4 24 base,
    .sw .s5 28 base, .sw .s6 32 base, .sw .s7 36 base, .sw .s8 40 base, .sw .s9 44 base, .sw .s10 48 base,
    .sw .s11 52 base]

def ctxLoad (base : Gpr) : List Instr :=
  [.lw .ra 0 base, .lw .sp 4 base, .lw .s0 8 base, .lw .s1 12 base, .lw .s2 16 base, .lw .s3 20 base, .lw .s4 24 base,
    .lw .s5 28 base, .lw .s6 32 base, .lw .s7 36 base, .lw .s8 40 base, .lw .s9 44 base, .lw .s10 48 base,
    .lw .s11 52 base]

def switchContext : List Instr := ctxSave .a0 ++ ctxLoad .a1 ++ [.ret]

/-- The fields of `struct per_process_kern_context`, in order; each is a `reg_t`. -/
def contextFields : List Gpr := [.ra, .sp, .s0, .s1, .s2, .s3, .s4, .s5, .s6, .s7, .s8, .s9, .s10, .s11]

def offsetOf (r : Gpr) : Nat := 4 * contextFields.idxOf r

/-- What the instructions work on; `pc` is where control has been passed to. -/
structure Hart where
  reg : Gpr → BitVec 32
  pc : BitVec 32
  mem : Bytes

namespace Hart

/-- `offset(base)`. -/
def addr (h : Hart) (offset : Nat) (base : Gpr) : Nat := (h.reg base + BitVec.ofNat 32 offset).toNat

def exec (h : Hart) : Instr → Hart
  | .sw rs offset base => { h with mem := LittleEndian.store h.mem (h.addr offset base) (h.reg rs) }
  | .lw rd offset base => { h with reg := Function.update h.reg rd (LittleEndian.load h.mem (h.addr offset base)) }
  | .ret               => { h with pc := h.reg .ra }

def run (h : Hart) (code : List Instr) : Hart := code.foldl exec h

theorem run_cons (h : Hart) (i : Instr) (code : List Instr) : h.run (i :: code) = (h.exec i).run code := rfl

theorem run_append (h : Hart) (code code' : List Instr) : h.run (code ++ code') = (h.run code).run code' :=
  List.foldl_append

/-- The word of the field `r` in the block at `p`. -/
def field (h : Hart) (p : Nat) (r : Gpr) : BitVec 32 := LittleEndian.load h.mem (p + offsetOf r)

end Hart

/-! ## The macros and the structure -/

theorem ctxSave_eq (base : Gpr) : ctxSave base = contextFields.map fun r => .sw r (offsetOf r) base := rfl

theorem ctxLoad_eq (base : Gpr) : ctxLoad base = contextFields.map fun r => .lw r (offsetOf r) base := rfl

theorem offsetOf_le : ∀ r ∈ contextFields, offsetOf r + 4 ≤ 56 := by decide

theorem offsetOf_disjoint : ∀ r ∈ contextFields, ∀ r' ∈ contextFields, r ≠ r' →
    offsetOf r + 4 ≤ offsetOf r' ∨ offsetOf r' + 4 ≤ offsetOf r := by decide

theorem offsetOf_get : ∀ i : Fin contextFields.length, offsetOf (contextFields.get i) = 4 * i := by decide

section

variable {p : Nat} {base r : Gpr} {h : Hart}

theorem Hart.addr_eq {offset : Nat} (hbase : h.reg base = BitVec.ofNat 32 p) (hp : p + offset < 2 ^ 32) :
    h.addr offset base = p + offset := by
  unfold Hart.addr
  rw [hbase, BitVec.toNat_add, BitVec.toNat_ofNat, BitVec.toNat_ofNat, ← Nat.add_mod, Nat.mod_eq_of_lt hp]

theorem Hart.exec_sw (hbase : h.reg base = BitVec.ofNat 32 p) (hp : p + 56 ≤ 2 ^ 32) (hr : r ∈ contextFields) :
    h.exec (.sw r (offsetOf r) base) = { h with mem := LittleEndian.store h.mem (p + offsetOf r) (h.reg r) } := by
  have hoff := offsetOf_le r hr
  rw [Hart.exec, Hart.addr_eq hbase (by omega)]

theorem Hart.exec_lw (hbase : h.reg base = BitVec.ofNat 32 p) (hp : p + 56 ≤ 2 ^ 32) (hr : r ∈ contextFields) :
    h.exec (.lw r (offsetOf r) base) = { h with reg := Function.update h.reg r (h.field p r) } := by
  have hoff := offsetOf_le r hr
  rw [Hart.exec, Hart.addr_eq hbase (by omega)]
  rfl

/-- What storing these fields in the block at `p` changes. -/
structure Saves (p : Nat) (fields : List Gpr) (h h' : Hart) : Prop where
  reg : h'.reg = h.reg
  stored : ∀ r ∈ contextFields, h'.field p r = if r ∈ fields then h.reg r else h.field p r
  outside : ∀ a, a < p ∨ p + 56 ≤ a → h'.mem a = h.mem a

theorem run_sw (hp : p + 56 ≤ 2 ^ 32) : ∀ (fields : List Gpr) (h : Hart), (∀ r ∈ fields, r ∈ contextFields) →
    h.reg base = BitVec.ofNat 32 p → Saves p fields h (h.run (fields.map fun r => .sw r (offsetOf r) base))
  | [], h, _, _ => ⟨rfl, fun _ _ => by simp [Hart.run], fun _ _ => rfl⟩
  | f :: fields, h, hfields, hbase => by
    have hf : f ∈ contextFields := hfields f List.mem_cons_self
    have hoff := offsetOf_le f hf
    rw [List.map_cons, Hart.run_cons, Hart.exec_sw hbase hp hf]
    obtain ⟨hreg, hstored, hout⟩ := run_sw hp fields
      { h with mem := LittleEndian.store h.mem (p + offsetOf f) (h.reg f) }
      (fun r hr => hfields r (List.mem_cons_of_mem f hr)) hbase
    refine ⟨hreg, fun r hr => ?_, fun a ha => ?_⟩
    · rw [hstored r hr]
      by_cases hin : r ∈ fields
      · rw [if_pos hin, if_pos (List.mem_cons_of_mem f hin)]
      · rw [if_neg hin]
        by_cases hrf : r = f
        · subst hrf
          rw [if_pos List.mem_cons_self]
          exact LittleEndian.load_store (by decide)
        · have hdisjoint := offsetOf_disjoint r hr f hf hrf
          rw [if_neg (by simp [hrf, hin])]
          exact LittleEndian.load_store_of_disjoint (by omega)
    · rw [hout a ha]
      exact LittleEndian.store_of_outside (by omega)

theorem run_lw (hp : p + 56 ≤ 2 ^ 32) (hb : base ∉ contextFields) : ∀ (fields : List Gpr) (h : Hart),
    (∀ r ∈ fields, r ∈ contextFields) → h.reg base = BitVec.ofNat 32 p →
    h.run (fields.map fun r => .lw r (offsetOf r) base) =
      { h with reg := fun r => if r ∈ fields then h.field p r else h.reg r }
  | [], h, _, _ => by simp [Hart.run]
  | f :: fields, h, hfields, hbase => by
    have hf : f ∈ contextFields := hfields f List.mem_cons_self
    have hne : base ≠ f := by
      rintro rfl
      exact hb hf
    have hkeep : Function.update h.reg f (h.field p f) base = BitVec.ofNat 32 p := by
      rw [Function.update_of_ne hne, hbase]
    rw [List.map_cons, Hart.run_cons, Hart.exec_lw hbase hp hf,
      run_lw hp hb fields _ (fun r hr => hfields r (List.mem_cons_of_mem f hr)) hkeep]
    congr 1
    funext r
    by_cases hin : r ∈ fields
    · rw [if_pos hin, if_pos (List.mem_cons_of_mem f hin)]
      rfl
    · rw [if_neg hin]
      by_cases hrf : r = f
      · subst hrf
        rw [if_pos List.mem_cons_self]
        exact Function.update_self ..
      · rw [if_neg (by simp [hrf, hin])]
        exact Function.update_of_ne hrf ..

/-- **What `switch_context` does**: the fields of the first block are stored, then the registers are those of the
second. -/
theorem run_switchContext {q : Nat} (hp : p + 56 ≤ 2 ^ 32) (hq : q + 56 ≤ 2 ^ 32)
    (ha0 : h.reg .a0 = BitVec.ofNat 32 p) (ha1 : h.reg .a1 = BitVec.ofNat 32 q) :
    ∃ h', Saves p contextFields h h' ∧ (h.run switchContext).mem = h'.mem ∧
      (h.run switchContext).pc = h'.field q .ra ∧ ∀ r ∈ contextFields, (h.run switchContext).reg r = h'.field q r := by
  have hsaves := run_sw hp contextFields h (fun r hr => hr) ha0
  rw [← ctxSave_eq] at hsaves
  have hbase : (h.run (ctxSave .a0)).reg .a1 = BitVec.ofNat 32 q := by rw [hsaves.reg, ha1]
  have hloads := run_lw hq (by decide) contextFields _ (fun r hr => hr) hbase
  rw [← ctxLoad_eq] at hloads
  refine ⟨_, hsaves, ?_⟩
  unfold switchContext
  rw [Hart.run_append, Hart.run_append, hloads]
  exact ⟨rfl, rfl, fun r hr => if_pos hr⟩

end

/-! ## Contexts -/

/-- Where the contexts are stored, each `struct per_process_kern_context` in a block of its own. -/
structure ContextBlocks (ι : Type*) where
  base : ι → Nat
  inside : ∀ c, base c + 56 ≤ 2 ^ 32
  disjoint : ∀ c d, c ≠ d → base c + 56 ≤ base d ∨ base d + 56 ≤ base c

/-- The hart with the context it runs, and the registers the others had when they were last suspended. -/
structure Kernel (ι : Type*) where
  hart : Hart
  running : ι
  suspended : ι → Option (Gpr → BitVec 32)

variable {ι : Type*}

/-- `switch_context` is entered with the running context and one that is running or was suspended. -/
structure CanSwitch (B : ContextBlocks ι) (k : Kernel ι) (next : ι) : Prop where
  a0 : k.hart.reg .a0 = BitVec.ofNat 32 (B.base k.running)
  a1 : k.hart.reg .a1 = BitVec.ofNat 32 (B.base next)
  known : next = k.running ∨ (k.suspended next).isSome

/-- The blocks hold the registers of the suspended contexts. -/
def Holds (B : ContextBlocks ι) (k : Kernel ι) : Prop :=
  ∀ c regs, k.suspended c = some regs → ∀ r ∈ contextFields, k.hart.field (B.base c) r = regs r

theorem Hart.field_congr {h h' : Hart} {p : Nat} {r : Gpr} (hr : r ∈ contextFields)
    (hmem : ∀ a, p ≤ a → a < p + 56 → h'.mem a = h.mem a) : h'.field p r = h.field p r := by
  have hoff := offsetOf_le r hr
  exact LittleEndian.load_congr fun i hi => hmem _ (by omega) (by omega)

/-- A save leaves the other blocks. -/
theorem Saves.field_of_ne {B : ContextBlocks ι} {h h' : Hart} {c d : ι}
    (hsaves : Saves (B.base c) contextFields h h') (hne : c ≠ d) {r : Gpr} (hr : r ∈ contextFields) :
    h'.field (B.base d) r = h.field (B.base d) r := by
  have hdisjoint := B.disjoint c d hne
  exact Hart.field_congr hr fun a h1 h2 => hsaves.outside a (by omega)

theorem Saves.field_self {p : Nat} {h h' : Hart} (hsaves : Saves p contextFields h h') {r : Gpr}
    (hr : r ∈ contextFields) : h'.field p r = h.reg r := by
  rw [hsaves.stored r hr, if_pos hr]

variable [DecidableEq ι]

/-- The kernel after `switch_context` from the running context. -/
def Kernel.switched (k : Kernel ι) (next : ι) : Kernel ι :=
  ⟨k.hart.run switchContext, next, Function.update k.suspended k.running (some k.hart.reg)⟩

/-- A step of the kernel: the running code does anything but write the blocks, or there is a switch. -/
inductive Step (B : ContextBlocks ι) : Kernel ι → Kernel ι → Prop
  | work (k : Kernel ι) (hart : Hart)
      (h : ∀ c a, B.base c ≤ a → a < B.base c + 56 → hart.mem a = k.hart.mem a) : Step B k { k with hart := hart }
  | switch (k : Kernel ι) (next : ι) (h : CanSwitch B k next) : Step B k (k.switched next)

/-- What a switch leaves: the registers the context was last suspended with, and the suspended ones stored in the order
of the fields. -/
structure Resumes (B : ContextBlocks ι) (k : Kernel ι) (next : ι) : Prop where
  resumed : next ≠ k.running → ∀ regs, k.suspended next = some regs →
    ∀ r ∈ contextFields, (k.switched next).hart.reg r = regs r
  same : next = k.running → ∀ r ∈ contextFields, (k.switched next).hart.reg r = k.hart.reg r
  pc : (k.switched next).hart.pc = (k.switched next).hart.reg .ra
  stored : ∀ i : Fin contextFields.length,
    LittleEndian.load (k.switched next).hart.mem (B.base k.running + 4 * i) = k.hart.reg (contextFields.get i)

section

variable {B : ContextBlocks ι} {k k' : Kernel ι} {next : ι}

theorem CanSwitch.run (h : CanSwitch B k next) :
    ∃ h', Saves (B.base k.running) contextFields k.hart h' ∧ (k.switched next).hart.mem = h'.mem ∧
      (k.switched next).hart.pc = h'.field (B.base next) .ra ∧
      ∀ r ∈ contextFields, (k.switched next).hart.reg r = h'.field (B.base next) r :=
  run_switchContext (B.inside _) (B.inside _) h.a0 h.a1

/-- **A switch** resumes a context with the registers its block holds. -/
theorem CanSwitch.resumes (h : CanSwitch B k next) (hk : Holds B k) : Resumes B k next := by
  obtain ⟨h', hsaves, hmem, hpc, hreg⟩ := h.run
  refine ⟨fun hne regs hregs r hr => ?_, fun heq r hr => ?_, ?_, fun i => ?_⟩
  · rw [hreg r hr, hsaves.field_of_ne hne.symm hr]
    exact hk next regs hregs r hr
  · rw [hreg r hr, heq, hsaves.field_self hr]
  · rw [hpc, hreg .ra (by decide)]
  · have hfield := hsaves.field_self (List.get_mem contextFields i)
    rw [hmem, ← hfield, Hart.field, offsetOf_get]

theorem CanSwitch.holds (h : CanSwitch B k next) (hk : Holds B k) : Holds B (k.switched next) := by
  obtain ⟨h', hsaves, hmem, -, -⟩ := h.run
  have hfield : ∀ c r, (k.switched next).hart.field (B.base c) r = h'.field (B.base c) r := by
    intro c r
    rw [Hart.field, hmem]
    rfl
  intro c regs hc r hr
  rw [hfield]
  by_cases hrun : c = k.running
  · subst hrun
    obtain rfl : k.hart.reg = regs := by simpa [Kernel.switched] using hc
    exact hsaves.field_self hr
  · have hc' : k.suspended c = some regs := by simpa [Kernel.switched, hrun] using hc
    rw [hsaves.field_of_ne (Ne.symm hrun) hr]
    exact hk c regs hc' r hr

/-- **A step** keeps what the blocks hold. -/
theorem Step.holds (h : Step B k k') (hk : Holds B k) : Holds B k' := by
  cases h with
  | work hart hmem =>
    intro c regs hc r hr
    rw [Hart.field_congr hr (hmem c)]
    exact hk c regs hc r hr
  | switch next h => exact h.holds hk

/-- **A run** keeps what the blocks hold. -/
theorem holds_of_run (hrun : Relation.ReflTransGen (Step B) k k') (hk : Holds B k) : Holds B k' := by
  induction hrun with
  | refl => exact hk
  | tail _ hstep ih => exact hstep.holds ih

/-- The record of a context changes only when it is running. -/
theorem Step.suspended_eq (h : Step B k k') {c : ι} (hc : k.running ≠ c) : k'.suspended c = k.suspended c := by
  cases h with
  | work => rfl
  | switch => exact Function.update_of_ne hc.symm ..

theorem suspended_of_run {c : ι} (hrun : Relation.ReflTransGen (fun x y => Step B x y ∧ y.running ≠ c) k k')
    (hc : k.running ≠ c) : k'.running ≠ c ∧ k'.suspended c = k.suspended c ∧ Relation.ReflTransGen (Step B) k k' := by
  induction hrun with
  | refl => exact ⟨hc, rfl, Relation.ReflTransGen.refl⟩
  | tail _ hstep ih =>
    obtain ⟨hrunning, hsuspended, hsteps⟩ := ih
    exact ⟨hstep.2, (hstep.1.suspended_eq hrunning).trans hsuspended, hsteps.tail hstep.1⟩

/-- **A context that was switched away from comes back with the registers it had then**, whatever ran in between. -/
theorem resumes_as_suspended {c : ι} (hk : Holds B k) (hleave : CanSwitch B k next) (hc : k.running = c)
    (hne : next ≠ c) (hrun : Relation.ReflTransGen (fun x y => Step B x y ∧ y.running ≠ c) (k.switched next) k')
    (hback : CanSwitch B k' c) : ∀ r ∈ contextFields, (k'.switched c).hart.reg r = k.hart.reg r := by
  subst hc
  obtain ⟨hrunning, hsuspended, hsteps⟩ := suspended_of_run hrun hne
  have hsaved : k'.suspended k.running = some k.hart.reg := hsuspended.trans (Function.update_self ..)
  exact (hback.resumes (holds_of_run hsteps (hleave.holds hk))).resumed hrunning.symm _ hsaved

end

/-- **Every switch of every run resumes its context** with the registers it was last suspended with, when the contexts
suspended before the run are in their blocks. -/
theorem switchContext_resumes (B : ContextBlocks ι) (k₀ k : Kernel ι) (next : ι) (h₀ : Holds B k₀)
    (hrun : Relation.ReflTransGen (Step B) k₀ k) (hswitch : CanSwitch B k next) : Resumes B k next ∧ Holds B k :=
  ⟨hswitch.resumes (holds_of_run hrun h₀), holds_of_run hrun h₀⟩

/-- Two contexts, at `0x1000` and `0x2000`. -/
def twoContexts : ContextBlocks Bool := ⟨fun c => if c then 0x2000 else 0x1000, by decide, by decide⟩

/-- The registers with which one of them calls `switch_context`, all others holding `v`. -/
def callRegs (here there v : BitVec 32) : Gpr → BitVec 32
  | .a0 => here
  | .a1 => there
  | _   => v

/-- The first context runs; the second was suspended with all its registers clear. -/
def firstRuns : Kernel Bool :=
  ⟨⟨callRegs 0x1000 0x2000 0x8000, 0, fun _ => 0⟩, false, fun c => if c then some fun _ => 0 else none⟩

/-- The first has switched to the second, which is about to switch back. -/
def secondRuns : Kernel Bool :=
  { firstRuns.switched true with
    hart := ⟨callRegs 0x2000 0x1000 0x9000, 0, (firstRuns.switched true).hart.mem⟩ }

theorem firstRuns_holds : Holds twoContexts firstRuns := by
  intro c regs hc
  cases c with
  | false => cases hc
  | true =>
    obtain rfl : (fun _ => 0) = regs := Option.some.inj hc
    decide

theorem firstRuns_steps : Relation.ReflTransGen (Step twoContexts) firstRuns secondRuns :=
  (Relation.ReflTransGen.single (Step.switch firstRuns true ⟨rfl, rfl, Or.inr rfl⟩)).tail
    (Step.work _ _ fun _ _ _ _ => rfl)

theorem switchContext_resumes_secondRuns : Resumes twoContexts secondRuns false ∧ Holds twoContexts secondRuns :=
  switchContext_resumes twoContexts firstRuns secondRuns false firstRuns_holds firstRuns_steps ⟨rfl, rfl, Or.inr rfl⟩

/-- The first comes back as it left, after the second has run. -/
theorem resumes_as_suspended_firstRuns :
    Holds twoContexts firstRuns ∧
      ∀ r ∈ contextFields, (secondRuns.switched false).hart.reg r = firstRuns.hart.reg r :=
  ⟨firstRuns_holds, resumes_as_suspended firstRuns_holds ⟨rfl, rfl, Or.inr rfl⟩ rfl (by decide)
    (Relation.ReflTransGen.single ⟨Step.work _ _ fun _ _ _ _ => rfl, by decide⟩) ⟨rfl, rfl, Or.inr rfl⟩⟩

end RiscvOs
