import RiscvOs.DeviceTree
/-!
# Detecting RAM (`mem/memory.c`)

`detect_memory` registers one region for each memory node: it stops only at the error that `parse_reg` spells `-1`, and
never calls `parse_reg` again for the rest of a node's entries.
-/
namespace RiscvOs

def maxMemRegions : Nat := 16

/-- A call of `parse_reg` on the two fields of slot `slot` of `ram_regions`. -/
structure ParseCall where
  node : Int
  slot : Nat
  res : Int
deriving DecidableEq, Repr

/-- A result, the registered regions with it, and the calls of `parse_reg` that were made. -/
structure Detection where
  res : Int
  table : List RamDescriptor
  calls : List ParseCall

/-- `extract_ram_region_info`; a slot not registered yet is still zero, as `ram_regions` is static. -/
def extractRamRegionInfo (ndebug : Bool) (f : Libfdt) (node : Int) (table : List RamDescriptor) :
    Except Stop Detection := do
  if table.length ≥ maxMemRegions then
    return ⟨-1, table, []⟩
  let p := parseReg f node ⟨0, 0⟩
  debugAssert ndebug (p.buf.spaceSize != 0) "buf->space_size != 0"
  return ⟨p.res, table ++ [p.buf], [⟨node, table.length, p.res⟩]⟩

def nextMemoryNode (f : Libfdt) (offset : Int) : Int := f.nodeOffsetByPropValue offset "device_type" "memory"

theorem extractRamRegionInfo_length {ndebug : Bool} {f : Libfdt} {node : Int} {table : List RamDescriptor}
    {d : Detection} (h : extractRamRegionInfo ndebug f node table = .ok d) (hres : d.res ≠ -1) :
    table.length < maxMemRegions ∧ d.table.length = table.length + 1 := by
  unfold extractRamRegionInfo at h
  by_cases hfull : table.length ≥ maxMemRegions
  · rw [if_pos hfull] at h
    cases h
    exact absurd rfl hres
  · rw [if_neg hfull, debugAssert_bind] at h
    split at h
    · cases h
      exact ⟨Nat.lt_of_not_le hfull, by simp⟩
    · cases h

/-- The loop of `detect_memory`: each round uses up a slot. -/
def detectFrom (ndebug : Bool) (f : Libfdt) (offset : Int) (table : List RamDescriptor) (calls : List ParseCall) :
    Except Stop Detection :=
  if offset ≥ 0 then
    match h : extractRamRegionInfo ndebug f offset table with
    | .error e => .error e
    | .ok d    =>
      if hres : d.res = -1 then .ok ⟨-1, d.table, calls ++ d.calls⟩
      else
        have := extractRamRegionInfo_length h hres
        detectFrom ndebug f (nextMemoryNode f offset) d.table (calls ++ d.calls)
  else .ok ⟨0, table, calls⟩
termination_by maxMemRegions - table.length

def detectMemory (ndebug : Bool) (f : Libfdt) (table : List RamDescriptor) : Except Stop Detection :=
  detectFrom ndebug f (nextMemoryNode f (-1)) table []

/-! ## One round -/

section Round

variable {ndebug : Bool} {f : Libfdt} {o : Int} {table : List RamDescriptor} {calls : List ParseCall}

theorem extractRamRegionInfo_full (h : table.length ≥ maxMemRegions) :
    extractRamRegionInfo ndebug f o table = .ok ⟨-1, table, []⟩ := by
  rw [extractRamRegionInfo, if_pos h]
  rfl

theorem extractRamRegionInfo_ok (h : table.length < maxMemRegions)
    (hsize : ndebug = true ∨ (parseReg f o ⟨0, 0⟩).buf.spaceSize ≠ 0) :
    extractRamRegionInfo ndebug f o table = .ok ⟨(parseReg f o ⟨0, 0⟩).res, table ++ [(parseReg f o ⟨0, 0⟩).buf],
      [⟨o, table.length, (parseReg f o ⟨0, 0⟩).res⟩]⟩ := by
  have hassert : (ndebug || (parseReg f o ⟨0, 0⟩).buf.spaceSize != 0) = true := by
    rcases hsize with rfl | hsize <;> simp_all
  rw [extractRamRegionInfo, if_neg (Nat.not_le.2 h), debugAssert_bind, if_pos hassert]
  rfl

theorem detectFrom_end (h : o < 0) : detectFrom ndebug f o table calls = .ok ⟨0, table, calls⟩ := by
  rw [detectFrom, if_neg (Int.not_le.2 h)]

theorem detectFrom_stop (h : 0 ≤ o) {d : Detection} (hd : extractRamRegionInfo ndebug f o table = .ok d)
    (hres : d.res = -1) : detectFrom ndebug f o table calls = .ok ⟨-1, d.table, calls ++ d.calls⟩ := by
  rw [detectFrom, if_pos h]
  split
  case h_1 e he =>
    rw [hd] at he
    cases he
  case h_2 d' hd' =>
    rw [hd] at hd'
    cases hd'
    rw [dif_pos hres]

theorem detectFrom_next (h : 0 ≤ o) {d : Detection} (hd : extractRamRegionInfo ndebug f o table = .ok d)
    (hres : d.res ≠ -1) :
    detectFrom ndebug f o table calls = detectFrom ndebug f (nextMemoryNode f o) d.table (calls ++ d.calls) := by
  rw [detectFrom, if_pos h]
  split
  case h_1 e he =>
    rw [hd] at he
    cases he
  case h_2 d' hd' =>
    rw [hd] at hd'
    cases hd'
    rw [dif_neg hres]

end Round

/-- The memory nodes after `start`, as the lookup enumerates them: in increasing order, up to an error. -/
def Enumerates (f : Libfdt) : (start : Int) → List Int → Prop
  | start, []      => nextMemoryNode f start < 0
  | start, o :: os => nextMemoryNode f start = o ∧ start < o ∧ Enumerates f o os

/-! ## Nodes with several entries -/

def Reg.all (f : Libfdt) (r : Reg) : List RamDescriptor := (List.range r.entries).map (r.entry f)

/-- **A run over well-formed nodes registers the first entry of each**. -/
theorem detectFrom_of_hasReg {ndebug : Bool} {f : Libfdt} : ∀ {nodes : List (Int × Reg)} {start : Int}
    {table : List RamDescriptor} {calls : List ParseCall}, -1 ≤ start → Enumerates f start (nodes.map Prod.fst) →
    (∀ n ∈ nodes, HasReg f n.1 n.2) → table.length + nodes.length ≤ maxMemRegions →
    ∃ calls', detectFrom ndebug f (nextMemoryNode f start) table calls =
      .ok ⟨0, table ++ nodes.map (fun n => n.2.entry f 0), calls'⟩
  | [], start, table, calls, _, hos, _, _ => ⟨calls, by rw [detectFrom_end hos]; simp⟩
  | (o, r) :: nodes, start, table, calls, hstart, ⟨hnext, hlt, hos⟩, hreg, hlen => by
    have hr : HasReg f o r := hreg (o, r) List.mem_cons_self
    have hbuf := (hr.parseReg_eq ⟨0, 0⟩).1
    have hroom : table.length < maxMemRegions := by
      rw [List.length_cons] at hlen
      omega
    have hsize : (parseReg f o ⟨0, 0⟩).buf.spaceSize ≠ 0 := by
      rw [hbuf]
      exact hr.entry_spaceSize_ne hr.entries_pos
    have hround := @extractRamRegionInfo_ok ndebug f o table hroom (Or.inr hsize)
    rw [show nextMemoryNode f start = o from hnext, detectFrom_next (by omega) hround (hr.res_ne ⟨0, 0⟩), hbuf]
    have hlen' : (table ++ [r.entry f 0]).length + nodes.length ≤ maxMemRegions := by
      rw [List.length_append, List.length_singleton]
      rw [List.length_cons] at hlen
      omega
    obtain ⟨calls', hrun⟩ := detectFrom_of_hasReg (Int.le_of_lt (Int.lt_of_le_of_lt hstart hlt)) hos
      (fun n hn => hreg n (List.mem_cons_of_mem _ hn)) hlen'
    refine ⟨calls', hrun.trans ?_⟩
    rw [List.append_assoc]
    rfl

theorem length_le_entries {f : Libfdt} : ∀ {nodes : List (Int × Reg)}, (∀ n ∈ nodes, HasReg f n.1 n.2) →
    nodes.length ≤ (nodes.map (fun n => n.2.entries)).sum
  | [], _ => Nat.le_refl _
  | n :: nodes, h => by
    have hn := (h n List.mem_cons_self).entries_pos
    have hreg : ∀ x ∈ nodes, HasReg f x.1 x.2 := fun x hx => h x (List.mem_cons_of_mem _ hx)
    have hrest := length_le_entries hreg
    rw [List.length_cons, List.map_cons, List.sum_cons]
    omega

theorem entries_eq_one {f : Libfdt} : ∀ {nodes : List (Int × Reg)}, (∀ n ∈ nodes, HasReg f n.1 n.2) →
    (nodes.map (fun n => n.2.entries)).sum = nodes.length → ∀ n ∈ nodes, n.2.entries = 1
  | [], _, _ => by simp
  | n :: nodes, h, hsum => by
    have hn := (h n List.mem_cons_self).entries_pos
    have hreg : ∀ x ∈ nodes, HasReg f x.1 x.2 := fun x hx => h x (List.mem_cons_of_mem _ hx)
    have hrest := length_le_entries hreg
    rw [List.length_cons, List.map_cons, List.sum_cons] at hsum
    rw [List.forall_mem_cons]
    exact ⟨by omega, entries_eq_one hreg (by omega)⟩

theorem firsts_eq_all_iff {f : Libfdt} {nodes : List (Int × Reg)} (h : ∀ n ∈ nodes, HasReg f n.1 n.2) :
    nodes.map (fun n => n.2.entry f 0) = nodes.flatMap (fun n => n.2.all f) ↔ ∀ n ∈ nodes, n.2.entries = 1 := by
  constructor
  · intro he
    have hlen := congrArg List.length he
    simp only [List.length_map, List.length_flatMap, Reg.all, List.length_range] at hlen
    exact entries_eq_one h hlen.symm
  · intro hone
    rw [List.map_eq_flatMap]
    refine List.flatMap_congr fun n hn => ?_
    rw [Reg.all, hone n hn]
    rfl

/-- **Every entry is registered, in order, exactly when every node has a single one.** -/
theorem detectMemory_complete_iff (ndebug : Bool) (f : Libfdt) (nodes : List (Int × Reg))
    (hnodes : Enumerates f (-1) (nodes.map Prod.fst)) (hreg : ∀ n ∈ nodes, HasReg f n.1 n.2)
    (htotal : (nodes.map (fun n => n.2.entries)).sum ≤ maxMemRegions) :
    (∀ d, detectMemory ndebug f [] = .ok d → d.res = 0 → d.table = nodes.flatMap (fun n => n.2.all f)) ↔
      ∀ n ∈ nodes, n.2.entries = 1 := by
  have hle := Nat.le_trans (length_le_entries hreg) htotal
  obtain ⟨calls, hrun⟩ := @detectFrom_of_hasReg ndebug f nodes (-1) [] [] (Int.le_refl _) hnodes hreg
    (by simpa using hle)
  rw [← firsts_eq_all_iff hreg]
  constructor
  · intro hall
    exact hall _ hrun rfl
  · intro he d hd _
    rw [detectMemory, hrun] at hd
    cases hd
    exact he

/-- One memory node with two entries of one cell each for address and size. -/
def twoEntryTree : Libfdt where
  nodeOffsetByPropValue startoffset _ _ := if startoffset < 8 then 8 else fdtErrNotfound
  getprop nodeoffset name :=
    if nodeoffset = 8 ∧ name = "reg" then .ok (0x100, 16)
    else if nodeoffset = 0 ∧ name = "#address-cells" then .ok (0x200, 4)
    else if nodeoffset = 0 ∧ name = "#size-cells" then .ok (0x204, 4)
    else .error ⟨fdtErrNotfound, fdtErrNotfound_neg⟩
  parentOffset _ := 0
  cell a :=
    if a = 0x100 then 0x00000080#32
    else if a = 0x108 then 0x00000090#32
    else if a = 0x104 ∨ a = 0x10c then 0x00100000#32
    else if a = 0x200 ∨ a = 0x204 then 0x01000000#32
    else 0

def twoEntryReg : Reg := ⟨0x100, 1, 1, 2⟩

theorem twoEntryTree_enumerates : Enumerates twoEntryTree (-1) ([(8, twoEntryReg)].map Prod.fst) :=
  ⟨rfl, by decide, fdtErrNotfound_neg⟩

theorem twoEntryTree_hasReg : ∀ n ∈ [((8 : Int), twoEntryReg)], HasReg twoEntryTree n.1 n.2 := by
  intro n hn
  rw [List.mem_singleton] at hn
  subst hn
  exact ⟨rfl, by decide, rfl, rfl, by decide, by decide, by decide⟩

theorem detectMemory_complete_iff_twoEntryTree :
    (∀ d, detectMemory false twoEntryTree [] = .ok d → d.res = 0 →
      d.table = [((8 : Int), twoEntryReg)].flatMap (fun n => n.2.all twoEntryTree)) ↔
      ∀ n ∈ [((8 : Int), twoEntryReg)], n.2.entries = 1 :=
  detectMemory_complete_iff false twoEntryTree [(8, twoEntryReg)] twoEntryTree_enumerates twoEntryTree_hasReg
    (by decide)

/-- `parse_reg` answers `CALL_AGAIN`, and nothing calls again. -/
theorem twoEntryTree_loses_entry :
    ∃ d, detectMemory false twoEntryTree [] = .ok d ∧ d.res = 0 ∧ d.table = [twoEntryReg.entry twoEntryTree 0] ∧
      d.table ≠ [((8 : Int), twoEntryReg)].flatMap (fun n => n.2.all twoEntryTree) := by
  obtain ⟨calls, hrun⟩ := @detectFrom_of_hasReg false twoEntryTree [(8, twoEntryReg)] (-1) [] [] (Int.le_refl _)
    twoEntryTree_enumerates twoEntryTree_hasReg (by decide)
  refine ⟨_, hrun, rfl, rfl, fun he => ?_⟩
  have hlen : 1 = 2 := congrArg List.length he
  exact absurd hlen (by decide)

/-! ## Nodes that cannot be parsed -/

def ParseFails (f : Libfdt) (o : Int) : Prop := (parseReg f o ⟨0, 0⟩).res < 0

def registered (f : Libfdt) (o : Int) : RamDescriptor := (parseReg f o ⟨0, 0⟩).buf

def callsOn (f : Libfdt) (slot : Nat) (os : List Int) : List ParseCall :=
  os.mapIdx (fun i o => ⟨o, slot + i, (parseReg f o ⟨0, 0⟩).res⟩)

theorem callsOn_cons (f : Libfdt) (slot : Nat) (o : Int) (os : List Int) :
    callsOn f slot (o :: os) = ⟨o, slot, (parseReg f o ⟨0, 0⟩).res⟩ :: callsOn f (slot + 1) os := by
  rw [callsOn, List.mapIdx_cons, callsOn]
  congr 2
  funext i x
  rw [Nat.add_assoc, Nat.add_comm 1 i]

/-- **A run registers a prefix of the nodes**: all of them, or up to an error spelt `-1`, or until the table is full. -/
theorem detectFrom_registers {f : Libfdt} : ∀ {os : List Int} {start : Int} {table : List RamDescriptor}
    {calls : List ParseCall}, -1 ≤ start → Enumerates f start os → table.length ≤ maxMemRegions →
    ∃ vs d, detectFrom true f (nextMemoryNode f start) table calls = .ok d ∧ vs <+: os ∧
      table.length + vs.length ≤ maxMemRegions ∧ d.table = table ++ vs.map (registered f) ∧
      d.calls = calls ++ callsOn f table.length vs ∧
      (d.res = 0 ∧ vs = os ∨
        d.res = -1 ∧ ((∃ o ∈ vs, (parseReg f o ⟨0, 0⟩).res = -1) ∨ table.length + vs.length = maxMemRegions ∧ vs ≠ os))
  | [], start, table, calls, _, hos, hlen =>
    ⟨[], ⟨0, table, calls⟩, detectFrom_end hos, List.nil_prefix, hlen, by simp, by simp [callsOn], Or.inl ⟨rfl, rfl⟩⟩
  | o :: os, start, table, calls, hstart, ⟨hnext, hlt, hos⟩, hlen => by
    have ho : 0 ≤ o := by omega
    rw [hnext]
    by_cases hfull : table.length ≥ maxMemRegions
    · refine ⟨[], _, detectFrom_stop ho (extractRamRegionInfo_full hfull) rfl, List.nil_prefix, hlen, by simp,
        by simp [callsOn], Or.inr ⟨rfl, Or.inr ⟨Nat.le_antisymm hlen hfull, by simp⟩⟩⟩
    · have hround := @extractRamRegionInfo_ok true f o table (Nat.lt_of_not_le hfull) (Or.inl rfl)
      by_cases hres : (parseReg f o ⟨0, 0⟩).res = -1
      · refine ⟨[o], _, detectFrom_stop ho hround hres, ?_, ?_, rfl, rfl, Or.inr ⟨rfl, Or.inl ⟨o, by simp, hres⟩⟩⟩
        · exact ⟨os, rfl⟩
        · exact Nat.lt_of_not_le hfull
      · rw [detectFrom_next ho hround hres]
        have hlen' : (table ++ [registered f o]).length ≤ maxMemRegions := by
          rw [List.length_append, List.length_singleton]
          exact Nat.lt_of_not_le hfull
        obtain ⟨vs, d, hrun, hpre, hroom, htable, hcalls, hend⟩ :=
          @detectFrom_registers f os o _ (calls ++ [⟨o, table.length, (parseReg f o ⟨0, 0⟩).res⟩]) (by omega) hos hlen'
        rw [List.length_append, List.length_singleton] at hroom hcalls
        refine ⟨o :: vs, d, hrun, List.cons_prefix_cons.2 ⟨rfl, hpre⟩, ?_, ?_, ?_, ?_⟩
        · rw [List.length_cons]
          omega
        · rw [htable, List.append_assoc]
          rfl
        · rw [hcalls, callsOn_cons, List.append_assoc]
          rfl
        · rcases hend with ⟨h0, rfl⟩ | ⟨h1, ⟨x, hx, hxres⟩ | ⟨hmax, hne⟩⟩
          · exact Or.inl ⟨h0, rfl⟩
          · exact Or.inr ⟨h1, Or.inl ⟨x, List.mem_cons_of_mem _ hx, hxres⟩⟩
          · rw [List.length_append, List.length_singleton] at hmax
            refine Or.inr ⟨h1, Or.inr ⟨?_, fun he => hne (List.cons.inj he).2⟩⟩
            rw [List.length_cons]
            omega

/-- The registered regions were each written by a call that did not fail, and no call that failed keeps its slot. -/
def FullyWritten (f : Libfdt) (d : Detection) : Prop :=
  (∀ c ∈ d.calls, c.res < 0 → d.table.length ≤ c.slot) ∧
  ∀ i r, d.table[i]? = some r → ∃ c ∈ d.calls, c.slot = i ∧ 0 ≤ c.res ∧ ∀ b, (parseReg f c.node b).buf = r

theorem fullyWritten_iff {f : Libfdt} {vs : List Int} {res : Int} :
    FullyWritten f ⟨res, vs.map (registered f), callsOn f 0 vs⟩ ↔ ∀ o ∈ vs, ¬ ParseFails f o := by
  have hcall : ∀ i (hi : i < vs.length), (⟨vs[i], i, (parseReg f vs[i] ⟨0, 0⟩).res⟩ : ParseCall) ∈ callsOn f 0 vs :=
    fun i hi => List.mem_mapIdx.2 ⟨i, hi, by rw [Nat.zero_add]⟩
  constructor
  · rintro ⟨hkeep, -⟩ o ho hfail
    obtain ⟨i, hi, rfl⟩ := List.mem_iff_getElem.1 ho
    have := hkeep _ (hcall i hi) hfail
    rw [List.length_map] at this
    exact Nat.not_lt.2 this hi
  · intro hall
    refine ⟨fun c hc hfail => ?_, fun i r hr => ?_⟩
    · obtain ⟨i, hi, rfl⟩ := List.mem_mapIdx.1 hc
      exact absurd hfail (hall _ (List.getElem_mem hi))
    · rw [List.getElem?_map, Option.map_eq_some_iff] at hr
      obtain ⟨o, ho, rfl⟩ := hr
      obtain ⟨hi, rfl⟩ := List.getElem?_eq_some_iff.1 ho
      have hok : 0 ≤ (parseReg f vs[i] ⟨0, 0⟩).res := Int.not_lt.1 (hall _ (List.getElem_mem hi))
      exact ⟨_, hcall i hi, rfl, hok, fun b => parseReg_buf f vs[i] ⟨0, 0⟩ b hok⟩

/-- **A failing node is reported and left out** exactly when it is not among the first `MAX_MEM_REGIONS`. -/
theorem detectMemory_reports_iff (f : Libfdt) (os : List Int) (hos : Enumerates f (-1) os) :
    ((∃ o ∈ os, ParseFails f o) → ∃ d, detectMemory true f [] = .ok d ∧ d.res ≠ 0 ∧ FullyWritten f d) ↔
      ∀ o ∈ os.take maxMemRegions, ¬ ParseFails f o := by
  obtain ⟨vs, d, hrun, hpre, hroom, htable, hcalls, hend⟩ :=
    @detectFrom_registers f os (-1) [] [] (Int.le_refl _) hos (Nat.zero_le _)
  obtain ⟨res, table, calls⟩ := d
  rw [List.length_nil, Nat.zero_add] at hroom hend
  rw [List.nil_append] at htable hcalls
  rw [List.length_nil] at hcalls
  simp only at htable hcalls hend
  subst htable hcalls
  have hsub : ∀ o ∈ vs, o ∈ os.take maxMemRegions := fun o ho =>
    (List.prefix_take_iff.2 ⟨hpre, hroom⟩).subset ho
  constructor
  · intro h o ho hfail
    obtain ⟨d, hd, -, hwritten⟩ := h ⟨o, List.mem_of_mem_take ho, hfail⟩
    rw [detectMemory, hrun] at hd
    cases hd
    have hall := fullyWritten_iff.1 hwritten
    rcases hend with ⟨-, rfl⟩ | ⟨-, ⟨x, hx, hxres⟩ | ⟨hmax, -⟩⟩
    · exact hall o (List.mem_of_mem_take ho) hfail
    · refine hall x hx ?_
      rw [ParseFails, hxres]
      decide
    · rw [← hmax, ← List.prefix_iff_eq_take.1 hpre] at ho
      exact hall o ho hfail
  · rintro hfirst ⟨o, ho, hfail⟩
    have hall : ∀ x ∈ vs, ¬ ParseFails f x := fun x hx => hfirst x (hsub x hx)
    refine ⟨_, hrun, ?_, fullyWritten_iff.2 hall⟩
    rcases hend with ⟨-, rfl⟩ | ⟨hres, -⟩
    · exact absurd hfail (hall o ho)
    · exact fun h0 => absurd (hres.symm.trans h0) (by decide)

/-- One memory node under a root whose `#size-cells` is 5. -/
def badCellsTree : Libfdt where
  nodeOffsetByPropValue startoffset _ _ := if startoffset < 8 then 8 else fdtErrNotfound
  getprop nodeoffset name :=
    if nodeoffset = 8 ∧ name = "reg" then .ok (0x100, 8)
    else if nodeoffset = 0 ∧ name = "#address-cells" then .ok (0x200, 4)
    else if nodeoffset = 0 ∧ name = "#size-cells" then .ok (0x204, 4)
    else .error ⟨fdtErrNotfound, fdtErrNotfound_neg⟩
  parentOffset _ := 0
  cell a :=
    if a = 0x100 then 0x00000080#32
    else if a = 0x104 then 0x00100000#32
    else if a = 0x200 then 0x01000000#32
    else if a = 0x204 then 0x05000000#32
    else 0

theorem badCellsTree_enumerates : Enumerates badCellsTree (-1) [8] := ⟨rfl, by decide, fdtErrNotfound_neg⟩

theorem badCellsTree_parseReg : parseReg badCellsTree 8 ⟨0, 0⟩ = ⟨fdtErrBadncells, ⟨0x80, 0⟩, [0x100]⟩ := by
  rfl

theorem detectMemory_reports_iff_badCellsTree :
    ((∃ o ∈ [8], ParseFails badCellsTree o) →
      ∃ d, detectMemory true badCellsTree [] = .ok d ∧ d.res ≠ 0 ∧ FullyWritten badCellsTree d) ↔
      ∀ o ∈ [(8 : Int)].take maxMemRegions, ¬ ParseFails badCellsTree o :=
  detectMemory_reports_iff badCellsTree [8] badCellsTree_enumerates

/-- The error is not the one tested for: detection succeeds, with an address and no size. -/
theorem badCellsTree_half_applied :
    ParseFails badCellsTree 8 ∧
      ∃ d, detectMemory true badCellsTree [] = .ok d ∧ d.res = 0 ∧ d.table = [⟨0x80, 0⟩] ∧
        ¬ (d.res ≠ 0 ∧ FullyWritten badCellsTree d) := by
  have hround := @extractRamRegionInfo_ok true badCellsTree 8 [] (by decide) (Or.inl rfl)
  rw [badCellsTree_parseReg] at hround
  have hrun : detectMemory true badCellsTree [] = .ok ⟨0, [⟨0x80, 0⟩], [⟨8, 0, fdtErrBadncells⟩]⟩ := by
    rw [detectMemory, show nextMemoryNode badCellsTree (-1) = 8 from rfl,
      detectFrom_next (by decide) hround (by decide), detectFrom_end (by decide)]
    rfl
  refine ⟨?_, _, hrun, rfl, rfl, fun h => h.1 rfl⟩
  rw [ParseFails, badCellsTree_parseReg]
  decide

end RiscvOs
