import RiscvOs.FdtTags
import RiscvOs.Loops
import RiscvOs.Nesting
/-!
# From node to node (`libfdt/fdt.c`)

`fdt_next_node` goes from a node to the next `FDT_BEGIN_NODE`, and keeps count of the depth if it is asked to.  Between
the two there is a `Gap`; the depth follows the nodes that are open (`Nesting.unclosed`, `reaches_gap_depth`).
-/
namespace RiscvOs

open Loops (Returns Reaches)
open Nesting (unclosed Balanced)

/-- More rounds than there are offsets. -/
def maxRounds : Nat := 2 ^ 32

/-- `fdt_check_node_offset_`. -/
def fdtCheckNodeOffset (t : Fdt) (offset : Int) : Int :=
  if offset < 0 ∨ toUint32 offset % 4 ≠ 0 then fdtErrBadoffset
  else
    let r := fdtNextTag t offset
    if r.1 ≠ fdtBeginNode then fdtErrBadoffset else r.2

/-- The `switch` of `fdt_next_node`; without a `depth` the caller gave no pointer to one. -/
def nextNodeSwitch (offset : Int) (depth : Option Int) (tag : Nat) (nextoffset : Int) :
    (Int × Option Int) ⊕ (Int × Option Int) :=
  if tag = fdtBeginNode then .inr (offset, depth.map (· + 1))
  else if tag = fdtEndNode then
    match depth with
    | some d => if d - 1 < 0 then .inr (nextoffset, some (d - 1)) else .inl (nextoffset, some (d - 1))
    | none   => .inl (nextoffset, none)
  else if tag = fdtEnd then
    if nextoffset ≥ 0 ∨ nextoffset = fdtErrTruncated ∧ depth.isNone then .inr (fdtErrNotfound, depth)
    else .inr (nextoffset, depth)
  else .inl (nextoffset, depth)

/-- A round of `fdt_next_node`, from `nextoffset` and `*depth`. -/
def nextNodeRound (t : Fdt) (s : Int × Option Int) : (Int × Option Int) ⊕ (Int × Option Int) :=
  nextNodeSwitch s.1 s.2 (fdtNextTag t s.1).1 (fdtNextTag t s.1).2

/-- `fdt_next_node`: what it returns, and `*depth`. -/
def fdtNextNode (t : Fdt) (offset : Int) (depth : Option Int) : Int × Option Int :=
  if offset ≥ 0 then
    let nextoffset := fdtCheckNodeOffset t offset
    if nextoffset < 0 then (nextoffset, depth)
    else (Loops.run (nextNodeRound t) maxRounds (nextoffset, depth)).getD (fdtErrInternal, depth)
  else (Loops.run (nextNodeRound t) maxRounds (0, depth)).getD (fdtErrInternal, depth)

/-! ## The rounds of `fdt_next_node` -/

/-- `FDT_BEGIN_NODE` opens a node, `FDT_END_NODE` closes one. -/
def Tag.step (tag : Tag) : Option DyckStep :=
  match tag.kind with
  | .beginNode => some .U
  | .endNode   => some .D
  | _          => none

theorem Tag.step_eq_U_iff {tag : Tag} : tag.step = some .U ↔ tag.kind = .beginNode := by
  unfold Tag.step
  cases tag.kind <;> simp

theorem Tag.step_eq_D_iff {tag : Tag} : tag.step = some .D ↔ tag.kind = .endNode := by
  unfold Tag.step
  cases tag.kind <;> simp

theorem nextNodeSwitch_end (offset : Int) (depth : Option Int) (nextoffset : Int) :
    nextNodeSwitch offset depth fdtEnd nextoffset =
      if nextoffset ≥ 0 ∨ nextoffset = fdtErrTruncated ∧ depth.isNone then .inr (fdtErrNotfound, depth)
      else .inr (nextoffset, depth) := rfl

section

variable {t : Fdt} (hsize : t.block.size + 4 ≤ 2 ^ 31)

include hsize

theorem fdtCheckNodeOffset_of_reads {n : Tag} (h : t.block.Reads n) (hkind : n.kind = .beginNode)
    (haligned : n.off % 4 = 0) : fdtCheckNodeOffset t n.off = n.next := by
  have hbounds := h.bounds
  unfold fdtCheckNodeOffset
  rw [toUint32_natCast (by omega), if_neg (by omega), fdtNextTag_of_reads h hsize, hkind]
  rfl

/-- An offset at which no node begins. -/
theorem fdtCheckNodeOffset_of_not {offset : Int} (hlt : offset < 2 ^ 31)
    (h : ∀ n, t.block.Reads n → (n.off : Int) = offset → n.kind = .beginNode → n.off % 4 ≠ 0) :
    fdtCheckNodeOffset t offset = fdtErrBadoffset := by
  unfold fdtCheckNodeOffset
  by_cases hbad : offset < 0 ∨ toUint32 offset % 4 ≠ 0
  · rw [if_pos hbad]
  rw [if_neg hbad]
  dsimp only
  rcases fdtNextTag_total hlt hsize with ⟨n, hn, hoff, hrun⟩ | ⟨-, err, -, hrun⟩
  · have haligned : n.off % 4 = 0 := by
      unfold toUint32 at hbad
      omega
    rw [hrun, if_pos]
    exact fun hkind => h n hn hoff (TagKind.tag_inj hkind) haligned
  · rw [hrun]
    exact if_pos (show fdtEnd ≠ fdtBeginNode by decide)

theorem nextNodeRound_of_reads {n : Tag} (h : t.block.Reads n) (depth : Option Int) :
    nextNodeRound t (n.off, depth) = nextNodeSwitch n.off depth n.kind.tag n.next := by
  unfold nextNodeRound
  dsimp only
  rw [fdtNextTag_of_reads h hsize]

theorem nextNodeRound_begin {n : Tag} (h : t.block.Reads n) (hkind : n.kind = .beginNode) (depth : Option Int) :
    nextNodeRound t (n.off, depth) = .inr ((n.off : Int), depth.map (· + 1)) := by
  rw [nextNodeRound_of_reads hsize h, hkind]
  rfl

theorem nextNodeRound_pass {n : Tag} (h : t.block.Reads n) (hkind : n.kind = .prop ∨ n.kind = .nop)
    (depth : Option Int) : nextNodeRound t (n.off, depth) = .inl ((n.next : Int), depth) := by
  rw [nextNodeRound_of_reads hsize h]
  rcases hkind with hkind | hkind <;> rw [hkind] <;> rfl

theorem nextNodeRound_end {n : Tag} (h : t.block.Reads n) (hkind : n.kind = .endNode) (d : Nat) :
    nextNodeRound t (n.off, some ((d + 1 : Nat) : Int)) = .inl ((n.next : Int), some (d : Int)) := by
  rw [nextNodeRound_of_reads hsize h, hkind]
  have hdepth : ((d + 1 : Nat) : Int) - 1 = d := by omega
  show (if ((d + 1 : Nat) : Int) - 1 < 0 then _ else _) = _
  rw [hdepth, if_neg (by omega)]

theorem nextNodeRound_close {n : Tag} (h : t.block.Reads n) (hkind : n.kind = .endNode) :
    nextNodeRound t (n.off, some 0) = .inr ((n.next : Int), some (-1)) := by
  rw [nextNodeRound_of_reads hsize h, hkind]
  rfl

theorem nextNodeRound_end_none {n : Tag} (h : t.block.Reads n) (hkind : n.kind = .endNode) :
    nextNodeRound t (n.off, none) = .inl ((n.next : Int), none) := by
  rw [nextNodeRound_of_reads hsize h, hkind]
  rfl

theorem nextNodeRound_fin {n : Tag} (h : t.block.Reads n) (hkind : n.kind = .fin) (depth : Option Int) :
    nextNodeRound t (n.off, depth) = .inr (fdtErrNotfound, depth) := by
  rw [nextNodeRound_of_reads hsize h, hkind]
  show nextNodeSwitch n.off depth fdtEnd n.next = _
  rw [nextNodeSwitch_end, if_pos (Or.inl (Int.natCast_nonneg _))]

/-- Every round leaves with an error or an offset from `s.1` on, or goes on behind its tag. -/
theorem nextNodeRound_cases (s : Int × Option Int) (hs : s.1 < 2 ^ 31) :
    (∃ r, nextNodeRound t s = .inr r ∧ (r.1 < 0 ∨ s.1 ≤ r.1 ∧ r.1 < 2 ^ 31)) ∨
      ∃ s', nextNodeRound t s = .inl s' ∧ s'.1 < 2 ^ 31 ∧ s.1 < s'.1 ∧ 0 ≤ s.1 := by
  obtain ⟨offset, depth⟩ := s
  unfold nextNodeRound
  dsimp only at hs ⊢
  rcases fdtNextTag_total hs hsize with ⟨n, hn, rfl, hrun⟩ | ⟨-, err, herr, hrun⟩
  · have hbounds := hn.bounds
    rw [hrun]
    have hon : (n.next : Int) < 2 ^ 31 ∧ (n.off : Int) < n.next ∧ (0 : Int) ≤ n.off := by omega
    unfold nextNodeSwitch
    dsimp only
    split_ifs with h1 h2 h3 h4
    · exact Or.inl ⟨_, rfl, Or.inr ⟨Int.le_refl _, hs⟩⟩
    · cases depth with
      | none => exact Or.inr ⟨_, rfl, hon⟩
      | some d =>
        dsimp only
        split
        · exact Or.inl ⟨_, rfl, Or.inr ⟨Int.le_of_lt hon.2.1, hon.1⟩⟩
        · exact Or.inr ⟨_, rfl, hon⟩
    · exact Or.inl ⟨_, rfl, Or.inl fdtErrNotfound_neg⟩
    · exact absurd (Or.inl (Int.natCast_nonneg _)) h4
    · exact Or.inr ⟨_, rfl, hon⟩
  · rw [hrun]
    dsimp only
    rw [nextNodeSwitch_end]
    split
    · exact Or.inl ⟨_, rfl, Or.inl fdtErrNotfound_neg⟩
    · exact Or.inl ⟨_, rfl, Or.inl herr⟩

/-- The rounds are enough. -/
theorem run_of_returns {o : Nat} {depth : Option Int} {r : Int × Option Int} (ho : o < 2 ^ 31)
    (h : Returns (nextNodeRound t) ((o : Int), depth) r) :
    Loops.run (nextNodeRound t) maxRounds ((o : Int), depth) = some r := by
  refine Loops.run_eq_of_returns (I := fun s => s.1 < 2 ^ 31) (fun s => (2 ^ 31 - s.1).toNat) (fun s hs => ?_) ?_ ?_ h
  · rcases nextNodeRound_cases hsize s hs with ⟨r, hr, -⟩ | ⟨s', hs', hlt, hon, -⟩
    · exact Or.inl ⟨r, hr⟩
    · exact Or.inr ⟨s', hs', hlt, by omega⟩
  · dsimp only
    omega
  · unfold maxRounds
    dsimp only
    omega

theorem fdtNextNode_of_returns {n : Tag} {depth : Option Int} {r : Int × Option Int} (h : t.block.Reads n)
    (hkind : n.kind = .beginNode) (haligned : n.off % 4 = 0)
    (hr : Returns (nextNodeRound t) ((n.next : Int), depth) r) : fdtNextNode t n.off depth = r := by
  have hbounds := h.bounds
  unfold fdtNextNode
  rw [if_pos (Int.natCast_nonneg _), fdtCheckNodeOffset_of_reads hsize h hkind haligned]
  dsimp only
  rw [if_neg (Int.not_lt.2 (Int.natCast_nonneg _)), run_of_returns hsize (by omega) hr]
  rfl

/-- The first node. -/
theorem fdtNextNode_of_neg {offset : Int} {depth : Option Int} {r : Int × Option Int} (hneg : offset < 0)
    (hr : Returns (nextNodeRound t) (0, depth) r) : fdtNextNode t offset depth = r := by
  have hrun := run_of_returns hsize (o := 0) (by decide) hr
  rw [Int.natCast_zero] at hrun
  unfold fdtNextNode
  rw [if_neg (Int.not_le.2 hneg), hrun]
  rfl

theorem fdtNextNode_of_not {offset : Int} (depth : Option Int) (h0 : 0 ≤ offset) (hlt : offset < 2 ^ 31)
    (h : ∀ n, t.block.Reads n → (n.off : Int) = offset → n.kind = .beginNode → n.off % 4 ≠ 0) :
    fdtNextNode t offset depth = (fdtErrBadoffset, depth) := by
  unfold fdtNextNode
  rw [if_pos h0, fdtCheckNodeOffset_of_not hsize hlt h]
  rfl

/-- **`fdt_next_node` goes on**, or fails. -/
theorem fdtNextNode_progress (offset : Int) (depth : Option Int) (hlt : offset < 2 ^ 31) :
    (fdtNextNode t offset depth).1 < 0 ∨
      offset < (fdtNextNode t offset depth).1 ∧ (fdtNextNode t offset depth).1 < 2 ^ 31 := by
  have hloop : ∀ o : Nat, o < 2 ^ 31 → ∃ r : Int × Option Int, Returns (nextNodeRound t) ((o : Int), depth) r ∧
      (r.1 < 0 ∨ (o : Int) ≤ r.1 ∧ r.1 < 2 ^ 31) := by
    intro o ho
    refine Loops.returns_of_variant (I := fun s => (o : Int) ≤ s.1 ∧ s.1 < 2 ^ 31) (fun s => (2 ^ 31 - s.1).toNat)
      (fun s hs => ?_) _ ⟨Int.le_refl _, by dsimp only; omega⟩
    rcases nextNodeRound_cases hsize s hs.2 with ⟨r, hr, hbound⟩ | ⟨s', hs', hlt', hon, -⟩
    · exact Or.inl ⟨r, hr, by omega⟩
    · exact Or.inr ⟨s', hs', ⟨by omega, hlt'⟩, by omega⟩
  by_cases hneg : offset < 0
  · obtain ⟨r, hr, hbound⟩ := hloop 0 (by decide)
    rw [fdtNextNode_of_neg hsize hneg hr]
    omega
  by_cases hnode : ∃ n, t.block.Reads n ∧ (n.off : Int) = offset ∧ n.kind = .beginNode ∧ n.off % 4 = 0
  · obtain ⟨n, hn, rfl, hkind, haligned⟩ := hnode
    have hbounds := hn.bounds
    obtain ⟨r, hr, hbound⟩ := hloop n.next (by omega)
    rw [fdtNextNode_of_returns hsize hn hkind haligned hr]
    omega
  · left
    rw [fdtNextNode_of_not hsize depth (Int.not_lt.1 hneg) hlt
      fun n hn hoff hkind haligned => hnode ⟨n, hn, hoff, hkind, haligned⟩]
    exact (by decide : fdtErrBadoffset < 0)

/-! ## From node to node -/

/-- Between two nodes there is no `FDT_BEGIN_NODE` and no `FDT_END`. -/
def Gap (tags : List Tag) : Prop := ∀ tag ∈ tags, tag.kind ≠ .beginNode ∧ tag.kind ≠ .fin

omit hsize in
theorem Gap.of_cons {tag : Tag} {tags : List Tag} (h : Gap (tag :: tags)) : Gap tags := fun n hn =>
  h n (List.mem_cons_of_mem tag hn)

omit hsize in
/-- Up to the first node. -/
theorem exists_gap : ∀ {tags : List Tag}, (∀ tag ∈ tags, tag.kind ≠ .fin) →
    Gap tags ∨ ∃ gap n rest, tags = gap ++ n :: rest ∧ Gap gap ∧ n.kind = .beginNode
  | [], _ => Or.inl fun _ htag => absurd htag List.not_mem_nil
  | tag :: tags, h => by
    by_cases hkind : tag.kind = .beginNode
    · exact Or.inr ⟨[], tag, tags, rfl, fun _ htag => absurd htag List.not_mem_nil, hkind⟩
    · have hhead : tag.kind ≠ .beginNode ∧ tag.kind ≠ .fin := ⟨hkind, h tag List.mem_cons_self⟩
      rcases exists_gap fun n hn => h n (List.mem_cons_of_mem tag hn) with hgap | ⟨gap, n, rest, rfl, hgap, hn⟩
      · exact Or.inl (List.forall_mem_cons.2 ⟨hhead, hgap⟩)
      · exact Or.inr ⟨tag :: gap, n, rest, rfl, List.forall_mem_cons.2 ⟨hhead, hgap⟩, hn⟩

omit hsize in
theorem Gap.step_ne {tags : List Tag} (h : Gap tags) : ∀ tag ∈ tags, tag.step ≠ some .U := fun tag htag hstep =>
  (h tag htag).1 (Tag.step_eq_U_iff.1 hstep)

theorem reaches_gap {o e : Nat} {tags : List Tag} (hgap : Gap tags) (hwalk : Walk t.block o tags e) :
    Reaches (nextNodeRound t) ((o : Int), none) ((e : Int), none) := by
  induction hwalk with
  | nil => exact Reaches.refl _ _
  | @cons tag tags e hreads hrest ih =>
    refine Reaches.head ?_ (ih hgap.of_cons)
    have hkind := hgap tag List.mem_cons_self
    cases hk : tag.kind with
    | beginNode => exact absurd hk hkind.1
    | endNode => exact nextNodeRound_end_none hsize hreads hk
    | prop => exact nextNodeRound_pass hsize hreads (Or.inl hk) none
    | nop => exact nextNodeRound_pass hsize hreads (Or.inr hk) none
    | fin => exact absurd hk hkind.2

/-- The depth is the number of nodes that are open inside the root. -/
theorem reaches_gap_depth {o e : Nat} {tags st st' : List Tag} (hgap : Gap tags) (hwalk : Walk t.block o tags e)
    (hst : unclosed Tag.step st tags = some st') :
    Reaches (nextNodeRound t) ((o : Int), some (st.length : Int)) ((e : Int), some (st'.length : Int)) := by
  induction hwalk generalizing st with
  | nil =>
    rw [unclosed, Option.some.injEq] at hst
    rw [hst]
    exact Reaches.refl _ _
  | @cons tag tags e hreads hrest ih =>
    have hkind := hgap tag List.mem_cons_self
    cases hk : tag.kind with
    | beginNode => exact absurd hk hkind.1
    | endNode =>
      have hstep : tag.step = some .D := Tag.step_eq_D_iff.2 hk
      cases st with
      | nil =>
        rw [Nesting.unclosed_closes_nil hstep] at hst
        cases hst
      | cons n st =>
        rw [Nesting.unclosed_closes hstep] at hst
        exact Reaches.head (nextNodeRound_end hsize hreads hk st.length) (ih hgap.of_cons hst)
    | prop =>
      rw [Nesting.unclosed_other (by rw [Tag.step, hk])] at hst
      exact Reaches.head (nextNodeRound_pass hsize hreads (Or.inl hk) _) (ih hgap.of_cons hst)
    | nop =>
      rw [Nesting.unclosed_other (by rw [Tag.step, hk])] at hst
      exact Reaches.head (nextNodeRound_pass hsize hreads (Or.inr hk) _) (ih hgap.of_cons hst)
    | fin => exact absurd hk hkind.2

/-- **The next node**, and how deep it is. -/
theorem fdtNextNode_begin {n m : Tag} {gap st st' : List Tag} {e : Nat} (h : t.block.Reads n)
    (hkind : n.kind = .beginNode) (haligned : n.off % 4 = 0) (hgap : Gap gap) (hm : m.kind = .beginNode)
    (hwalk : Walk t.block n.next (gap ++ [m]) e) (hst : unclosed Tag.step st gap = some st') :
    fdtNextNode t n.off (some (st.length : Int)) = ((m.off : Int), some ((st'.length : Int) + 1)) := by
  obtain ⟨hwalk, hreads, -⟩ := Walk.concat_iff.1 hwalk
  refine fdtNextNode_of_returns hsize h hkind haligned (Reaches.returns (reaches_gap_depth hsize hgap hwalk hst) ?_)
  exact Loops.returns_of_inr (nextNodeRound_begin hsize hreads hm _)

/-- **Behind the last node the root is closed.** -/
theorem fdtNextNode_close {n close : Tag} {gap st : List Tag} {e : Nat} (h : t.block.Reads n)
    (hkind : n.kind = .beginNode) (haligned : n.off % 4 = 0) (hgap : Gap gap) (hclose : close.kind = .endNode)
    (hwalk : Walk t.block n.next (gap ++ [close]) e) (hst : unclosed Tag.step st gap = some []) :
    fdtNextNode t n.off (some (st.length : Int)) = ((close.next : Int), some (-1)) := by
  obtain ⟨hwalk, hreads, -⟩ := Walk.concat_iff.1 hwalk
  refine fdtNextNode_of_returns hsize h hkind haligned (Reaches.returns (reaches_gap_depth hsize hgap hwalk hst) ?_)
  exact Loops.returns_of_inr (nextNodeRound_close hsize hreads hclose)

end

end RiscvOs
