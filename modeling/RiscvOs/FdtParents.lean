import RiscvOs.FdtNodes
/-!
# The nodes around a node (`libfdt/fdt_ro.c`)

`fdt_supernode_atdepth_offset` walks from the root with `fdt_next_node` and remembers the last node at a depth.  The
nodes that are open where a node begins are those it is in, and one of them is the last at its depth (`Here`), so the
depth and the parent that come out are the node's own.
-/
namespace RiscvOs

open Loops (Returns Reaches)
open Nesting (unclosed Balanced)

/-- The locals of `fdt_supernode_atdepth_offset`. -/
structure Supernode where
  offset : Int
  depth : Int
  supernodeoffset : Int

/-- A round of `fdt_supernode_atdepth_offset`, which leaves with what it returns and `*nodedepth`, if that is set. -/
def supernodeRound (t : Fdt) (nodeoffset supernodedepth : Int) (s : Supernode) : Supernode ⊕ (Int × Option Int) :=
  if s.offset ≥ 0 ∧ s.offset ≤ nodeoffset then
    let supernodeoffset := if s.depth = supernodedepth then s.offset else s.supernodeoffset
    if s.offset = nodeoffset then
      .inr (if supernodedepth > s.depth then fdtErrNotfound else supernodeoffset, some s.depth)
    else
      let (offset, depth) := fdtNextNode t s.offset (some s.depth)
      .inl ⟨offset, depth.getD s.depth, supernodeoffset⟩
  else if s.offset = fdtErrNotfound ∨ s.offset ≥ 0 then .inr (fdtErrBadoffset, none)
  else if s.offset = fdtErrBadoffset then .inr (fdtErrBadstructure, none)
  else .inr (s.offset, none)

def fdtSupernodeAtdepthOffset (t : Fdt) (nodeoffset supernodedepth : Int) : Int × Option Int :=
  let totalsize := fdtRoProbe t
  if totalsize < 0 then (totalsize, none)
  else if supernodedepth < 0 then (fdtErrNotfound, none)
  else
    (Loops.run (supernodeRound t nodeoffset supernodedepth) maxRounds ⟨0, 0, fdtErrInternal⟩).getD
      (fdtErrInternal, none)

def fdtNodeDepth (t : Fdt) (nodeoffset : Int) : Int :=
  let (err, nodedepth) := fdtSupernodeAtdepthOffset t nodeoffset 0
  if err ≠ 0 then if err < 0 then err else fdtErrInternal
  -- a node at depth 0 has been found, and its depth set
  else nodedepth.getD 0

def fdtParentOffset (t : Fdt) (nodeoffset : Int) : Int :=
  let nodedepth := fdtNodeDepth t nodeoffset
  if nodedepth < 0 then nodedepth else (fdtSupernodeAtdepthOffset t nodeoffset (nodedepth - 1)).1

/-! ## The walk from the root -/

/-- The structure block starts with a node, which ends with `close`. -/
structure Rooted (k : Block) (root : Tag) (inner : List Tag) (close : Tag) : Prop where
  walk : Walk k 0 (root :: (inner ++ [close])) close.next
  root : root.kind = .beginNode
  close : close.kind = .endNode
  balanced : Balanced Tag.step inner
  inside : ∀ tag ∈ inner, tag.kind ≠ .fin

/-- The walk is at node `m`, with `st` open inside the root and `rest` to come before the root is closed. -/
structure Here (k : Block) (root close : Tag) (supernodedepth : Nat) (m : Tag) (st rest : List Tag) (s : Supernode) :
    Prop where
  reads : k.Reads m
  kind : m.kind = .beginNode
  aligned : m.off % 4 = 0
  innermost : (root :: st.reverse).getLast? = some m
  walk : Walk k m.next (rest ++ [close]) close.next
  closed : unclosed Tag.step st rest = some []
  inside : ∀ tag ∈ rest, tag.kind ≠ .fin
  offset : s.offset = m.off
  depth : s.depth = st.length
  /-- The node at the depth, once the walk is deeper, is the one remembered. -/
  remembered : ∀ a, supernodedepth < st.length → (root :: st.reverse)[supernodedepth]? = some a →
    s.supernodeoffset = a.off

section

variable {t : Fdt} {root close m : Tag} {k : Nat} {st rest : List Tag} {s : Supernode}

theorem Rooted.here {inner : List Tag} (h : Rooted t.block root inner close) :
    Here t.block root close k root [] inner ⟨0, 0, fdtErrInternal⟩ := by
  obtain ⟨hoff, hreads, hwalk⟩ := Walk.cons_iff.1 h.walk
  exact ⟨hreads, h.root, by omega, rfl, hwalk, h.balanced, h.inside, by rw [hoff]; rfl, rfl,
    fun _ hlt => absurd hlt (Nat.not_lt_zero k)⟩

/-- The node at the depth, as the round that the walk is at leaves it. -/
theorem Here.remembers (h : Here t.block root close k m st rest s) {a : Tag}
    (ha : (root :: st.reverse)[k]? = some a) :
    (if s.depth = (k : Int) then s.offset else s.supernodeoffset) = a.off := by
  have hle : k ≤ st.length := by
    have hlt := (List.getElem?_eq_some_iff.1 ha).1
    rw [List.length_cons, List.length_reverse] at hlt
    omega
  by_cases hk : k = st.length
  · -- the walk is at this depth: the innermost node is the one
    have hlast := h.innermost
    rw [List.getLast?_eq_getElem?, List.length_cons, List.length_reverse, Nat.add_sub_cancel, ← hk] at hlast
    rw [if_pos (by rw [h.depth, hk]), h.offset]
    rw [hlast, Option.some.injEq] at ha
    rw [ha]
  · rw [if_neg (by rw [h.depth]; omega)]
    exact h.remembered a (by omega) ha

theorem Here.found (h : Here t.block root close k m st rest s) :
    supernodeRound t m.off k s = .inr
      (((root :: st.reverse)[k]?.map fun a => (a.off : Int)).getD fdtErrNotfound, some (st.length : Int)) := by
  have hin : s.offset ≥ 0 ∧ s.offset ≤ (m.off : Int) := by
    rw [h.offset]
    exact ⟨Int.natCast_nonneg _, Int.le_refl _⟩
  unfold supernodeRound
  rw [if_pos hin]
  dsimp only
  rw [if_pos h.offset]
  cases ha : (root :: st.reverse)[k]? with
  | none =>
    have hlt : st.length < k := by
      rw [List.getElem?_eq_none_iff, List.length_cons, List.length_reverse] at ha
      omega
    rw [if_pos (by rw [h.depth]; omega), h.depth]
    rfl
  | some a =>
    have hle : k ≤ st.length := by
      have hlt := (List.getElem?_eq_some_iff.1 ha).1
      rw [List.length_cons, List.length_reverse] at hlt
      omega
    rw [if_neg (by rw [h.depth]; omega), h.remembers ha, h.depth]
    rfl

variable (hsize : t.block.size + 4 ≤ 2 ^ 31)

include hsize

/-- **A round goes on to the next node**, and the nodes that are open follow. -/
theorem Here.next {gap rest : List Tag} {n : Tag} (h : Here t.block root close k m st (gap ++ n :: rest) s)
    (hgap : Gap gap) (hn : n.kind = .beginNode) {nodeoffset : Int} (hlt : (m.off : Int) < nodeoffset) :
    ∃ st' s', unclosed Tag.step st gap = some st' ∧ supernodeRound t nodeoffset k s = .inl s' ∧
      Here t.block root close k n (n :: st') rest s' := by
  have hwalk := h.walk
  rw [List.append_assoc, List.cons_append] at hwalk
  obtain ⟨o, hbefore, hafter⟩ := Walk.append_iff.1 hwalk
  obtain ⟨rfl, hreads, hrest⟩ := Walk.cons_iff.1 hafter
  have hclosed := h.closed
  rw [Nesting.unclosed_append] at hclosed
  obtain ⟨st', hst, hrestClosed⟩ := Option.bind_eq_some_iff.1 hclosed
  rw [Nesting.unclosed_opens (Tag.step_eq_U_iff.2 hn)] at hrestClosed
  obtain ⟨closedHere, rfl⟩ := Nesting.unclosed_suffix hgap.step_ne hst
  have hnext := fdtNextNode_begin hsize h.reads h.kind h.aligned hgap hn
    (Walk.concat_iff.2 ⟨hbefore, hreads, rfl⟩) hst
  have hin : s.offset ≥ 0 ∧ s.offset ≤ nodeoffset := by
    rw [h.offset]
    exact ⟨Int.natCast_nonneg _, Int.le_of_lt hlt⟩
  have hround : supernodeRound t nodeoffset k s =
      .inl ⟨n.off, (st'.length : Int) + 1, if s.depth = (k : Int) then s.offset else s.supernodeoffset⟩ := by
    unfold supernodeRound
    rw [if_pos hin]
    dsimp only
    rw [if_neg (by rw [h.offset]; omega), h.offset, h.depth, hnext]
    rfl
  refine ⟨st', _, hst, hround, hreads, hn, ?_, ?_, hrest, hrestClosed, ?_, rfl, rfl, ?_⟩
  · exact (hbefore.aligned h.reads.bounds.2.1).2
  · rw [List.reverse_cons, ← List.cons_append, List.getLast?_concat]
  · exact fun tag htag => h.inside tag (List.mem_append_right _ (List.mem_cons_of_mem _ htag))
  · intro a hk ha
    have hk' : k < (root :: st'.reverse).length := by
      rw [List.length_cons, List.length_reverse]
      exact hk
    apply h.remembers
    rw [List.reverse_cons, ← List.cons_append, List.getElem?_append_left hk'] at ha
    rw [List.reverse_append, ← List.cons_append, List.getElem?_append_left hk']
    exact ha

/-- Behind the last node. -/
theorem Here.last (h : Here t.block root close k m st rest s) (hclose : close.kind = .endNode) (hgap : Gap rest)
    {nodeoffset : Int} (hlt : (m.off : Int) < nodeoffset) :
    ∃ supernodeoffset, supernodeRound t nodeoffset k s = .inl ⟨close.next, -1, supernodeoffset⟩ := by
  have hnext := fdtNextNode_close hsize h.reads h.kind h.aligned hgap hclose h.walk h.closed
  have hin : s.offset ≥ 0 ∧ s.offset ≤ nodeoffset := by
    rw [h.offset]
    exact ⟨Int.natCast_nonneg _, Int.le_of_lt hlt⟩
  refine ⟨if s.depth = (k : Int) then s.offset else s.supernodeoffset, ?_⟩
  unfold supernodeRound
  rw [if_pos hin]
  dsimp only
  rw [if_neg (by rw [h.offset]; omega), h.offset, h.depth, hnext]
  rfl

/-- **The walk comes to every node**, and then the nodes that are open are those it is in. -/
theorem Here.reaches {rest : List Tag} {n : Tag} (hn : n.kind = .beginNode) :
    ∀ {before : List Tag} {m : Tag} {st : List Tag} {s : Supernode},
    Here t.block root close k m st (before ++ n :: rest) s →
    ∃ st' s', unclosed Tag.step st before = some st' ∧ Reaches (supernodeRound t n.off k) s s' ∧
      Here t.block root close k n (n :: st') rest s' := by
  intro before
  induction hN : before.length using Nat.strongRecOn generalizing before with
  | ind N ih =>
    intro m st s h
    have hlt : (m.off : Int) < n.off := by
      have hbounds := h.reads.bounds
      have hmem := h.walk.mem_bounds (List.mem_append_left _ (List.mem_append_right _ List.mem_cons_self))
      omega
    have hinside : ∀ tag ∈ before, tag.kind ≠ .fin := fun tag htag => h.inside tag (List.mem_append_left _ htag)
    rcases exists_gap hinside with hgap | ⟨gap, m', before', rfl, hgap, hm'⟩
    · obtain ⟨st', s', hst, hround, hhere⟩ := h.next hsize hgap hn hlt
      exact ⟨st', s', hst, Loops.reaches_of_inl hround, hhere⟩
    · rw [List.append_assoc, List.cons_append] at h
      obtain ⟨st1, s1, hst1, hround, hhere⟩ := h.next hsize hgap hm' hlt
      have hshort : before'.length < N := by
        rw [← hN, List.length_append, List.length_cons]
        omega
      obtain ⟨st', s', hst, hreach, hthere⟩ := ih _ hshort rfl hhere
      refine ⟨st', s', ?_, Reaches.head hround hreach, hthere⟩
      rw [Nesting.unclosed_append_of_eq hst1, Nesting.unclosed_opens (Tag.step_eq_U_iff.2 hm'), hst]

omit hsize in
/-- Past the offset asked for. -/
theorem supernodeRound_past {nodeoffset : Int} (h0 : s.offset ≥ 0) (hlt : nodeoffset < s.offset) :
    supernodeRound t nodeoffset k s = .inr (fdtErrBadoffset, none) := by
  unfold supernodeRound
  rw [if_neg (by omega), if_pos (Or.inr h0)]

/-- What is returned for an offset inside or behind the root that is no node's. -/
def missedNode (x : Int) (stop : Nat) : Int × Option Int :=
  if x < stop then (fdtErrBadoffset, none)
  else if x = stop then (fdtErrNotfound, some (-1))
  else (fdtErrBadstructure, none)

/-- The walk has left the root, and no node begins there. -/
theorem supernode_behind {x : Int} {stop : Nat} (hstop : stop < 2 ^ 31) {supernodeoffset : Int}
    (hend : ∀ n, t.block.Reads n → n.off = stop → n.kind ≠ .beginNode) :
    Returns (supernodeRound t x k) ⟨stop, -1, supernodeoffset⟩ (missedNode x stop) := by
  unfold missedNode
  by_cases hbefore : x < stop
  · rw [if_pos hbefore]
    exact Loops.returns_of_inr (supernodeRound_past (Int.natCast_nonneg _) hbefore)
  rw [if_neg hbefore]
  by_cases hat : x = stop
  · rw [if_pos hat, hat]
    apply Loops.returns_of_inr
    unfold supernodeRound
    rw [if_pos ⟨Int.natCast_nonneg _, Int.le_refl _⟩]
    dsimp only
    rw [if_pos rfl, if_pos (by omega)]
  · rw [if_neg hat]
    have hnext : fdtNextNode t stop (some (-1)) = (fdtErrBadoffset, some (-1)) :=
      fdtNextNode_of_not hsize (some (-1)) (Int.natCast_nonneg _) (by omega) fun n hn hoff hkind =>
        absurd hkind (hend n hn (Int.ofNat.inj hoff))
    have hround : ∃ s', supernodeRound t x k ⟨stop, -1, supernodeoffset⟩ = .inl s' ∧ s'.offset = fdtErrBadoffset := by
      unfold supernodeRound
      rw [if_pos ⟨Int.natCast_nonneg _, Int.not_lt.1 hbefore⟩]
      dsimp only
      rw [if_neg (Ne.symm hat), hnext]
      exact ⟨_, rfl, rfl⟩
    obtain ⟨s', hround, hoffset⟩ := hround
    refine Loops.returns_of_inl hround (Loops.returns_of_inr ?_)
    unfold supernodeRound
    have hfailed : ¬ (fdtErrBadoffset ≥ 0 ∧ fdtErrBadoffset ≤ x) := fun h => absurd h.1 (by decide)
    rw [hoffset, if_neg hfailed, if_neg (by decide), if_pos rfl]

/-- **No node is found at an offset that is no node's.** -/
theorem Here.misses {x : Int} (hclose : close.kind = .endNode) (hstop : close.next < 2 ^ 31)
    (hend : ∀ n, t.block.Reads n → n.off = close.next → n.kind ≠ .beginNode) :
    ∀ {rest : List Tag} {m : Tag} {st : List Tag} {s : Supernode}, Here t.block root close k m st rest s →
      (∀ n ∈ m :: rest, n.kind = .beginNode → (n.off : Int) ≠ x) →
      Returns (supernodeRound t x k) s (missedNode x close.next) := by
  intro rest
  induction hN : rest.length using Nat.strongRecOn generalizing rest with
  | ind N ih =>
    intro m st s h hmiss
    have hoffset : (0 : Int) ≤ m.off ∧ m.off < close.next := by
      have hbounds := h.reads.bounds
      have hle := h.walk.le
      omega
    have hne := hmiss m List.mem_cons_self h.kind
    by_cases hpast : x < m.off
    · have hmissed : missedNode x close.next = (fdtErrBadoffset, none) := if_pos (by omega)
      rw [hmissed]
      exact Loops.returns_of_inr (supernodeRound_past (by rw [h.offset]; omega) (by rw [h.offset]; exact hpast))
    have hlt : (m.off : Int) < x := by omega
    rcases exists_gap h.inside with hgap | ⟨gap, m', rest', rfl, hgap, hm'⟩
    · obtain ⟨supernodeoffset, hround⟩ := h.last hsize hclose hgap hlt
      exact Loops.returns_of_inl hround (supernode_behind hsize hstop hend)
    · obtain ⟨st', s', -, hround, hhere⟩ := h.next hsize hgap hm' hlt
      refine Loops.returns_of_inl hround (ih _ ?_ rfl hhere fun n hn => hmiss n ?_)
      · rw [← hN, List.length_append, List.length_cons]
        omega
      · exact List.mem_cons_of_mem m (List.mem_append_right gap hn)

/-- The rounds are enough. -/
theorem supernode_run {x : Int} {r : Int × Option Int} (hs : 0 ≤ s.offset ∧ s.offset < 2 ^ 31)
    (h : Returns (supernodeRound t x k) s r) : Loops.run (supernodeRound t x k) maxRounds s = some r := by
  refine Loops.run_eq_of_returns (I := fun s => s.offset < 2 ^ 31)
    (fun s => if s.offset < 0 then 0 else (2 ^ 31 + 1 - s.offset).toNat) (fun s hlt => ?_) hs.2 ?_ h
  · have hnext := fdtNextNode_progress hsize s.offset (some s.depth) hlt
    unfold supernodeRound
    by_cases hin : s.offset ≥ 0 ∧ s.offset ≤ x
    · rw [if_pos hin]
      dsimp only
      by_cases hat : s.offset = x
      · rw [if_pos hat]
        exact Or.inl ⟨_, rfl⟩
      · rw [if_neg hat]
        refine Or.inr ⟨_, rfl, ?_, ?_⟩
        · dsimp only
          omega
        · dsimp only
          split_ifs <;> omega
    · left
      rw [if_neg hin]
      split_ifs
      · exact ⟨_, rfl⟩
      · exact ⟨_, rfl⟩
      · exact ⟨_, rfl⟩
  · unfold maxRounds
    split_ifs <;> omega

/-! ## Depth and parent -/

theorem fdtSupernode_of_returns {x : Int} {r : Int × Option Int} (hprobe : 0 ≤ fdtRoProbe t)
    (h : Returns (supernodeRound t x k) ⟨0, 0, fdtErrInternal⟩ r) : fdtSupernodeAtdepthOffset t x k = r := by
  unfold fdtSupernodeAtdepthOffset
  dsimp only
  rw [if_neg (Int.not_lt.2 hprobe), if_neg (Int.not_lt.2 (Int.natCast_nonneg k)),
    supernode_run hsize ⟨Int.le_refl 0, by decide⟩ h]
  rfl

/-- **`fdt_supernode_atdepth_offset` returns the node at the depth among those that a node is in**, or is. -/
theorem fdtSupernode_eq {inner : List Tag} (hprobe : 0 ≤ fdtRoProbe t) (h : Rooted t.block root inner close) {n : Tag}
    (hn : n.kind = .beginNode) {before after : List Tag} (hsplit : root :: inner = before ++ n :: after) (k : Nat) :
    ∃ st, unclosed Tag.step [] before = some st ∧ (n :: st).reverse[0]? = some root ∧
      fdtSupernodeAtdepthOffset t n.off k =
        (((n :: st).reverse[k]?.map fun a => (a.off : Int)).getD fdtErrNotfound, some (st.length : Int)) := by
  cases before with
  | nil =>
    obtain ⟨rfl, rfl⟩ := List.cons.inj hsplit
    refine ⟨[], rfl, rfl, fdtSupernode_of_returns hsize hprobe ?_⟩
    exact Loops.returns_of_inr h.here.found
  | cons _ before =>
    obtain ⟨rfl, rfl⟩ := List.cons.inj hsplit
    obtain ⟨st, s', hst, hreach, hhere⟩ := Here.reaches hsize hn (h.here (k := k))
    refine ⟨st ++ [root], ?_, by simp, fdtSupernode_of_returns hsize hprobe ?_⟩
    · rw [Nesting.unclosed_opens (Tag.step_eq_U_iff.2 h.root)]
      exact Nesting.unclosed_under [root] hst
    · have hfound := hhere.found
      have hpath : root :: (n :: st).reverse = (n :: (st ++ [root])).reverse := by simp
      have hdepth : (n :: st).length = (st ++ [root]).length := by simp
      rw [hpath, hdepth] at hfound
      exact Reaches.returns hreach (Loops.returns_of_inr hfound)

/-- The depth of a node is the number of nodes it is in. -/
theorem fdtNodeDepth_eq {inner : List Tag} (hprobe : 0 ≤ fdtRoProbe t) (h : Rooted t.block root inner close) {n : Tag}
    (hn : n.kind = .beginNode) {before after : List Tag} (hsplit : root :: inner = before ++ n :: after)
    {st : List Tag} (hst : unclosed Tag.step [] before = some st) : fdtNodeDepth t n.off = st.length := by
  obtain ⟨st', hst', hroot, hsuper⟩ := fdtSupernode_eq hsize hprobe h hn hsplit 0
  obtain rfl : st = st' := Option.some.inj (hst.symm.trans hst')
  obtain ⟨hoff, -, -⟩ := Walk.cons_iff.1 h.walk
  rw [hroot, Int.natCast_zero, Option.map_some, Option.getD_some, hoff, Int.natCast_zero] at hsuper
  unfold fdtNodeDepth
  rw [hsuper]
  rfl

theorem fdtParentOffset_of_unclosed {inner : List Tag} (hprobe : 0 ≤ fdtRoProbe t)
    (h : Rooted t.block root inner close) {n : Tag} (hn : n.kind = .beginNode) {before after : List Tag}
    (hsplit : root :: inner = before ++ n :: after) {st : List Tag}
    (hst : unclosed Tag.step [] before = some st) :
    fdtParentOffset t n.off = (st.head?.map fun p => (p.off : Int)).getD fdtErrNotfound := by
  unfold fdtParentOffset
  rw [fdtNodeDepth_eq hsize hprobe h hn hsplit hst]
  dsimp only
  rw [if_neg (Int.not_lt.2 (Int.natCast_nonneg _))]
  cases st with
  | nil =>
    unfold fdtSupernodeAtdepthOffset
    dsimp only
    rw [if_neg (Int.not_lt.2 hprobe)]
    rfl
  | cons p st =>
    obtain ⟨st', hst', -, hsuper⟩ := fdtSupernode_eq hsize hprobe h hn hsplit st.length
    obtain rfl : p :: st = st' := Option.some.inj (hst.symm.trans hst')
    have hparent : (n :: p :: st).reverse[st.length]? = some p := by
      rw [List.getElem?_reverse (by simp)]
      simp
    have hdepth : (((p :: st).length : Nat) : Int) - 1 = (st.length : Int) := by simp
    rw [hdepth, hsuper, hparent]
    rfl

/-- **`fdt_parent_offset` returns the node that a node is in**: between the two there are only whole nodes.  The root is
in none. -/
theorem fdtParentOffset_eq {inner : List Tag} (hprobe : 0 ≤ fdtRoProbe t) (h : Rooted t.block root inner close)
    {n : Tag} (hn : n.kind = .beginNode) {before after : List Tag} (hsplit : root :: inner = before ++ n :: after) :
    before = [] ∧ fdtNodeDepth t n.off = 0 ∧ fdtParentOffset t n.off = fdtErrNotfound ∨
      ∃ outer p between, before = outer ++ p :: between ∧ p.kind = .beginNode ∧ Balanced Tag.step between ∧
        fdtParentOffset t n.off = p.off ∧ fdtNodeDepth t n.off = fdtNodeDepth t p.off + 1 := by
  obtain ⟨st, hst, hroot, -⟩ := fdtSupernode_eq hsize hprobe h hn hsplit 0
  have hdepth := fdtNodeDepth_eq hsize hprobe h hn hsplit hst
  have hparent := fdtParentOffset_of_unclosed hsize hprobe h hn hsplit hst
  cases st with
  | nil =>
    left
    obtain rfl : n = root := Option.some.inj hroot
    cases before with
    | nil => exact ⟨rfl, hdepth, hparent⟩
    | cons _ before =>
      -- the root is not inside itself
      obtain ⟨rfl, rfl⟩ := List.cons.inj hsplit
      obtain ⟨-, hreads, hwalk⟩ := Walk.cons_iff.1 h.walk
      have hbounds := hreads.bounds
      have hmem := hwalk.mem_bounds (List.mem_append_left _ (List.mem_append_right _ List.mem_cons_self))
      omega
  | cons p st =>
    right
    obtain ⟨outer, between, rfl, hp, houter, hbetween⟩ := Nesting.exists_split hst
    have hp : p.kind = .beginNode := Tag.step_eq_U_iff.1 hp
    have hsplit' : root :: inner = outer ++ p :: (between ++ n :: after) := by
      rw [hsplit, List.append_assoc, List.cons_append]
    have hdepth' := fdtNodeDepth_eq hsize hprobe h hp hsplit' houter
    refine ⟨outer, p, between, rfl, hp, hbetween, hparent, ?_⟩
    rw [hdepth, hdepth', List.length_cons, Int.natCast_add]
    rfl

omit hsize in
theorem smallTree_rooted : Rooted smallTree.block ⟨.beginNode, 0, 8⟩ smallTreeInner ⟨.endNode, 36, 40⟩ where
  walk := (Walk.concat_iff.1 smallTree_walk).1
  root := rfl
  close := rfl
  balanced := rfl
  inside := by decide

omit hsize in
theorem fdtParentOffset_eq_smallTree :
    ([⟨.beginNode, 0, 8⟩] : List Tag) = [] ∧ fdtNodeDepth smallTree (8 : Nat) = 0 ∧
        fdtParentOffset smallTree (8 : Nat) = fdtErrNotfound ∨
      ∃ outer p between, [⟨.beginNode, 0, 8⟩] = outer ++ p :: between ∧ p.kind = .beginNode ∧
        Balanced Tag.step between ∧ fdtParentOffset smallTree (8 : Nat) = p.off ∧
        fdtNodeDepth smallTree (8 : Nat) = fdtNodeDepth smallTree p.off + 1 :=
  fdtParentOffset_eq smallTree_probed.block_size smallTree_probed.roProbe_nonneg smallTree_rooted
    (show (⟨.beginNode, 8, 16⟩ : Tag).kind = .beginNode from rfl)
    (show (⟨.beginNode, 0, 8⟩ :: smallTreeInner : List Tag) =
      [⟨.beginNode, 0, 8⟩] ++ ⟨.beginNode, 8, 16⟩ :: [⟨.prop, 16, 32⟩, ⟨.endNode, 32, 36⟩] from rfl)

/-- What `fdt_parent_offset` returns for an offset that is no node's. -/
theorem fdtParentOffset_of_not {inner : List Tag} (hprobe : 0 ≤ fdtRoProbe t) (h : Rooted t.block root inner close)
    (hend : ∀ n, t.block.Reads n → n.off = close.next → n.kind ≠ .beginNode) {x : Int}
    (hmiss : ∀ n ∈ root :: inner, n.kind = .beginNode → (n.off : Int) ≠ x) :
    fdtParentOffset t x = (missedNode x close.next).1 := by
  have hstop : close.next < 2 ^ 31 := by
    have hbounds := (h.walk.reads (show close ∈ root :: (inner ++ [close]) by simp)).bounds
    omega
  have hsuper := fdtSupernode_of_returns hsize hprobe ((h.here (k := 0)).misses hsize h.close hstop hend hmiss)
  have hneg : (missedNode x close.next).1 < 0 := by
    unfold missedNode
    split_ifs <;> decide
  have hdepth : fdtNodeDepth t x = (missedNode x close.next).1 := by
    unfold fdtNodeDepth
    rw [Int.natCast_zero] at hsuper
    rw [hsuper]
    dsimp only
    rw [if_pos (Int.ne_of_lt hneg), if_pos hneg]
  unfold fdtParentOffset
  rw [hdepth]
  exact if_pos hneg

end

theorem fdtParentOffset_of_not_smallTree : fdtParentOffset smallTree 16 = (missedNode 16 40).1 := by
  refine fdtParentOffset_of_not smallTree_probed.block_size smallTree_probed.roProbe_nonneg smallTree_rooted
    (fun n hn hoff hkind => ?_) (by decide)
  have hfin : smallTree.block.Reads ⟨.fin, 40, 44⟩ := (Walk.concat_iff.1 smallTree_walk).2.1
  rw [hn.unique hfin hoff] at hkind
  cases hkind

end RiscvOs
