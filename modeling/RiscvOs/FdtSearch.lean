import RiscvOs.FdtNames
import RiscvOs.StringLists
/-!
# Searches over all nodes (`libfdt/fdt_ro.c`)

Each goes from node to node with `fdt_next_node`, without a depth, and asks something of every node.  They return what
is found at the first node behind `startoffset` at which something is (`searchNodes_eq`).
-/
namespace RiscvOs

open FirstDifference (Agree First)
open Loops (Returns Reaches)

/-- Where the string literals of the program lie. -/
abbrev Literals := String → Nat

/-- A round of a search: it ends at a node of which something is `found`. -/
def searchRound (t : Fdt) (found : Int → Option Int) (offset : Int) : Int ⊕ Int :=
  if offset ≥ 0 then
    match found offset with
    | some r => .inr r
    | none   => .inl (fdtNextNode t offset none).1
  else .inr offset

def searchNodes (t : Fdt) (found : Int → Option Int) (startoffset : Int) : Int :=
  let totalsize := fdtRoProbe t
  if totalsize < 0 then totalsize
  else (Loops.run (searchRound t found) maxRounds (fdtNextNode t startoffset none).1).getD fdtErrInternal

/-- What `fdt_node_offset_by_prop_value` asks of a node. -/
def foundByPropValue (t : Fdt) (propname propval : Nat) (proplen offset : Int) : Option Int :=
  match fdtGetprop t offset propname with
  | .error _       => none
  | .ok (val, len) => if len = proplen ∧ memcmp t.mem val propval (toUint32 len) = 0 then some offset else none

def fdtNodeOffsetByPropValue (t : Fdt) (startoffset : Int) (propname propval : Nat) (proplen : Int) : Int :=
  searchNodes t (foundByPropValue t propname propval proplen) startoffset

/-- `fdt_stringlist_contains`. -/
def fdtStringlistContains (m : Bytes) (strlist : Nat) (listlen : Int) (str : Nat) : Int :=
  ((Loops.run (containsRound m str (toInt32 (strlenOf m str))) maxRounds ⟨strlist, listlen, []⟩).map Prod.fst).getD 0

def fdtNodeCheckCompatible (t : Fdt) (lit : Literals) (nodeoffset : Int) (compatible : Nat) : Int :=
  match fdtGetprop t nodeoffset (lit "compatible") with
  | .error len      => len
  | .ok (prop, len) => if fdtStringlistContains t.mem prop len compatible = 0 then 1 else 0

/-- What `fdt_node_offset_by_compatible` asks of a node. -/
def foundByCompatible (t : Fdt) (lit : Literals) (compatible : Nat) (offset : Int) : Option Int :=
  let err := fdtNodeCheckCompatible t lit offset compatible
  if err < 0 ∧ err ≠ fdtErrNotfound then some err else if err = 0 then some offset else none

def fdtNodeOffsetByCompatible (t : Fdt) (lit : Literals) (startoffset : Int) (compatible : Nat) : Int :=
  searchNodes t (foundByCompatible t lit compatible) startoffset

/-! ## The nodes that are searched -/

/-- The tags of a structure block, up to its `FDT_END`. -/
structure Complete (k : Block) (tags : List Tag) (fin : Tag) : Prop where
  walk : Walk k 0 (tags ++ [fin]) fin.next
  last : fin.kind = .fin
  inside : ∀ tag ∈ tags, tag.kind ≠ .fin

/-- The tags a search from `startoffset` has before it. -/
inductive Before (tags : List Tag) : (startoffset : Int) → (after : List Tag) → Prop where
  | all {startoffset : Int} (neg : startoffset < 0) : Before tags startoffset tags
  | behind {passed after : List Tag} {n : Tag} (split : tags = passed ++ n :: after) (kind : n.kind = .beginNode) :
    Before tags n.off after

def nodesOf (tags : List Tag) : List Tag := tags.filter fun tag => tag.kind = .beginNode

theorem nodesOf_gap {gap : List Tag} (h : Gap gap) : nodesOf gap = [] := by
  rw [nodesOf, List.filter_eq_nil_iff]
  intro tag htag
  simpa using (h tag htag).1

theorem nodesOf_cons {n : Tag} {tags : List Tag} (h : n.kind = .beginNode) :
    nodesOf (n :: tags) = n :: nodesOf tags := by
  rw [nodesOf, List.filter_cons_of_pos (by simpa using h)]
  rfl

theorem nodesOf_append (tags tags' : List Tag) : nodesOf (tags ++ tags') = nodesOf tags ++ nodesOf tags' :=
  List.filter_append ..

section

variable {t : Fdt} {fin : Tag} {found : Int → Option Int} (hsize : t.block.size + 4 ≤ 2 ^ 31)

include hsize

/-- The next node, or none. -/
theorem nextNode_cases {rest : List Tag} {o : Nat} (hlast : fin.kind = .fin) (hinside : ∀ tag ∈ rest, tag.kind ≠ .fin)
    (hwalk : Walk t.block o (rest ++ [fin]) fin.next) :
    (∃ gap n rest', rest = gap ++ n :: rest' ∧ Gap gap ∧ n.kind = .beginNode ∧
        Returns (nextNodeRound t) ((o : Int), none) ((n.off : Int), none)) ∨
      (Gap rest ∧ Returns (nextNodeRound t) ((o : Int), none) (fdtErrNotfound, none)) := by
  rcases exists_gap hinside with hgap | ⟨gap, n, rest', rfl, hgap, hn⟩
  · obtain ⟨hwalk, hreads, -⟩ := Walk.concat_iff.1 hwalk
    exact Or.inr ⟨hgap, Reaches.returns (reaches_gap hsize hgap hwalk)
      (Loops.returns_of_inr (nextNodeRound_fin hsize hreads hlast none))⟩
  · rw [List.append_assoc] at hwalk
    obtain ⟨m, hwalk, hrest⟩ := Walk.append_iff.1 hwalk
    obtain ⟨rfl, hreads, -⟩ := Walk.cons_iff.1 hrest
    exact Or.inl ⟨gap, n, rest', rfl, hgap, hn, Reaches.returns (reaches_gap hsize hgap hwalk)
      (Loops.returns_of_inr (nextNodeRound_begin hsize hreads hn none))⟩

theorem exists_nextNode {rest : List Tag} {o : Nat} (hlast : fin.kind = .fin) (hinside : ∀ tag ∈ rest, tag.kind ≠ .fin)
    (hwalk : Walk t.block o (rest ++ [fin]) fin.next) : ∃ r, Returns (nextNodeRound t) ((o : Int), none) r := by
  rcases nextNode_cases hsize hlast hinside hwalk with ⟨gap, n, rest', -, -, -, hr⟩ | ⟨-, hr⟩
  · exact ⟨_, hr⟩
  · exact ⟨_, hr⟩

/-- **A search comes to every node before it**, until something is found. -/
theorem search_returns : ∀ {rest : List Tag} {o : Nat} {r : Int × Option Int}, fin.kind = .fin →
    (∀ tag ∈ rest, tag.kind ≠ .fin) → Walk t.block o (rest ++ [fin]) fin.next → o % 4 = 0 →
    Returns (nextNodeRound t) ((o : Int), none) r →
    Returns (searchRound t found) r.1 (((nodesOf rest).findSome? fun n => found n.off).getD fdtErrNotfound) := by
  intro rest
  induction hN : rest.length using Nat.strongRecOn generalizing rest with
  | ind N ih =>
    intro o r hlast hinside hwalk ho hr
    rcases nextNode_cases hsize hlast hinside hwalk with ⟨gap, n, rest', rfl, hgap, hn, hr'⟩ | ⟨hgap, hr'⟩
    · obtain rfl := hr.unique hr'
      rw [nodesOf_append, nodesOf_gap hgap, List.nil_append, nodesOf_cons hn, List.findSome?_cons]
      rw [List.append_assoc] at hwalk
      obtain ⟨m, hbefore, hafter⟩ := Walk.append_iff.1 hwalk
      obtain ⟨rfl, hreads, hrest⟩ := Walk.cons_iff.1 hafter
      have hbounds := hreads.bounds
      have haligned := (hbefore.aligned ho).2
      have hround : searchRound t found n.off =
          match found n.off with
          | some r => .inr r
          | none   => .inl (fdtNextNode t n.off none).1 := by
        unfold searchRound
        rw [if_pos (Int.natCast_nonneg _)]
      cases hfound : found n.off with
      | some x =>
        rw [hfound] at hround
        exact Loops.returns_of_inr hround
      | none =>
        rw [hfound] at hround
        refine Loops.returns_of_inl hround ?_
        have hinside' : ∀ tag ∈ rest', tag.kind ≠ .fin := fun tag htag =>
          hinside tag (List.mem_append_right _ (List.mem_cons_of_mem _ htag))
        have hshort : rest'.length < N := by
          rw [← hN, List.length_append, List.length_cons]
          omega
        obtain ⟨r', hr'⟩ := exists_nextNode hsize hlast hinside' hrest
        rw [fdtNextNode_of_returns hsize hreads hn haligned hr']
        exact ih _ hshort rfl hlast hinside' hrest hbounds.2.1 hr'
    · obtain rfl := hr.unique hr'
      rw [nodesOf_gap hgap]
      apply Loops.returns_of_inr
      unfold searchRound
      rw [if_neg (Int.not_le.2 fdtErrNotfound_neg)]
      rfl

/-- The rounds are enough. -/
theorem search_run {x r : Int} (hx : x < 2 ^ 31) (h : Returns (searchRound t found) x r) :
    Loops.run (searchRound t found) maxRounds x = some r := by
  refine Loops.run_eq_of_returns (I := fun x => x < 2 ^ 31) (fun x => if x < 0 then 0 else (2 ^ 31 + 1 - x).toNat)
    (fun x hx => ?_) hx ?_ h
  · have hnext := fdtNextNode_progress hsize x none hx
    unfold searchRound
    by_cases hneg : x ≥ 0
    · rw [if_pos hneg]
      cases found x with
      | some r => exact Or.inl ⟨r, rfl⟩
      | none =>
        refine Or.inr ⟨_, rfl, by omega, ?_⟩
        split_ifs <;> omega
    · rw [if_neg hneg]
      exact Or.inl ⟨x, rfl⟩
  · unfold maxRounds
    split_ifs <;> omega

/-- **A search returns what is found at the first node before it**, or that there is none. -/
theorem searchNodes_eq {tags after : List Tag} {startoffset : Int} (hprobe : 0 ≤ fdtRoProbe t)
    (h : Complete t.block tags fin) (hstart : Before tags startoffset after) :
    searchNodes t found startoffset = ((nodesOf after).findSome? fun n => found n.off).getD fdtErrNotfound := by
  have hfrom : ∃ o r, Walk t.block o (after ++ [fin]) fin.next ∧ o % 4 = 0 ∧ (∀ tag ∈ after, tag.kind ≠ .fin) ∧
      Returns (nextNodeRound t) ((o : Int), none) r ∧ fdtNextNode t startoffset none = r := by
    cases hstart with
    | all hneg =>
      obtain ⟨r, hr⟩ := exists_nextNode hsize h.last h.inside h.walk
      exact ⟨0, r, h.walk, rfl, h.inside, hr, fdtNextNode_of_neg hsize hneg hr⟩
    | @behind passed after n hsplit hkind =>
      have hwalk := h.walk
      rw [hsplit, List.append_assoc] at hwalk
      obtain ⟨m, hbefore, hafter⟩ := Walk.append_iff.1 hwalk
      obtain ⟨rfl, hreads, hrest⟩ := Walk.cons_iff.1 hafter
      have hinside : ∀ tag ∈ after, tag.kind ≠ .fin := fun tag htag =>
        h.inside tag (by rw [hsplit]; exact List.mem_append_right _ (List.mem_cons_of_mem _ htag))
      obtain ⟨r, hr⟩ := exists_nextNode hsize h.last hinside hrest
      exact ⟨n.next, r, hrest, hreads.bounds.2.1, hinside, hr,
        fdtNextNode_of_returns hsize hreads hkind (hbefore.aligned rfl).2 hr⟩
  obtain ⟨o, r, hwalk, ho, hinside, hr, hnext⟩ := hfrom
  have hlt : startoffset < 2 ^ 31 := by
    cases hstart with
    | all hneg => omega
    | @behind passed after n hsplit hkind =>
      have hbounds := (h.walk.reads (show n ∈ tags ++ [fin] by rw [hsplit]; simp)).bounds
      omega
  have hbound := fdtNextNode_progress hsize startoffset none hlt
  unfold searchNodes
  dsimp only
  rw [if_neg (Int.not_lt.2 hprobe), hnext,
    search_run hsize (by rw [hnext] at hbound; omega) (search_returns hsize h.last hinside hwalk ho hr)]
  rfl

end

/-! ## What the nodes have -/

def Tag.isOwn (tag : Tag) : Bool := tag.kind = .prop ∨ tag.kind = .nop

/-- The nodes among the tags, each with what is its own: the tags before its first subnode, or its end. -/
def nodesWith : List Tag → List (Tag × List Tag)
  | []          => []
  | tag :: tags => if tag.kind = .beginNode then (tag, tags.takeWhile Tag.isOwn) :: nodesWith tags else nodesWith tags

theorem nodesOf_eq_map : ∀ tags : List Tag, nodesOf tags = (nodesWith tags).map Prod.fst
  | [] => rfl
  | tag :: tags => by
    rw [nodesWith]
    by_cases h : tag.kind = .beginNode
    · rw [if_pos h, nodesOf_cons h, List.map_cons, nodesOf_eq_map tags]
    · rw [if_neg h, ← nodesOf_eq_map tags, nodesOf, List.filter_cons_of_neg (by simpa using h)]
      rfl

theorem mem_nodesWith {n : Tag} {own : List Tag} : ∀ {tags : List Tag}, (n, own) ∈ nodesWith tags →
    ∃ before rest, tags = before ++ n :: rest ∧ own = rest.takeWhile Tag.isOwn ∧ n.kind = .beginNode
  | [], h => absurd h List.not_mem_nil
  | tag :: tags, h => by
    rw [nodesWith] at h
    by_cases hkind : tag.kind = .beginNode
    · rw [if_pos hkind] at h
      rcases List.mem_cons.1 h with heq | hmem
      · obtain ⟨rfl, rfl⟩ := Prod.mk.inj heq
        exact ⟨[], tags, rfl, rfl, hkind⟩
      · obtain ⟨before, rest, rfl, hown, hn⟩ := mem_nodesWith hmem
        exact ⟨tag :: before, rest, rfl, hown, hn⟩
    · rw [if_neg hkind] at h
      obtain ⟨before, rest, rfl, hown, hn⟩ := mem_nodesWith h
      exact ⟨tag :: before, rest, rfl, hown, hn⟩

theorem Before.split {tags after : List Tag} {startoffset : Int} (h : Before tags startoffset after) :
    ∃ passed, tags = passed ++ after := by
  cases h with
  | all => exact ⟨[], rfl⟩
  | @behind passed after n hsplit _ => exact ⟨passed ++ [n], by rw [hsplit]; simp⟩

section

variable {t : Fdt} {tags before rest : List Tag} {n fin : Tag} {name namelen : Nat}

theorem own_takeWhile (rest : List Tag) : Own (rest.takeWhile Tag.isOwn) := by
  intro tag htag
  simpa [Tag.isOwn] using List.mem_takeWhile_imp htag

/-- A name that the caller gives, in memory. -/
def Fdt.Name (t : Fdt) (name namelen : Nat) : Prop := EndsAt t.mem name (name + namelen) ∧ name + namelen < 2 ^ 32 - 4

theorem Fdt.Name.strlenOf_eq (h : t.Name name namelen) : strlenOf t.mem name = namelen := by
  rw [RiscvOs.strlenOf_eq h.1 h.2, Nat.add_sub_cancel_left]

/-- The tags of a node end at a tag of the block, or with the block. -/
theorem exists_ownEnd (hlast : fin.kind = .fin) (hinside : ∀ tag ∈ rest, tag.kind ≠ .fin) {o e : Nat}
    (hwalk : Walk t.block o (rest ++ [fin]) e) :
    ∃ stop e', (stop.kind ≠ .prop ∧ stop.kind ≠ .nop) ∧
      Walk t.block o (rest.takeWhile Tag.isOwn ++ [stop]) e' ∧
      propertiesEnd stop = if rest.all Tag.isOwn then fdtErrBadstructure else fdtErrNotfound := by
  cases hdrop : rest.dropWhile Tag.isOwn with
  | nil =>
    have hall := List.dropWhile_eq_nil_iff.1 hdrop
    have htake : rest.takeWhile Tag.isOwn = rest := List.takeWhile_eq_self_iff.2 hall
    have hstop : fin.kind ≠ .prop ∧ fin.kind ≠ .nop := by
      rw [hlast]
      decide
    rw [htake]
    exact ⟨fin, e, hstop, hwalk, by rw [propertiesEnd, if_pos hlast, if_pos (List.all_eq_true.2 hall)]⟩
  | cons stop tail =>
    have hrest : rest = rest.takeWhile Tag.isOwn ++ stop :: tail := by
      rw [← hdrop, List.takeWhile_append_dropWhile]
    have hnot : Tag.isOwn stop = false := by
      have hhead := List.head?_dropWhile_not Tag.isOwn rest
      rw [hdrop] at hhead
      simpa using hhead
    have hstop : stop.kind ≠ .prop ∧ stop.kind ≠ .nop := by simpa [Tag.isOwn] using hnot
    have hmem : stop ∈ rest := by
      rw [hrest]
      exact List.mem_append_right _ List.mem_cons_self
    have hall : ¬ rest.all Tag.isOwn = true := fun hall => by
      have hown := List.all_eq_true.1 hall stop hmem
      rw [hnot] at hown
      cases hown
    have hparts : Walk t.block o (rest.takeWhile Tag.isOwn ++ (stop :: (tail ++ [fin]))) e := by
      rwa [← List.cons_append, ← List.append_assoc, ← hrest]
    obtain ⟨m, hown, htail⟩ := Walk.append_iff.1 hparts
    obtain ⟨rfl, hreads, -⟩ := Walk.cons_iff.1 htail
    exact ⟨stop, stop.next, hstop, Walk.concat_iff.2 ⟨hown, hreads, rfl⟩,
      by rw [propertiesEnd, if_neg (hinside stop hmem), if_neg hall]⟩

/-- **`fdt_getprop` in a whole block** returns the node's first property of the name. -/
theorem fdtGetprop_eq (ht : Probed t) (h : Complete t.block tags fin) (hsplit : tags = before ++ n :: rest)
    (hkind : n.kind = .beginNode) (hname : t.Name name namelen) (hint : namelen < 2 ^ 31) :
    fdtGetprop t n.off name =
      match (rest.takeWhile Tag.isOwn).find? (t.isNamed name namelen) with
      | some p => .ok (t.valuePtr p.off, (t.block.propLen p.off : Int))
      | none   => .error (if rest.all Tag.isOwn then fdtErrBadstructure else fdtErrNotfound) := by
  have hwalk := h.walk
  rw [hsplit, List.append_assoc] at hwalk
  obtain ⟨m, hbefore, hafter⟩ := Walk.append_iff.1 hwalk
  obtain ⟨rfl, hreads, hrest⟩ := Walk.cons_iff.1 hafter
  have hinside : ∀ tag ∈ rest, tag.kind ≠ .fin := fun tag htag => h.inside tag (by rw [hsplit]; simp [htag])
  obtain ⟨stop, e, hstop, hown, herr⟩ := exists_ownEnd h.last hinside hrest
  have hlow : name < 2 ^ 32 := by
    have hlast := hname.2
    omega
  unfold fdtGetprop
  rw [hname.strlenOf_eq, toInt32_of_lt hint, ← herr]
  exact fdtGetpropNamelen_eq ht.block_size ht hlow (Nat.lt_trans hint (by decide)) hreads hkind
    (hbefore.aligned rfl).2 (own_takeWhile rest) hstop hown

/-- The first property of the name has this value. -/
def Fdt.HasValue (t : Fdt) (name namelen val vallen : Nat) (own : List Tag) : Prop :=
  ∃ p, own.find? (t.isNamed name namelen) = some p ∧ t.block.propLen p.off = vallen ∧
    Agree (t.mem.buffer (t.valuePtr p.off)) (t.mem.buffer val) vallen

theorem foundByPropValue_cases (ht : Probed t) (h : Complete t.block tags fin) (hsplit : tags = before ++ n :: rest)
    (hkind : n.kind = .beginNode) (hname : t.Name name namelen) (hint : namelen < 2 ^ 31) {val vallen : Nat}
    (hval : val < 2 ^ 32) (hvallen : vallen < 2 ^ 31) :
    (t.HasValue name namelen val vallen (rest.takeWhile Tag.isOwn) ∧
        foundByPropValue t name val vallen n.off = some (n.off : Int)) ∨
      (¬ t.HasValue name namelen val vallen (rest.takeWhile Tag.isOwn) ∧
        foundByPropValue t name val vallen n.off = none) := by
  unfold foundByPropValue Fdt.HasValue
  rw [fdtGetprop_eq ht h hsplit hkind hname hint]
  cases hfind : (rest.takeWhile Tag.isOwn).find? (t.isNamed name namelen) with
  | none =>
    refine Or.inr ⟨?_, rfl⟩
    rintro ⟨p, hp, -⟩
    cases hp
  | some p =>
    dsimp only
    by_cases hlen : t.block.propLen p.off = vallen
    · have hcount : toUint32 ((t.block.propLen p.off : Nat) : Int) = vallen := by
        rw [hlen]
        exact toUint32_natCast (by omega)
      have hsame := @memcmp_eq_zero_iff t.mem _ _ (wrap32_lt _ : t.valuePtr p.off < 2 ^ 32) hval vallen
      rw [hcount]
      by_cases hagree : Agree (t.mem.buffer (t.valuePtr p.off)) (t.mem.buffer val) vallen
      · exact Or.inl ⟨⟨p, rfl, hlen, hagree⟩, if_pos ⟨by rw [hlen], hsame.2 hagree⟩⟩
      · refine Or.inr ⟨?_, if_neg fun h => hagree (hsame.1 h.2)⟩
        rintro ⟨p', hp, -, hagree'⟩
        obtain rfl := Option.some.inj hp
        exact hagree hagree'
    · refine Or.inr ⟨?_, if_neg fun h => hlen (Int.ofNat.inj h.1)⟩
      rintro ⟨p', hp, hlen', -⟩
      obtain rfl := Option.some.inj hp
      exact hlen hlen'

open Classical in
/-- A search for the nodes with something of their own. -/
theorem searchNodes_find {own : List Tag → Prop} {found : Int → Option Int} (ht : Probed t)
    (h : Complete t.block tags fin) {after : List Tag} {startoffset : Int} (hstart : Before tags startoffset after)
    (hfound : ∀ before n rest, tags = before ++ n :: rest → n.kind = .beginNode →
      own (rest.takeWhile Tag.isOwn) ∧ found n.off = some (n.off : Int) ∨
        ¬ own (rest.takeWhile Tag.isOwn) ∧ found n.off = none) :
    searchNodes t found startoffset =
      (((nodesWith after).find? fun n => own n.2).map fun n => (n.1.off : Int)).getD fdtErrNotfound := by
  obtain ⟨passed, hpassed⟩ := hstart.split
  have hall : ∀ n ∈ nodesWith after, own n.2 ∧ found n.1.off = some (n.1.off : Int) ∨
      ¬ own n.2 ∧ found n.1.off = none := by
    rintro ⟨n, ownTags⟩ hn
    obtain ⟨before, rest, rfl, rfl, hkind⟩ := mem_nodesWith hn
    exact hfound (passed ++ before) n rest (by rw [hpassed, List.append_assoc]) hkind
  rw [searchNodes_eq ht.block_size ht.roProbe_nonneg h hstart, nodesOf_eq_map, List.findSome?_map]
  congr 1
  generalize nodesWith after = nodes at hall
  induction nodes with
  | nil => rfl
  | cons n nodes ih =>
    obtain ⟨hn, hnodes⟩ := List.forall_mem_cons.1 hall
    rw [List.findSome?_cons, List.find?_cons, Function.comp_apply]
    rcases hn with ⟨hown, hfound⟩ | ⟨hown, hfound⟩
    · rw [hfound, decide_eq_true hown]
      rfl
    · rw [hfound, decide_eq_false hown]
      exact ih hnodes

end

theorem Fdt.Name.of_chars {t : Fdt} {name namelen : Nat} (hend : t.mem (name + namelen) = 0)
    (hchars : ∀ i < namelen, t.mem (name + i) ≠ 0) (hlt : name + namelen < 2 ^ 32 - 4) : t.Name name namelen := by
  refine ⟨⟨⟨Nat.le_add_right _ _, hend⟩, ?_⟩, hlt⟩
  rintro p ⟨hp, h0⟩
  by_contra hbefore
  obtain ⟨i, rfl⟩ := Nat.exists_eq_add_of_le hp
  exact hchars i (by omega) h0

/-- The list of strings has this one; the last may end without its `NUL`, if there is one behind the list. -/
def ListHas (m : Bytes) (s n str len : Nat) : Prop :=
  ∃ k, Begins m s k ∧ k + len ≤ n ∧ AgreesAt m s str k (len + 1)

section

variable {m : Bytes} {s n str len k : Nat}

/-- What the walk over the list ends with. -/
theorem WalkAt.value {w : ListWalk} (h : WalkAt m s n str len k w) (hn : n < 2 ^ 31) (hstr : str < 2 ^ 32)
    (hint : len < 2 ^ 31) {r : Int × List Nat} (hr : containsRound m str len w = .inr r) :
    r.1 = 1 ∧ ListHas m s n str len ∨ r.1 = 0 ∧ ¬ ListHas m s n str len := by
  have hk := h.le
  have hlistlen := h.listlen
  have hsize : toUint32 ((len : Int) + 1) = len + 1 := toUint32_natCast (x := len + 1) (by omega)
  have hcount : toUint32 w.listlen = n - k := by
    rw [hlistlen]
    exact toUint32_natCast (by omega)
  unfold containsRound at hr
  rw [hsize, hcount] at hr
  by_cases hmore : w.listlen ≥ len
  · rw [if_pos hmore] at hr
    rcases h.compare hstr with ⟨hagree, hzero, -⟩ | ⟨d, hd, hfirst, hnonzero, -⟩
    · rw [if_pos hzero] at hr
      cases hr
      exact Or.inl ⟨rfl, k, h.begins, by omega, hagree⟩
    · rw [if_neg hnonzero, h.strlist] at hr
      rcases memchr_nul_cases (m := m) (s := s) hk with ⟨habsent, hrun⟩ | ⟨i, hi, hnul, hbefore, hrun⟩
      · rw [hrun] at hr
        cases hr
        refine Or.inr ⟨rfl, ?_⟩
        rintro ⟨j, hbegins, hin, hagree⟩
        rcases Nat.lt_trichotomy j k with hlt | rfl | hgt
        · exact h.passed j hlt hbegins hagree
        · exact hfirst.not_agree (Nat.lt_succ_of_le hd) hagree
        · cases hbegins with
          | inl h0 => omega
          | inr h0 => exact habsent (j - 1) (by omega) (by omega) h0
      · rw [hrun] at hr
        cases hr
  · rw [if_neg hmore] at hr
    cases hr
    refine Or.inr ⟨rfl, ?_⟩
    rintro ⟨j, hbegins, hin, hagree⟩
    have hbehind : ¬ j < k := fun hlt => h.passed j hlt hbegins hagree
    omega

/-- **`fdt_stringlist_contains` finds the strings of the list.** -/
theorem fdtStringlistContains_cases (hs : s < 2 ^ 32) (hn : n < 2 ^ 31) (hends : EndsAt m str (str + len))
    (hlow : str + len < 2 ^ 32 - 4) (hint : len < 2 ^ 31) :
    fdtStringlistContains m s n str = 1 ∧ ListHas m s n str len ∨
      fdtStringlistContains m s n str = 0 ∧ ¬ ListHas m s n str len := by
  have hstr : str < 2 ^ 32 := by omega
  have hlen : CString.HasLength (m.buffer str) len := by
    have hbyte : ∀ i ≤ len, m.buffer str i = m (str + i) := by
      intro i hi
      unfold Bytes.buffer
      rw [wrap32_of_lt (by omega)]
    refine ⟨(hbyte len (Nat.le_refl len)).trans hends.1.2, fun i hi => ?_⟩
    by_contra hlt
    have h0 : m.buffer str i = 0 := hi
    rw [hbyte i (by omega)] at h0
    exact hends.ne_zero (Nat.le_add_right str i) (by omega) h0
  have hstart : WalkAt m s n str len 0 ⟨s, n, []⟩ :=
    ⟨Nat.zero_le n, (wrap32_of_lt hs).symm, rfl, Or.inl rfl, fun j hj => absurd hj (Nat.not_lt_zero j),
      fun p hp => absurd hp List.not_mem_nil⟩
  have hround : ∀ w, (∃ k, WalkAt m s n str len k w) → (∃ r, containsRound m str len w = .inr r) ∨
      ∃ w', containsRound m str len w = .inl w' ∧ (∃ k', WalkAt m s n str len k' w') ∧
        w'.listlen.toNat < w.listlen.toNat := by
    rintro w ⟨k, hw⟩
    rcases hw.round hn hstr hlen hint with ⟨r, hr, -⟩ | hnext
    · exact Or.inl ⟨r, hr⟩
    · exact Or.inr hnext
  have hvalues : ∀ w, (∃ k, WalkAt m s n str len k w) → (∃ r, containsRound m str len w = .inr r ∧
        (r.1 = 1 ∧ ListHas m s n str len ∨ r.1 = 0 ∧ ¬ ListHas m s n str len)) ∨
      ∃ w', containsRound m str len w = .inl w' ∧ (∃ k', WalkAt m s n str len k' w') ∧
        w'.listlen.toNat < w.listlen.toNat := by
    intro w hw
    rcases hround w hw with ⟨r, hr⟩ | hnext
    · obtain ⟨k, hw⟩ := hw
      exact Or.inl ⟨r, hr, hw.value hn hstr hint hr⟩
    · exact Or.inr hnext
  obtain ⟨r, hr, hvalue⟩ := Loops.returns_of_variant (fun w : ListWalk => w.listlen.toNat) hvalues _ ⟨0, hstart⟩
  have hrun := Loops.run_eq_of_returns (I := fun w => ∃ k, WalkAt m s n str len k w) (fun w => w.listlen.toNat) hround
    ⟨0, hstart⟩ (show (n : Int).toNat < maxRounds by unfold maxRounds; omega) hr
  unfold fdtStringlistContains
  rw [strlenOf_eq hends hlow, Nat.add_sub_cancel_left, toInt32_of_lt hint, hrun]
  exact hvalue

end

/-! ## Compatible nodes -/

section

variable {t : Fdt} {tags before rest : List Tag} {n fin : Tag} {lit : Literals} {compatible len : Nat}

theorem exists_end_of_close {body trail : List Tag} {close : Tag} (hclose : close.kind = .endNode)
    (htrail : ∀ tag ∈ trail, tag.kind ≠ .beginNode) (hsplit : body ++ close :: trail = before ++ n :: rest)
    (hkind : n.kind = .beginNode) : ¬ rest.all Tag.isOwn = true := by
  have hne : n ≠ close := by
    rintro rfl
    rw [hclose] at hkind
    cases hkind
  have hmem : close ∈ rest := by
    rcases List.append_eq_append_iff.1 hsplit with ⟨l, rfl, hl⟩ | ⟨l, rfl, hl⟩
    · cases l with
      | nil => exact absurd (List.cons.inj hl).1.symm hne
      | cons x l =>
        obtain ⟨-, rfl⟩ := List.cons.inj hl
        exact absurd hkind (htrail n (List.mem_append_right _ List.mem_cons_self))
    · cases l with
      | nil => exact absurd (List.cons.inj hl).1 hne
      | cons x l =>
        obtain ⟨-, rfl⟩ := List.cons.inj hl
        exact List.mem_append_right _ List.mem_cons_self
  intro hall
  have hown := List.all_eq_true.1 hall close hmem
  simp [Tag.isOwn, hclose] at hown

/-- The node has a property `compatible` with this string among its own. -/
def Fdt.CompatibleWith (t : Fdt) (lit : Literals) (compatible len : Nat) (own : List Tag) : Prop :=
  ∃ p, own.find? (t.isNamed (lit "compatible") 10) = some p ∧
    ListHas t.mem (t.valuePtr p.off) (t.block.propLen p.off) compatible len

theorem foundByCompatible_cases (ht : Probed t) (h : Complete t.block tags fin) (hsplit : tags = before ++ n :: rest)
    (hkind : n.kind = .beginNode) (hends : ¬ rest.all Tag.isOwn = true) (hlit : t.Name (lit "compatible") 10)
    (hname : t.Name compatible len) (hint : len < 2 ^ 31) :
    (t.CompatibleWith lit compatible len (rest.takeWhile Tag.isOwn) ∧
        foundByCompatible t lit compatible n.off = some (n.off : Int)) ∨
      (¬ t.CompatibleWith lit compatible len (rest.takeWhile Tag.isOwn) ∧
        foundByCompatible t lit compatible n.off = none) := by
  unfold foundByCompatible fdtNodeCheckCompatible Fdt.CompatibleWith
  rw [fdtGetprop_eq ht h hsplit hkind hlit (by decide), if_neg hends]
  cases hfind : (rest.takeWhile Tag.isOwn).find? (t.isNamed (lit "compatible") 10) with
  | none =>
    refine Or.inr ⟨?_, rfl⟩
    rintro ⟨p, hp, -⟩
    cases hp
  | some p =>
    have hmem : p ∈ tags := by
      rw [hsplit]
      exact List.mem_append_right _ (List.mem_cons_of_mem _
        ((List.takeWhile_prefix _).subset (List.mem_of_find?_eq_some hfind)))
    have hkindp : p.kind = .prop := by
      have hnamed := List.find?_some hfind
      simp only [Fdt.isNamed, decide_eq_true_eq] at hnamed
      exact hnamed.1
    have hlen := propLen_le (h.walk.reads (List.mem_append_left _ hmem)) hkindp rfl
    have hsize := ht.block_size
    dsimp only
    have hptr : t.valuePtr p.off < 2 ^ 32 := wrap32_lt _
    rcases fdtStringlistContains_cases hptr
      (show t.block.propLen p.off < 2 ^ 31 by omega) hname.1 hname.2 hint with ⟨hone, hhas⟩ | ⟨hzero, hnot⟩
    · rw [hone]
      exact Or.inl ⟨⟨p, rfl, hhas⟩, rfl⟩
    · rw [hzero]
      refine Or.inr ⟨?_, rfl⟩
      rintro ⟨p', hp, hhas⟩
      obtain rfl := Option.some.inj hp
      exact hnot hhas

end

end RiscvOs
