import RiscvOs.FdtWellFormed
import RiscvOs.FdtParents
import RiscvOs.FdtSearch
/-!
# The tree the kernel goes on with (`init_devices.c`)

`check_device_tree` lets exactly the well-formed trees through (`checkDeviceTree_cases`).  Such a tree has one list of
tags (`Complete.unique`), and if it begins with its root the lookups by node and by parent are about that list
(`WellFormed.exists_rootFirst`, `fdtParentOffset_of_split`).
-/
namespace RiscvOs

open Nesting (unclosed Balanced)

inductive TreePanic where
  | notPassed
  | badHeader (err : Int)
  | invalid (err : Int)
deriving DecidableEq, Repr

/-- `check_device_tree`; `none` does not return. -/
def checkDeviceTree (t : Fdt) : Option (Except TreePanic Bool) :=
  if t.ptr = 0 then some (.error .notPassed)
  else if fdtCheckHeader t ≠ 0 then some (.error (.badHeader (fdtCheckHeader t)))
  else
    match fdtCheckFull t t.totalsize with
    | none     => none
    | some err => if err ≠ 0 then some (.error (.invalid err)) else some (.ok true)

/-! ## `check_device_tree` -/

theorem checkDeviceTree_ne_false (t : Fdt) : checkDeviceTree t ≠ some (.ok false) := by
  unfold checkDeviceTree
  split
  · exact fun h => by cases h
  split
  · exact fun h => by cases h
  cases fdtCheckFull t t.totalsize with
  | none => exact fun h => by cases h
  | some err =>
    dsimp only
    split <;> exact fun h => by cases h

/-- **`check_device_tree` returns exactly for the trees that are well formed**, and hangs or panics for the others. -/
theorem checkDeviceTree_cases (t : Fdt) (hlow : Probed t → t.Low) :
    (checkDeviceTree t = some (.ok true) ↔ t.ptr ≠ 0 ∧ WellFormed t) ∧
      (checkDeviceTree t = none ↔ t.ptr ≠ 0 ∧ HangsAtRoot t) := by
  unfold checkDeviceTree
  by_cases hnull : t.ptr = 0
  · simp [hnull]
  rw [if_neg hnull]
  by_cases hheader : fdtCheckHeader t ≠ 0
  · rw [if_pos hheader]
    have hnot : ¬ HeaderChecked t := fun h => hheader ((fdtCheckHeader_eq_zero_iff t).2 h)
    refine ⟨iff_of_false (fun h => by cases h) ?_, iff_of_false (fun h => by cases h) ?_⟩
    · exact fun h => hnot h.2.toHeaderChecked
    · exact fun h => hnot h.2.toHeaderChecked
  rw [if_neg hheader]
  rcases fdtCheckFull_cases t t.totalsize with ⟨ht, hrsv, -, hrun⟩ | ⟨hnot, err, herr, hrun⟩
  · have hzero := checkLoop_zero_iff ht (hlow ht)
    have hhangs := checkLoop_hangs_iff ht (hlow ht)
    rw [← hrun] at hzero hhangs
    cases hr : fdtCheckFull t t.totalsize with
    | none =>
      rw [hr] at hzero hhangs
      refine ⟨iff_of_false (fun h => by cases h) fun h => ?_, iff_of_true rfl ⟨hnull, ht, hrsv, hhangs.1 rfl⟩⟩
      cases hzero.2 h.2.tags
    | some r =>
      rw [hr] at hzero hhangs
      refine ⟨?_, iff_of_false (fun h => ?_) fun h => ?_⟩
      · by_cases h0 : r = 0
        · rw [h0] at hzero ⊢
          exact iff_of_true (if_neg (not_not.2 rfl)) ⟨hnull, ht, hrsv, hzero.1 rfl⟩
        · refine iff_of_false (fun h => ?_) fun h => h0 (Option.some.inj (hzero.2 h.2.tags))
          dsimp only at h
          rw [if_pos h0] at h
          cases h
      · dsimp only at h
        split at h <;> cases h
      · cases hhangs.2 h.2.root
  · rw [hrun]
    dsimp only
    rw [if_pos herr]
    refine ⟨iff_of_false (fun h => by cases h) ?_, iff_of_false (fun h => by cases h) ?_⟩
    · exact fun h => hnot ⟨h.2.toProbed, h.2.reservations, Nat.le_refl _⟩
    · exact fun h => hnot ⟨h.2.toProbed, h.2.reservations, Nat.le_refl _⟩

/-- **`check_device_tree` panics exactly at a tree that was not passed, or is neither well formed nor one that it hangs
at.** -/
theorem checkDeviceTree_panics_iff (t : Fdt) (hlow : Probed t → t.Low) :
    (∃ panic, checkDeviceTree t = some (.error panic)) ↔ t.ptr = 0 ∨ ¬ WellFormed t ∧ ¬ HangsAtRoot t := by
  obtain ⟨hpasses, hhangs⟩ := checkDeviceTree_cases t hlow
  constructor
  · rintro ⟨panic, hpanic⟩
    by_cases hnull : t.ptr = 0
    · exact Or.inl hnull
    · rw [hpanic] at hpasses hhangs
      refine Or.inr ⟨fun h => ?_, fun h => ?_⟩
      · cases hpasses.2 ⟨hnull, h⟩
      · cases hhangs.2 ⟨hnull, h⟩
  · intro h
    have hnot : ¬ (t.ptr ≠ 0 ∧ WellFormed t) ∧ ¬ (t.ptr ≠ 0 ∧ HangsAtRoot t) := by
      rcases h with hnull | ⟨hwf, hroot⟩
      · exact ⟨fun h => h.1 hnull, fun h => h.1 hnull⟩
      · exact ⟨fun h => hwf h.2, fun h => hroot h.2⟩
    rw [← hpasses, ← hhangs] at hnot
    match hrun : checkDeviceTree t with
    | none => exact absurd hrun hnot.2
    | some (.ok true) => exact absurd hrun hnot.1
    | some (.ok false) => exact absurd hrun (checkDeviceTree_ne_false t)
    | some (.error panic) => exact ⟨panic, rfl⟩

theorem checkDeviceTree_panics_iff_smallTree :
    (∃ panic, checkDeviceTree smallTree = some (.error panic)) ↔
      smallTree.ptr = 0 ∨ ¬ WellFormed smallTree ∧ ¬ HangsAtRoot smallTree :=
  checkDeviceTree_panics_iff smallTree fun _ => smallTree_low

/-! ## The tree that is let through -/

/-- A structure block that begins with its root; `fdt_check_full` lets properties through before it. -/
structure Fdt.RootFirst (t : Fdt) (root : Tag) (inner : List Tag) (close : Tag) (trail : List Tag) (fin : Tag) :
    Prop where
  rooted : Rooted t.block root inner close
  complete : Complete t.block (root :: (inner ++ close :: trail)) fin
  nops : ∀ tag ∈ trail, tag.kind = .nop

theorem walk_unique {k : Block} {fin fin' : Tag} (hlast : fin.kind = .fin) (hlast' : fin'.kind = .fin) :
    ∀ {tags tags' : List Tag} {o e e' : Nat}, Walk k o (tags ++ [fin]) e → Walk k o (tags' ++ [fin']) e' →
      (∀ tag ∈ tags, tag.kind ≠ .fin) → (∀ tag ∈ tags', tag.kind ≠ .fin) → tags = tags'
  | [], [], _, _, _, _, _, _, _ => rfl
  | [], tag' :: tags', _, _, _, h, h', _, hinside' => by
    obtain ⟨hoff, hreads, -⟩ := Walk.cons_iff.1 h
    obtain ⟨hoff', hreads', -⟩ := Walk.cons_iff.1 h'
    obtain rfl := hreads.unique hreads' (hoff.trans hoff'.symm)
    exact absurd hlast (hinside' fin List.mem_cons_self)
  | tag :: tags, [], _, _, _, h, h', hinside, _ => by
    obtain ⟨hoff, hreads, -⟩ := Walk.cons_iff.1 h
    obtain ⟨hoff', hreads', -⟩ := Walk.cons_iff.1 h'
    obtain rfl := hreads.unique hreads' (hoff.trans hoff'.symm)
    exact absurd hlast' (hinside tag List.mem_cons_self)
  | tag :: tags, tag' :: tags', _, _, _, h, h', hinside, hinside' => by
    obtain ⟨hoff, hreads, hrest⟩ := Walk.cons_iff.1 h
    obtain ⟨hoff', hreads', hrest'⟩ := Walk.cons_iff.1 h'
    obtain rfl := hreads.unique hreads' (hoff.trans hoff'.symm)
    have hrests := walk_unique hlast hlast' hrest hrest' (List.forall_mem_cons.1 hinside).2
      (List.forall_mem_cons.1 hinside').2
    rw [hrests]

/-- A block has one list of tags. -/
theorem Complete.unique {k : Block} {tags tags' : List Tag} {fin fin' : Tag} (h : Complete k tags fin)
    (h' : Complete k tags' fin') : tags = tags' :=
  walk_unique h.last h'.last h.walk h'.walk h.inside h'.inside

theorem IsRoot.rootFirst {t : Fdt} {root close fin : Tag} {inner trail : List Tag} {e : Nat}
    (h : IsRoot t root inner close) (hnops : ∀ tag ∈ trail, tag.kind = .nop) (hlast : fin.kind = .fin)
    (hwalk : Walk t.block 0 ((root :: (inner ++ close :: trail)) ++ [fin]) e) :
    t.RootFirst root inner close trail fin := by
  obtain ⟨hbefore, hreads, rfl⟩ := Walk.concat_iff.1 hwalk
  have hparts : root :: (inner ++ close :: trail) = ((root :: inner) ++ [close]) ++ trail := by simp
  rw [hparts] at hbefore
  obtain ⟨m, hrooted, -⟩ := Walk.append_iff.1 hbefore
  obtain rfl : close.next = m := (Walk.concat_iff.1 hrooted).2.2
  refine ⟨⟨hrooted, h.opens, h.closes, h.balanced, h.inside⟩, ⟨hwalk, hlast, ?_⟩, hnops⟩
  intro tag htag
  simp only [List.mem_cons, List.mem_append] at htag
  rcases htag with rfl | htag | rfl | htag
  · rw [h.opens]
    decide
  · exact h.inside tag htag
  · rw [h.closes]
    decide
  · rw [hnops tag htag]
    decide

theorem Own.not_begin {tag : Tag} {lead : List Tag} (h : Own (tag :: lead)) : tag.kind ≠ .beginNode := by
  intro hkind
  have htag := h tag List.mem_cons_self
  rw [hkind] at htag
  rcases htag with htag | htag <;> cases htag

/-- A well-formed tree whose first tag opens a node begins with its root. -/
theorem WellFormed.exists_rootFirst {t : Fdt} (h : WellFormed t) (hfirst : bigEndian t.block.bytes 0 = fdtBeginNode) :
    ∃ root inner close trail fin, t.RootFirst root inner close trail fin := by
  obtain ⟨tags, e, hwalk, hone, -⟩ := h.tags
  have hhead : ∀ tag tags', tags = tag :: tags' → tag.kind = .beginNode := by
    rintro tag tags' rfl
    obtain ⟨hoff, hreads, -⟩ := Walk.cons_iff.1 hwalk
    refine TagKind.tag_inj ?_
    rw [← hreads.word, hoff, hfirst]
    rfl
  cases hone with
  | @none lead fin hown hlast =>
    cases lead with
    | nil =>
      have hkind := hhead fin [] rfl
      rw [hlast] at hkind
      cases hkind
    | cons tag lead => exact absurd (hhead tag _ rfl) hown.not_begin
  | @one lead inner trail root close fin hown hroot hnops hlast =>
    cases lead with
    | cons tag lead => exact absurd (hhead tag _ rfl) hown.not_begin
    | nil =>
      have hlist : ([] : List Tag) ++ root :: (inner ++ close :: (trail ++ [fin])) =
          (root :: (inner ++ close :: trail)) ++ [fin] := by simp
      rw [hlist] at hwalk
      exact ⟨root, inner, close, trail, fin, hroot.rootFirst hnops hlast hwalk⟩

section

variable {t : Fdt} {root close fin : Tag} {inner trail : List Tag}

/-- A node is inside the root. -/
theorem Fdt.RootFirst.split (h : t.RootFirst root inner close trail fin) {before after : List Tag} {n : Tag}
    (hkind : n.kind = .beginNode) (hsplit : root :: (inner ++ close :: trail) = before ++ n :: after) :
    ∃ after', root :: inner = before ++ n :: after' := by
  have hsplit' : (root :: inner) ++ close :: trail = before ++ n :: after := hsplit
  rcases List.append_eq_append_iff.1 hsplit' with ⟨middle, rfl, hrest⟩ | ⟨middle, hbefore, hrest⟩
  · exfalso
    have hmem : n ∈ close :: trail := by
      rw [hrest]
      exact List.mem_append_right _ List.mem_cons_self
    rcases List.mem_cons.1 hmem with rfl | hmem
    · rw [h.rooted.close] at hkind
      cases hkind
    · rw [h.nops n hmem] at hkind
      cases hkind
  · cases middle with
    | nil =>
      obtain ⟨rfl, -⟩ := List.cons.inj hrest
      rw [h.rooted.close] at hkind
      cases hkind
    | cons m middle =>
      obtain ⟨rfl, -⟩ := List.cons.inj hrest
      exact ⟨middle, hbefore⟩

theorem fdtParentOffset_of_split (ht : Probed t) (h : t.RootFirst root inner close trail fin)
    {outer between after : List Tag} {p n : Tag} (hp : p.kind = .beginNode) (hn : n.kind = .beginNode)
    (hbetween : Balanced Tag.step between)
    (hsplit : root :: (inner ++ close :: trail) = outer ++ p :: (between ++ n :: after)) :
    fdtParentOffset t n.off = p.off := by
  have hsize := ht.block_size
  have hprobe := ht.roProbe_nonneg
  obtain ⟨afterp, hsplitp⟩ := h.split hp hsplit
  obtain ⟨st, hst, -⟩ := fdtSupernode_eq hsize hprobe h.rooted hp hsplitp 0
  obtain ⟨aftern, hsplitn⟩ := h.split hn
    (show root :: (inner ++ close :: trail) = (outer ++ p :: between) ++ n :: after by rw [hsplit]; simp)
  have hopen := Nesting.unclosed_of_split (Tag.step_eq_U_iff.2 hp) hst hbetween
  rw [fdtParentOffset_of_unclosed hsize hprobe h.rooted hn hsplitn hopen]
  rfl

end

end RiscvOs
