import RiscvOs.FdtCheck
/-!
# Well-formed device trees (`libfdt/fdt_check.c`)

`fdt_check_full` returns 0 exactly for the trees that are `WellFormed` (`fdtCheckFull_eq_zero_iff`): a header whose
blocks fit, a terminated list of reservations, and a structure block with at most one root, whose name is empty, in
which what is opened is closed and every property has a name.
-/
namespace RiscvOs

open Nesting (unclosed Balanced)
open Loops (Diverges)

/-! ## One root -/

/-- The tags of the root, with an empty name. -/
structure IsRoot (t : Fdt) (root : Tag) (inner : List Tag) (close : Tag) : Prop where
  opens : root.kind = .beginNode
  name : t.HasEmptyName root.off
  balanced : Balanced Tag.step inner
  inside : ∀ tag ∈ inner, tag.kind ≠ .fin
  closes : close.kind = .endNode

/-- A root or none, with nothing but properties and `FDT_NOP` before it, and nothing but `FDT_NOP` behind it. -/
inductive OneRoot (t : Fdt) : List Tag → Prop where
  | none {lead : List Tag} {fin : Tag} (own : Own lead) (last : fin.kind = .fin) : OneRoot t (lead ++ [fin])
  | one {lead inner trail : List Tag} {root close fin : Tag} (own : Own lead) (isRoot : IsRoot t root inner close)
    (nops : ∀ tag ∈ trail, tag.kind = .nop) (last : fin.kind = .fin) :
    OneRoot t (lead ++ root :: (inner ++ close :: (trail ++ [fin])))

section

variable {t : Fdt}

theorem Passes.exists_close : ∀ {tags : List Tag} {d : Nat}, Passes t (d + 1) false tags →
    ∃ inner close rest, tags = inner ++ close :: rest ∧ Balanced Tag.step inner ∧
      (∀ tag ∈ inner, tag.kind ≠ .fin ∧ t.Named tag) ∧ close.kind = .endNode ∧ Passes t d (decide (d = 0)) rest := by
  intro tags
  induction hN : tags.length using Nat.strongRecOn generalizing tags with
  | ind N ih =>
    intro d h
    cases h with
    | @nop tag _ _ tags hkind hrest =>
      obtain ⟨inner, close, rest, rfl, hbalanced, hinner, hclose, hpasses⟩ :=
        ih tags.length (by rw [← hN]; exact Nat.lt_succ_self _) rfl hrest
      refine ⟨tag :: inner, close, rest, rfl, ?_, List.forall_mem_cons.2 ⟨?_, hinner⟩, hclose, hpasses⟩
      · exact (Nesting.unclosed_other (by rw [Tag.step, hkind]) [] inner).trans hbalanced
      · rw [hkind]
        exact ⟨by decide, fun hprop => absurd (hkind.symm.trans hprop) (by decide)⟩
    | @prop tag _ tags hkind hnamed hrest =>
      obtain ⟨inner, close, rest, rfl, hbalanced, hinner, hclose, hpasses⟩ :=
        ih tags.length (by rw [← hN]; exact Nat.lt_succ_self _) rfl hrest
      refine ⟨tag :: inner, close, rest, rfl, ?_, List.forall_mem_cons.2 ⟨⟨?_, hnamed⟩, hinner⟩, hclose, hpasses⟩
      · exact (Nesting.unclosed_other (by rw [Tag.step, hkind]) [] inner).trans hbalanced
      · rw [hkind]
        decide
    | @beginNode tag _ tags hkind _ hrest =>
      -- the node ends, and what is behind it does
      obtain ⟨inner, close, rest, rfl, hbalanced, hinner, hclose, hpasses⟩ :=
        ih tags.length (by rw [← hN]; exact Nat.lt_succ_self _) rfl hrest
      have hshort : rest.length < N := by
        rw [← hN, List.length_cons, List.length_append, List.length_cons]
        omega
      obtain ⟨inner', close', rest', rfl, hbalanced', hinner', hclose', hpasses'⟩ := ih rest.length hshort rfl hpasses
      refine ⟨tag :: inner ++ [close] ++ inner', close', rest', by simp, ?_, ?_, hclose', hpasses'⟩
      · exact (hbalanced.nest (Tag.step_eq_U_iff.2 hkind) (Tag.step_eq_D_iff.2 hclose)).append hbalanced'
      · have hnode : ∀ {n : Tag} {kind : TagKind}, n.kind = kind → kind ≠ .fin → kind ≠ .prop →
            n.kind ≠ .fin ∧ t.Named n := by
          rintro n kind rfl hfin hprop
          exact ⟨hfin, fun h => absurd h hprop⟩
        intro n hn
        simp only [List.cons_append, List.append_assoc, List.mem_cons, List.mem_append, List.not_mem_nil,
          false_or] at hn
        rcases hn with rfl | hn | rfl | hn
        · exact hnode hkind (by decide) (by decide)
        · exact hinner n hn
        · exact hnode hclose (by decide) (by decide)
        · exact hinner' n hn
    | @endNode tag _ tags hkind hrest =>
      exact ⟨[], tag, tags, rfl, Balanced.nil, fun _ h => absurd h List.not_mem_nil, hkind, hrest⟩

/-- What is nested inside the root is passed. -/
theorem Passes.of_unclosed {rest : List Tag} : ∀ {inner st st' : List Tag}, unclosed Tag.step st inner = some st' →
    (∀ tag ∈ inner, tag.kind ≠ .fin ∧ t.Named tag) → Passes t (st'.length + 1) false rest →
    Passes t (st.length + 1) false (inner ++ rest)
  | [], st, st', hst, _, h => by
    rw [unclosed, Option.some.injEq] at hst
    rw [hst]
    exact h
  | tag :: inner, st, st', hst, hinner, h => by
    obtain ⟨htag, hinner⟩ := List.forall_mem_cons.1 hinner
    cases hkind : tag.kind with
    | fin => exact absurd hkind htag.1
    | nop =>
      rw [Nesting.unclosed_other (by rw [Tag.step, hkind])] at hst
      exact .nop hkind (of_unclosed hst hinner h)
    | prop =>
      rw [Nesting.unclosed_other (by rw [Tag.step, hkind])] at hst
      exact .prop hkind htag.2 (of_unclosed hst hinner h)
    | beginNode =>
      rw [Nesting.unclosed_opens (Tag.step_eq_U_iff.2 hkind)] at hst
      exact .beginNode hkind (fun h0 => absurd h0 (Nat.succ_ne_zero _)) (of_unclosed hst hinner h)
    | endNode =>
      have hstep := Tag.step_eq_D_iff.2 hkind
      cases st with
      | nil =>
        rw [Nesting.unclosed_closes_nil hstep] at hst
        cases hst
      | cons n st =>
        rw [Nesting.unclosed_closes hstep] at hst
        exact .endNode hkind (of_unclosed hst hinner h)

/-- Behind the root. -/
theorem passes_behind_iff : ∀ {tags : List Tag}, Passes t 0 true tags ↔
    ∃ trail fin, tags = trail ++ [fin] ∧ (∀ tag ∈ trail, tag.kind = .nop) ∧ fin.kind = .fin
  | [] => by
    constructor
    · intro h
      cases h
    · rintro ⟨trail, fin, htags, -⟩
      cases trail <;> cases htags
  | tag :: tags => by
    constructor
    · intro h
      cases h with
      | fin hkind => exact ⟨[], tag, rfl, fun _ h => absurd h List.not_mem_nil, hkind⟩
      | nop hkind hrest =>
        obtain ⟨trail, fin, rfl, htrail, hfin⟩ := passes_behind_iff.1 hrest
        exact ⟨tag :: trail, fin, rfl, List.forall_mem_cons.2 ⟨hkind, htrail⟩, hfin⟩
    · rintro ⟨trail, fin, htags, htrail, hfin⟩
      cases trail with
      | nil =>
        obtain ⟨rfl, rfl⟩ := List.cons.inj htags
        exact .fin hfin
      | cons n trail =>
        obtain ⟨rfl, rfl⟩ := List.cons.inj htags
        obtain ⟨hkind, htrail⟩ := List.forall_mem_cons.1 htrail
        exact .nop hkind (passes_behind_iff.2 ⟨trail, fin, rfl, htrail, hfin⟩)

theorem named_of_kind {tag : Tag} (h : tag.kind ≠ .prop) : t.Named tag := fun hprop => absurd hprop h

theorem named_trail {trail : List Tag} {fin : Tag} (htrail : ∀ tag ∈ trail, tag.kind = .nop) (hfin : fin.kind = .fin) :
    ∀ tag ∈ trail ++ [fin], t.Named tag := by
  intro tag htag
  rcases List.mem_append.1 htag with h | h
  · exact named_of_kind (by rw [htrail tag h]; decide)
  · exact named_of_kind (by rw [List.mem_singleton.1 h, hfin]; decide)

theorem OneRoot.cons {tag : Tag} {tags : List Tag} (htag : tag.kind = .prop ∨ tag.kind = .nop) (h : OneRoot t tags) :
    OneRoot t (tag :: tags) := by
  cases h with
  | none hown hlast => exact .none (List.forall_mem_cons.2 ⟨htag, hown⟩) hlast
  | one hown hroot hnops hlast => exact .one (List.forall_mem_cons.2 ⟨htag, hown⟩) hroot hnops hlast

theorem Passes.oneRoot : ∀ {tags : List Tag}, Passes t 0 false tags →
    OneRoot t tags ∧ ∀ tag ∈ tags, t.Named tag
  | [], h => by cases h
  | tag :: tags, h => by
    cases h with
    | fin hkind =>
      refine ⟨@OneRoot.none t [] tag (fun _ h => absurd h List.not_mem_nil) hkind, fun n hn => ?_⟩
      exact named_of_kind (by rw [List.mem_singleton.1 hn, hkind]; decide)
    | nop hkind hrest =>
      obtain ⟨hone, hnamed⟩ := oneRoot hrest
      exact ⟨hone.cons (Or.inr hkind), List.forall_mem_cons.2 ⟨named_of_kind (by rw [hkind]; decide), hnamed⟩⟩
    | prop hkind hname hrest =>
      obtain ⟨hone, hnamed⟩ := oneRoot hrest
      exact ⟨hone.cons (Or.inl hkind), List.forall_mem_cons.2 ⟨hname, hnamed⟩⟩
    | beginNode hkind hname hrest =>
      obtain ⟨inner, close, rest, rfl, hbalanced, hinner, hclose, hpasses⟩ := hrest.exists_close
      obtain ⟨trail, fin, rfl, htrail, hfin⟩ := passes_behind_iff.1 hpasses
      refine ⟨@OneRoot.one t [] inner trail tag close fin (fun _ h => absurd h List.not_mem_nil)
        ⟨hkind, hname rfl, hbalanced, fun n hn => (hinner n hn).1, hclose⟩ htrail hfin, fun n hn => ?_⟩
      rcases List.mem_cons.1 hn with rfl | hn
      · exact named_of_kind (by rw [hkind]; decide)
      rcases List.mem_append.1 hn with hn | hn
      · exact (hinner n hn).2
      rcases List.mem_cons.1 hn with rfl | hn
      · exact named_of_kind (by rw [hclose]; decide)
      · exact named_trail htrail hfin n hn

/-- **The tags that are accepted at the start.** -/
theorem passes_iff_oneRoot {tags : List Tag} :
    Passes t 0 false tags ↔ OneRoot t tags ∧ ∀ tag ∈ tags, t.Named tag := by
  refine ⟨Passes.oneRoot, ?_⟩
  have hlead : ∀ {lead rest : List Tag}, Own lead → (∀ tag ∈ lead, t.Named tag) → Passes t 0 false rest →
      Passes t 0 false (lead ++ rest) := by
    intro lead rest hown hnamed hrest
    induction lead with
    | nil => exact hrest
    | cons tag lead ih =>
      obtain ⟨htag, hown⟩ := List.forall_mem_cons.1 hown
      obtain ⟨hname, hnamed⟩ := List.forall_mem_cons.1 hnamed
      rcases htag with htag | htag
      · exact .prop htag hname (ih hown hnamed)
      · exact .nop htag (ih hown hnamed)
  rintro ⟨hone, hnamed⟩
  cases hone with
  | none hown hlast => exact hlead hown (fun n hn => hnamed n (List.mem_append_left _ hn)) (.fin hlast)
  | @one lead inner trail root close fin hown hroot hnops hlast =>
    refine hlead hown (fun n hn => hnamed n (List.mem_append_left _ hn))
      (.beginNode hroot.opens (fun _ => hroot.name) ?_)
    have hinner : unclosed Tag.step [] inner = some [] := hroot.balanced
    refine Passes.of_unclosed hinner (fun n hn => ⟨hroot.inside n hn, ?_⟩) ?_
    · exact hnamed n (List.mem_append_right _ (List.mem_cons_of_mem _ (List.mem_append_left _ hn)))
    · exact .endNode hroot.closes (passes_behind_iff.2 ⟨trail, fin, rfl, hnops, hlast⟩)

end

/-! ## What `fdt_check_full` establishes -/

/-- A device tree that is all there. -/
structure WellFormed (t : Fdt) : Prop extends Probed t where
  reservations : ∃ i, t.LastRsv i
  tags : ∃ tags e, Walk t.block 0 tags e ∧ OneRoot t tags ∧ ∀ tag ∈ tags, t.Named tag

/-- The first node of the structure block has a path that `strrchr` does not return from. -/
structure HangsAtRoot (t : Fdt) : Prop extends Probed t where
  reservations : ∃ i, t.LastRsv i
  root : ∃ lead root, Own lead ∧ (∀ tag ∈ lead, t.Named tag) ∧ root.kind = .beginNode ∧ t.HangsAt root.off ∧
    Walk t.block 0 (lead ++ [root]) root.next

theorem fdtHeaderSize_le_of_probed {t : Fdt} (ht : Probed t) {bufsize : Nat} (h : t.totalsize ≤ bufsize) :
    ¬ bufsize < 7 * 4 ∧ ¬ bufsize < fdtHeaderSize t := by
  have hheader := le_fdtHeaderSize t
  have hle := ht.hdrsize_le
  omega

/-- Before its loop `fdt_check_full` has checked the header and the reservations. -/
theorem fdtCheckFull_cases (t : Fdt) (bufsize : Nat) :
    (Probed t ∧ (∃ i, t.LastRsv i) ∧ t.totalsize ≤ bufsize ∧ fdtCheckFull t bufsize =
        (Loops.run (checkRound t) maxRounds ⟨0, 0, false⟩).getD (some fdtErrInternal)) ∨
      (¬ (Probed t ∧ (∃ i, t.LastRsv i) ∧ t.totalsize ≤ bufsize) ∧
        ∃ err, err ≠ 0 ∧ fdtCheckFull t bufsize = some err) := by
  have htruncated : fdtErrTruncated ≠ 0 := by decide
  unfold fdtCheckFull
  by_cases h1 : bufsize < 7 * 4
  · rw [if_pos h1]
    exact Or.inr ⟨fun h => (fdtHeaderSize_le_of_probed h.1 h.2.2).1 h1, _, htruncated, rfl⟩
  rw [if_neg h1]
  by_cases h2 : bufsize < fdtHeaderSize t
  · rw [if_pos h2]
    exact Or.inr ⟨fun h => (fdtHeaderSize_le_of_probed h.1 h.2.2).2 h2, _, htruncated, rfl⟩
  rw [if_neg h2]
  by_cases h3 : fdtCheckHeader t ≠ 0
  · rw [if_pos h3]
    exact Or.inr ⟨fun h => h3 ((fdtCheckHeader_eq_zero_iff t).2 h.1.toHeaderChecked), _, h3, rfl⟩
  rw [if_neg h3]
  by_cases h4 : bufsize < t.totalsize
  · rw [if_pos h4]
    exact Or.inr ⟨fun h => absurd h.2.2 (Nat.not_le.2 h4), _, htruncated, rfl⟩
  rw [if_neg h4]
  have hheader := (fdtCheckHeader_eq_zero_iff t).1 (not_not.1 h3)
  by_cases h5 : fdtNumMemRsv t < 0
  · rw [if_pos h5]
    refine Or.inr ⟨fun h => ?_, _, Int.ne_of_lt h5, rfl⟩
    obtain ⟨i, hi⟩ := h.2.1
    exact (fdtNumMemRsv_neg_iff h.1).1 h5 i hi
  rw [if_neg h5]
  -- the probe lets the tree through, or the reservations are not counted
  have hprobe : 0 ≤ fdtRoProbe t := by
    unfold fdtNumMemRsv at h5
    dsimp only at h5
    by_contra hneg
    rw [if_pos (Int.not_le.1 hneg)] at h5
    exact h5 (Int.not_le.1 hneg)
  have ht : Probed t := ⟨hheader, (fdtRoProbe_of_nonneg hprobe).2.1⟩
  rw [fdtNumMemRsv_neg_iff ht] at h5
  simp only [not_forall, not_not] at h5
  exact Or.inl ⟨ht, h5, Nat.not_lt.1 h4, rfl⟩

section

variable {t : Fdt} (ht : Probed t) (hlow : t.Low)

include ht hlow

theorem checkLoop_zero_iff :
    (Loops.run (checkRound t) maxRounds ⟨0, 0, false⟩).getD (some fdtErrInternal) = some 0 ↔
      ∃ tags e, Walk t.block 0 tags e ∧ OneRoot t tags ∧ ∀ tag ∈ tags, t.Named tag := by
  constructor
  · intro h
    cases hr : Loops.run (checkRound t) maxRounds ⟨0, 0, false⟩ with
    | none =>
      rw [hr, Option.getD_none, Option.some.injEq] at h
      exact absurd h (by decide)
    | some r =>
      rw [hr, Option.getD_some] at h
      rw [h] at hr
      obtain ⟨tags, e, hwalk, hpasses⟩ := passes_of_run ht hlow (o := 0) (by decide) (Nat.le_refl 0) rfl hr
      exact ⟨tags, e, hwalk, passes_iff_oneRoot.1 hpasses⟩
  · rintro ⟨tags, e, hwalk, hone⟩
    have hreturns := (passes_iff_oneRoot.2 hone).returns ht hlow (o := 0) (Nat.le_refl 0) rfl hwalk
    rw [check_run ht hlow hreturns]
    rfl

theorem checkLoop_hangs_iff :
    (Loops.run (checkRound t) maxRounds ⟨0, 0, false⟩).getD (some fdtErrInternal) = none ↔
      ∃ lead root, Own lead ∧ (∀ tag ∈ lead, t.Named tag) ∧ root.kind = .beginNode ∧ t.HangsAt root.off ∧
        Walk t.block 0 (lead ++ [root]) root.next := by
  constructor
  · intro h
    cases hr : Loops.run (checkRound t) maxRounds ⟨0, 0, false⟩ with
    | none =>
      rw [hr, Option.getD_none] at h
      cases h
    | some r =>
      rw [hr, Option.getD_some] at h
      rw [h] at hr
      exact (hangs_of_run ht hlow (o := 0) (by decide) (Nat.le_refl 0) rfl hr).2.2
  · rintro ⟨lead, root, hlead, hnamed, hkind, hhangs, hwalk⟩
    have hreturns := hangs_returns ht hlow (o := 0) hlead hnamed hkind hhangs rfl hwalk
    rw [check_run ht hlow hreturns]
    rfl

end

/-- **`fdt_check_full` returns 0 exactly for the trees that are well formed** and lie in the buffer. -/
theorem fdtCheckFull_eq_zero_iff (t : Fdt) (bufsize : Nat) (hlow : Probed t → t.Low) :
    fdtCheckFull t bufsize = some 0 ↔ WellFormed t ∧ t.totalsize ≤ bufsize := by
  rcases fdtCheckFull_cases t bufsize with ⟨ht, hrsv, hbuf, hrun⟩ | ⟨hnot, err, herr, hrun⟩
  · rw [hrun, checkLoop_zero_iff ht (hlow ht)]
    constructor
    · exact fun htags => ⟨⟨ht, hrsv, htags⟩, hbuf⟩
    · exact fun h => h.1.tags
  · rw [hrun]
    refine iff_of_false (fun h => herr (Option.some.inj h)) ?_
    rintro ⟨hw, hbuf⟩
    exact hnot ⟨hw.toProbed, hw.reservations, hbuf⟩

theorem fdtCheckFull_eq_zero_iff_smallTree :
    fdtCheckFull smallTree 111 = some 0 ↔ WellFormed smallTree ∧ smallTree.totalsize ≤ 111 :=
  fdtCheckFull_eq_zero_iff smallTree 111 fun _ => smallTree_low

/-- **`fdt_check_full` hangs exactly at the trees before version 16 whose first node has a path that `strrchr` does not
return from.** -/
theorem fdtCheckFull_hangs_iff (t : Fdt) (bufsize : Nat) (hlow : Probed t → t.Low) :
    (fdtCheckFull t bufsize = none ↔ HangsAtRoot t ∧ t.totalsize ≤ bufsize) ∧
      ∀ o, t.HangsAt o → Diverges (strrchrRound t.mem 0x2f) (t.namePtr o) := by
  refine ⟨?_, fun o ho => ho.diverges⟩
  rcases fdtCheckFull_cases t bufsize with ⟨ht, hrsv, hbuf, hrun⟩ | ⟨hnot, err, -, hrun⟩
  · rw [hrun, checkLoop_hangs_iff ht (hlow ht)]
    constructor
    · exact fun hroot => ⟨⟨ht, hrsv, hroot⟩, hbuf⟩
    · exact fun h => h.1.root
  · rw [hrun]
    refine iff_of_false (fun h => by cases h) ?_
    rintro ⟨hw, hbuf⟩
    exact hnot ⟨hw.toProbed, hw.reservations, hbuf⟩

theorem fdtCheckFull_hangs_iff_smallTree :
    (fdtCheckFull smallTree 111 = none ↔ HangsAtRoot smallTree ∧ smallTree.totalsize ≤ 111) ∧
      ∀ o, smallTree.HangsAt o → Diverges (strrchrRound smallTree.mem 0x2f) (smallTree.namePtr o) :=
  fdtCheckFull_hangs_iff smallTree 111 fun _ => smallTree_low

end RiscvOs
