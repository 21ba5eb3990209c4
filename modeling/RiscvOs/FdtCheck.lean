import RiscvOs.FdtReservations
/-!
# The rounds of `fdt_check_full` (`libfdt/fdt_check.c`)

`fdt_check_full` goes over all tags of the structure block.  What it passes is a relation on the tags (`Passes`), and
its loop returns 0 on exactly these (`passes_of_run`, `Passes.returns`).
-/
namespace RiscvOs

open Loops (Returns Diverges)

/-- `fdt_getprop_by_offset`, asked for the name: the value, `*namep` and `*lenp`, or `NULL` and `*lenp`. -/
def fdtGetpropByOffset (t : Fdt) (offset : Int) : Except Int (Nat × Nat × Int) :=
  match fdtGetPropertyByOffset t offset with
  | .error err      => .error err
  | .ok (prop, len) =>
    match fdtGetString t (toInt32 (fdt32LdAligned t.mem (wrap32 (prop + 8)))) with
    | .error namelen => .error namelen
    | .ok (name, _)  => .ok (propData t prop offset, name, len)

structure CheckFull where
  nextoffset : Int
  depth : Nat
  expectEnd : Bool

/-- `/* The root node must have an empty name */`, or `fdt_check_full` leaves with this. -/
def checkRootName (t : Fdt) (offset : Int) : Except (Option Int) Unit :=
  match fdtGetName t offset with
  | none                   => .error none
  | some (.error len)      => .error (some len)
  | some (.ok (name, len)) => if t.mem name ≠ 0 ∨ len ≠ 0 then .error (some fdtErrBadstructure) else .ok ()

/-- The `switch` of `fdt_check_full`, and the check before it; it leaves with what is returned. -/
def checkSwitch (t : Fdt) (offset : Int) (s : CheckFull) (tag : Nat) : CheckFull ⊕ Option Int :=
  if s.expectEnd ∧ tag ≠ fdtEnd ∧ tag ≠ fdtNop then .inr (some fdtErrBadstructure)
  else if tag = fdtNop then .inl s
  else if tag = fdtEnd then .inr (some (if s.depth ≠ 0 then fdtErrBadstructure else 0))
  else if tag = fdtBeginNode then
    let depth := wrap32 (s.depth + 1)
    if depth > intMax then .inr (some fdtErrBadstructure)
    else if depth = 1 then
      match checkRootName t offset with
      | .error r => .inr r
      | .ok _    => .inl { s with depth }
    else .inl { s with depth }
  else if tag = fdtEndNode then
    if s.depth = 0 then .inr (some fdtErrBadstructure)
    else
      let depth := s.depth - 1
      .inl { s with depth, expectEnd := if depth = 0 then true else s.expectEnd }
  else if tag = fdtProp then
    match fdtGetpropByOffset t offset with
    | .error err => .inr (some err)
    | .ok _      => .inl s
  else .inr (some fdtErrInternal)

def checkRound (t : Fdt) (s : CheckFull) : CheckFull ⊕ Option Int :=
  let offset := s.nextoffset
  let r := fdtNextTag t offset
  if r.2 < 0 then .inr (some r.2) else checkSwitch t offset { s with nextoffset := r.2 } r.1

/-- `fdt_check_full`; `none` does not return. -/
def fdtCheckFull (t : Fdt) (bufsize : Nat) : Option Int :=
  if bufsize < 7 * 4 then some fdtErrTruncated
  else if bufsize < fdtHeaderSize t then some fdtErrTruncated
  else if fdtCheckHeader t ≠ 0 then some (fdtCheckHeader t)
  else if bufsize < t.totalsize then some fdtErrTruncated
  else if fdtNumMemRsv t < 0 then some (fdtNumMemRsv t)
  else (Loops.run (checkRound t) maxRounds ⟨0, 0, false⟩).getD (some fdtErrInternal)

/-! ## The name of the root -/

/-- Before version 16 a node has the name of its path. -/
def Fdt.HasEmptyName (t : Fdt) (o : Nat) : Prop :=
  if 0x10 ≤ t.version then t.block.name o 0 = 0 else t.block.name o 0 = 0x2f ∧ t.block.name o 1 = 0

/-- The path of a node that `strrchr` does not return from. -/
def Fdt.HangsAt (t : Fdt) (o : Nat) : Prop := t.version < 0x10 ∧ t.block.name o 0 ≠ 0x2f ∧ t.block.name o 0 ≠ 0

theorem Fdt.HangsAt.not_hasEmptyName {t : Fdt} {o : Nat} (h : t.HangsAt o) : ¬ t.HasEmptyName o := by
  unfold Fdt.HasEmptyName
  rw [if_neg (Nat.not_le.2 h.1)]
  exact fun hname => h.2.1 hname.1

theorem Fdt.HangsAt.diverges {t : Fdt} {o : Nat} (h : t.HangsAt o) :
    Diverges (strrchrRound t.mem 0x2f) (t.namePtr o) := strrchr_path_diverges h.2.2 h.2.1

/-- The name of a property is in the strings block. -/
def Fdt.Named (t : Fdt) (tag : Tag) : Prop := tag.kind = .prop → ∃ len, t.HoldsString (t.block.nameoff tag.off) len

section

variable {t : Fdt} {n : Tag} (ht : Probed t)

include ht

theorem checkRootName_cases (hlow : t.Low) (hn : t.block.Reads n) (hkind : n.kind = .beginNode)
    (haligned : n.off % 4 = 0) :
    (t.HasEmptyName n.off ∧ checkRootName t n.off = .ok ()) ∨
      (t.HangsAt n.off ∧ checkRootName t n.off = .error none) ∨
      (¬ t.HasEmptyName n.off ∧ ¬ t.HangsAt n.off ∧
        checkRootName t n.off = .error (some fdtErrBadstructure)) := by
  obtain ⟨l, hl, hin⟩ := hn.exists_name hkind
  have hmem : t.mem (t.namePtr n.off) = t.block.name n.off 0 := mem_block (n.off + 4)
  have hmem1 : t.mem (wrap32 (t.namePtr n.off + 1)) = t.block.name n.off 1 := by
    have hnext : wrap32 (t.namePtr n.off + 1) = wrap32 (t.ptr + (t.offDtStruct + (n.off + 4 + 1))) := by
      unfold Fdt.namePtr wrap32
      omega
    rw [hnext]
    exact mem_block (n.off + 4 + 1)
  have hzero : t.block.name n.off 0 = 0 ↔ l = 0 :=
    ⟨fun h0 => Nat.le_zero.1 (hl.2 h0), fun h0 => h0 ▸ hl.1⟩
  unfold checkRootName Fdt.HasEmptyName Fdt.HangsAt
  rw [fdtGetName_eq ht hlow hn hkind haligned hl hin]
  by_cases hversion : 0x10 ≤ t.version
  · simp only [if_pos hversion]
    rw [hmem]
    by_cases h0 : t.block.name n.off 0 = 0
    · refine Or.inl ⟨h0, if_neg ?_⟩
      rw [hzero.1 h0]
      simp [h0]
    · exact Or.inr (Or.inr ⟨h0, fun h => absurd h.1 (Nat.not_lt.2 hversion), if_pos (Or.inl h0)⟩)
  · simp only [if_neg hversion]
    by_cases h0 : t.block.name n.off 0 = 0
    · simp only [if_pos h0]
      exact Or.inr (Or.inr ⟨fun h => absurd (h.1.symm.trans h0) (by decide), fun h => h.2.2 h0, trivial⟩)
    simp only [if_neg h0]
    by_cases hslash : t.block.name n.off 0 = 0x2f
    · simp only [if_pos hslash]
      rw [hmem1]
      by_cases h1 : t.block.name n.off 1 = 0
      · have hlen : l = 1 := by
          have hle := hl.2 h1
          have hne : l ≠ 0 := fun hl0 => h0 (hzero.2 hl0)
          omega
        exact Or.inl ⟨⟨hslash, h1⟩, if_neg (by simp [h1, hlen])⟩
      · exact Or.inr (Or.inr ⟨fun h => h1 h.2, fun h => h.2.1 hslash, if_pos (Or.inl h1)⟩)
    · simp only [if_neg hslash]
      exact Or.inr (Or.inl ⟨⟨Nat.not_le.1 hversion, hslash, h0⟩, trivial⟩)

/-! ## A round of `fdt_check_full` -/

theorem fdtGetpropByOffset_cases (hn : t.block.Reads n) (hkind : n.kind = .prop) (haligned : n.off % 4 = 0) :
    (t.Named n ∧ ∃ r, fdtGetpropByOffset t n.off = .ok r) ∨
      (¬ t.Named n ∧ ∃ err < 0, fdtGetpropByOffset t n.off = .error err) := by
  have hbounds := hn.bounds
  have hsize := ht.block_size
  have hname : fdt32LdAligned t.mem (wrap32 (fdtOffsetPtrOf t n.off + 8)) = t.block.nameoff n.off := by
    rw [fdtOffsetPtrOf_add (by omega), fdt32LdAligned_block, Block.nameoff]
  unfold fdtGetpropByOffset
  rw [fdtGetPropertyByOffset_of_reads hsize hn hkind haligned]
  dsimp only
  rw [hname]
  rcases fdtGetString_cases ht (bigEndian_lt t.block.bytes (n.off + 8)) with
    ⟨len, hlen, hrun⟩ | ⟨hnone, err, herr, hrun⟩
  · rw [Block.nameoff, hrun]
    exact Or.inl ⟨fun _ => ⟨len, hlen⟩, _, rfl⟩
  · rw [Block.nameoff, hrun]
    refine Or.inr ⟨fun h => ?_, err, herr, rfl⟩
    obtain ⟨len, hlen⟩ := h hkind
    exact hnone len hlen

theorem checkRound_of_reads (hn : t.block.Reads n) (d : Nat) (b : Bool) :
    checkRound t ⟨n.off, d, b⟩ = checkSwitch t n.off ⟨n.next, d, b⟩ n.kind.tag := by
  unfold checkRound
  dsimp only
  rw [fdtNextTag_of_reads hn ht.block_size, if_neg (Int.not_lt.2 (Int.natCast_nonneg _))]

omit ht in
theorem checkSwitch_nop (offset : Int) (s : CheckFull) : checkSwitch t offset s fdtNop = .inl s := by
  unfold checkSwitch
  rw [if_neg (by simp), if_pos rfl]

omit ht in
theorem checkSwitch_fin (offset : Int) (s : CheckFull) :
    checkSwitch t offset s fdtEnd = .inr (some (if s.depth ≠ 0 then fdtErrBadstructure else 0)) := by
  unfold checkSwitch
  rw [if_neg (by simp), if_neg (by decide), if_pos rfl]

omit ht in
/-- Behind the root only `FDT_NOP` and `FDT_END` are let through. -/
theorem checkSwitch_expectEnd {kind : TagKind} (h : kind ≠ .nop ∧ kind ≠ .fin) (offset nextoffset : Int) (d : Nat) :
    checkSwitch t offset ⟨nextoffset, d, true⟩ kind.tag = .inr (some fdtErrBadstructure) := by
  have hend : kind.tag ≠ fdtEnd := fun hk => h.2 (TagKind.tag_inj (show kind.tag = TagKind.fin.tag from hk))
  have hnop : kind.tag ≠ fdtNop := fun hk => h.1 (TagKind.tag_inj (show kind.tag = TagKind.nop.tag from hk))
  unfold checkSwitch
  rw [if_pos ⟨rfl, hend, hnop⟩]

omit ht in
theorem checkSwitch_begin (offset nextoffset : Int) {d : Nat} (hd : d < intMax) :
    checkSwitch t offset ⟨nextoffset, d, false⟩ fdtBeginNode =
      if d = 0 then
        match checkRootName t offset with
        | .error r => .inr r
        | .ok _    => .inl ⟨nextoffset, 1, false⟩
      else .inl ⟨nextoffset, d + 1, false⟩ := by
  have hdepth : wrap32 (d + 1) = d + 1 := wrap32_of_lt (by unfold intMax at hd; omega)
  unfold checkSwitch
  rw [if_neg (by simp), if_neg (by decide), if_neg (by decide), if_pos rfl]
  dsimp only
  rw [hdepth, if_neg (Nat.not_lt.2 hd)]
  by_cases hroot : d = 0
  · rw [if_pos (by omega), if_pos hroot, hroot]
  · rw [if_neg (by omega), if_neg hroot]

omit ht in
theorem checkSwitch_end (offset nextoffset : Int) (d : Nat) :
    checkSwitch t offset ⟨nextoffset, d, false⟩ fdtEndNode =
      if d = 0 then .inr (some fdtErrBadstructure) else .inl ⟨nextoffset, d - 1, decide (d - 1 = 0)⟩ := by
  unfold checkSwitch
  rw [if_neg (by simp), if_neg (by decide), if_neg (by decide), if_neg (by decide), if_pos rfl]
  dsimp only
  by_cases hlast : d - 1 = 0 <;> simp [hlast]

omit ht in
theorem checkSwitch_prop (offset nextoffset : Int) (d : Nat) :
    checkSwitch t offset ⟨nextoffset, d, false⟩ fdtProp =
      match fdtGetpropByOffset t offset with
      | .error err => .inr (some err)
      | .ok _      => .inl ⟨nextoffset, d, false⟩ := by
  unfold checkSwitch
  rw [if_neg (by simp), if_neg (by decide), if_neg (by decide), if_neg (by decide), if_neg (by decide), if_pos rfl]

end

/-! ## The tags that are accepted -/

/-- The tags up to `FDT_END` that `fdt_check_full` lets through, at a depth, and behind the root. -/
inductive Passes (t : Fdt) : Nat → Bool → List Tag → Prop where
  | fin {tag : Tag} {b : Bool} (kind : tag.kind = .fin) : Passes t 0 b [tag]
  | nop {tag : Tag} {d : Nat} {b : Bool} {tags : List Tag} (kind : tag.kind = .nop) (rest : Passes t d b tags) :
    Passes t d b (tag :: tags)
  | prop {tag : Tag} {d : Nat} {tags : List Tag} (kind : tag.kind = .prop) (named : t.Named tag)
    (rest : Passes t d false tags) : Passes t d false (tag :: tags)
  | beginNode {tag : Tag} {d : Nat} {tags : List Tag} (kind : tag.kind = .beginNode)
    (root : d = 0 → t.HasEmptyName tag.off) (rest : Passes t (d + 1) false tags) : Passes t d false (tag :: tags)
  | endNode {tag : Tag} {d : Nat} {tags : List Tag} (kind : tag.kind = .endNode)
    (rest : Passes t d (decide (d = 0)) tags) : Passes t (d + 1) false (tag :: tags)

theorem fdtErrBadstructure_neg : fdtErrBadstructure < 0 := by decide

section

variable {t : Fdt} (ht : Probed t) (hlow : t.Low)

include ht hlow

/-- **What is accepted returns 0.** -/
theorem Passes.returns {d o e : Nat} {b : Bool} {tags : List Tag} (h : Passes t d b tags) (hd : 4 * d ≤ o)
    (ho : o % 4 = 0) (hwalk : Walk t.block o tags e) : Returns (checkRound t) ⟨o, d, b⟩ (some 0) := by
  have hsize := ht.block_size
  induction h generalizing o with
  | fin hkind =>
    obtain ⟨rfl, hreads, -⟩ := Walk.cons_iff.1 hwalk
    apply Loops.returns_of_inr
    rw [checkRound_of_reads ht hreads, hkind]
    exact checkSwitch_fin _ _
  | nop hkind _ ih =>
    obtain ⟨rfl, hreads, hrest⟩ := Walk.cons_iff.1 hwalk
    have hbounds := hreads.bounds
    refine Loops.returns_of_inl ?_ (ih (by omega) hbounds.2.1 hrest)
    rw [checkRound_of_reads ht hreads, hkind]
    exact checkSwitch_nop _ _
  | prop hkind hnamed _ ih =>
    obtain ⟨rfl, hreads, hrest⟩ := Walk.cons_iff.1 hwalk
    have hbounds := hreads.bounds
    refine Loops.returns_of_inl ?_ (ih (by omega) hbounds.2.1 hrest)
    rw [checkRound_of_reads ht hreads, hkind]
    rcases fdtGetpropByOffset_cases ht hreads hkind ho with ⟨-, r, hr⟩ | ⟨hnone, -⟩
    · rw [TagKind.tag, checkSwitch_prop, hr]
    · exact absurd hnamed hnone
  | beginNode hkind hroot _ ih =>
    obtain ⟨rfl, hreads, hrest⟩ := Walk.cons_iff.1 hwalk
    have hbounds := hreads.bounds
    refine Loops.returns_of_inl ?_ (ih (by omega) hbounds.2.1 hrest)
    rw [checkRound_of_reads ht hreads, hkind, TagKind.tag, checkSwitch_begin _ _ (by unfold intMax; omega)]
    split
    case isTrue h0 =>
      rcases checkRootName_cases ht hlow hreads hkind ho with ⟨-, hok⟩ | ⟨hhangs, -⟩ | ⟨hnot, -⟩
      · rw [hok, h0]
      · exact absurd (hroot h0) hhangs.not_hasEmptyName
      · exact absurd (hroot h0) hnot
    case isFalse => rfl
  | endNode hkind _ ih =>
    obtain ⟨rfl, hreads, hrest⟩ := Walk.cons_iff.1 hwalk
    have hbounds := hreads.bounds
    refine Loops.returns_of_inl ?_ (ih (by omega) hbounds.2.1 hrest)
    rw [checkRound_of_reads ht hreads, hkind, TagKind.tag, checkSwitch_end, if_neg (Nat.succ_ne_zero _)]
    rfl

/-- A round goes on behind the tag that it lets through. -/
def GoesOn (t : Fdt) (d : Nat) (b : Bool) (tag : Tag) (d' : Nat) (b' : Bool) : Prop :=
  checkRound t ⟨tag.off, d, b⟩ = .inl ⟨tag.next, d', b'⟩ ∧ d' ≤ d + 1 ∧
    (∀ tags, Passes t d' b' tags → Passes t d b (tag :: tags)) ∧
    (d' = 0 → b' = false → d = 0 ∧ b = false ∧ (tag.kind = .prop ∨ tag.kind = .nop) ∧ t.Named tag)

/-- What the round at this tag does. -/
inductive RoundAt (t : Fdt) (d : Nat) (b : Bool) (tag : Tag) : Prop where
  | goesOn {d' : Nat} {b' : Bool} (next : GoesOn t d b tag d' b')
  | accepts (fin : tag.kind = .fin) (closed : d = 0) (run : checkRound t ⟨tag.off, d, b⟩ = .inr (some 0))
  | fails {err : Int} (neg : err < 0) (run : checkRound t ⟨tag.off, d, b⟩ = .inr (some err))
  | hangs (kind : tag.kind = .beginNode) (closed : d = 0) (expect : b = false) (path : t.HangsAt tag.off)
    (run : checkRound t ⟨tag.off, d, b⟩ = .inr none)

section

variable {tag : Tag} {d : Nat} (hreads : t.block.Reads tag)

include hreads

omit hlow in
theorem roundAt_nop (hkind : tag.kind = .nop) (b : Bool) : RoundAt t d b tag := by
  have hround := checkRound_of_reads ht hreads d b
  rw [hkind] at hround
  exact .goesOn ⟨hround.trans (checkSwitch_nop _ _), Nat.le_succ d, fun tags => .nop hkind,
    fun hd' hb' => ⟨hd', hb', Or.inr hkind, fun hprop => absurd (hkind.symm.trans hprop) (by decide)⟩⟩

omit hlow in
theorem roundAt_fin (hkind : tag.kind = .fin) (b : Bool) : RoundAt t d b tag := by
  have hround := checkRound_of_reads ht hreads d b
  rw [hkind] at hround
  have hround := hround.trans (checkSwitch_fin _ _)
  by_cases h0 : d = 0
  · rw [if_neg (not_not.2 h0)] at hround
    exact .accepts hkind h0 hround
  · rw [if_pos h0] at hround
    exact .fails fdtErrBadstructure_neg hround

omit hlow in
/-- Behind the root nothing else is let through. -/
theorem roundAt_expectEnd (hkind : tag.kind ≠ .nop ∧ tag.kind ≠ .fin) : RoundAt t d true tag := by
  have hround := checkRound_of_reads ht hreads d true
  rw [checkSwitch_expectEnd hkind] at hround
  exact .fails fdtErrBadstructure_neg hround

theorem roundAt_begin (hkind : tag.kind = .beginNode) (haligned : tag.off % 4 = 0) (hdepth : d < intMax) :
    RoundAt t d false tag := by
  have hround := checkRound_of_reads ht hreads d false
  rw [hkind, TagKind.tag, checkSwitch_begin _ _ hdepth] at hround
  by_cases h0 : d = 0
  · rw [if_pos h0] at hround
    rcases checkRootName_cases ht hlow hreads hkind haligned with ⟨hname, hr⟩ | ⟨hhangs, hr⟩ | ⟨-, -, hr⟩
    · rw [hr] at hround
      refine .goesOn ⟨hround, by omega, fun tags h => ?_, fun h => absurd h (by decide)⟩
      rw [h0]
      exact .beginNode hkind (fun _ => hname) h
    · rw [hr] at hround
      exact .hangs hkind h0 rfl hhangs hround
    · rw [hr] at hround
      exact .fails fdtErrBadstructure_neg hround
  · rw [if_neg h0] at hround
    exact .goesOn ⟨hround, Nat.le_refl _, fun tags => .beginNode hkind fun h => absurd h h0,
      fun h => absurd h (Nat.succ_ne_zero d)⟩

omit hlow in
theorem roundAt_end (hkind : tag.kind = .endNode) : RoundAt t d false tag := by
  have hround := checkRound_of_reads ht hreads d false
  rw [hkind, TagKind.tag, checkSwitch_end] at hround
  cases d with
  | zero =>
    rw [if_pos rfl] at hround
    exact .fails fdtErrBadstructure_neg hround
  | succ d =>
    rw [if_neg (Nat.succ_ne_zero d)] at hround
    refine .goesOn ⟨hround, by omega, fun tags => .endNode hkind, fun h0 h => ?_⟩
    rw [decide_eq_true h0] at h
    cases h

omit hlow in
theorem roundAt_prop (hkind : tag.kind = .prop) (haligned : tag.off % 4 = 0) : RoundAt t d false tag := by
  have hround := checkRound_of_reads ht hreads d false
  rw [hkind, TagKind.tag, checkSwitch_prop] at hround
  rcases fdtGetpropByOffset_cases ht hreads hkind haligned with ⟨hnamed, r, hr⟩ | ⟨-, err, herr, hr⟩
  · rw [hr] at hround
    exact .goesOn ⟨hround, Nat.le_succ d, fun tags => .prop hkind hnamed,
      fun hd' _ => ⟨hd', rfl, Or.inl hkind, hnamed⟩⟩
  · rw [hr] at hround
    exact .fails herr hround

end

/-- **A round** goes on, accepts `FDT_END`, fails, or hangs at the root. -/
theorem checkRound_cases {o d : Nat} {b : Bool} (hlt : o < 2 ^ 31) (hd : 4 * d ≤ o) (ho : o % 4 = 0) :
    (∃ tag, t.block.Reads tag ∧ tag.off = o ∧ RoundAt t d b tag) ∨
      (∃ err < 0, checkRound t ⟨o, d, b⟩ = .inr (some err)) := by
  rcases fdtNextTag_total (show (o : Int) < 2 ^ 31 by omega) ht.block_size with
    ⟨tag, hreads, hoff, -⟩ | ⟨-, err, herr, hrun⟩
  case inr =>
    refine Or.inr ⟨err, herr, ?_⟩
    unfold checkRound
    dsimp only
    rw [hrun, if_pos herr]
  obtain rfl : tag.off = o := Int.ofNat.inj hoff
  refine Or.inl ⟨tag, hreads, rfl, ?_⟩
  have hdepth : d < intMax := by
    unfold intMax
    omega
  by_cases hnop : tag.kind = .nop
  · exact roundAt_nop ht hreads hnop b
  by_cases hfin : tag.kind = .fin
  · exact roundAt_fin ht hreads hfin b
  cases b with
  | true => exact roundAt_expectEnd ht hreads ⟨hnop, hfin⟩
  | false =>
    cases hkind : tag.kind with
    | nop => exact absurd hkind hnop
    | fin => exact absurd hkind hfin
    | beginNode => exact roundAt_begin ht hlow hreads hkind ho hdepth
    | endNode => exact roundAt_end ht hreads hkind
    | prop => exact roundAt_prop ht hreads hkind ho

/-- **What returns 0 is accepted.** -/
theorem passes_of_run : ∀ {rounds o d : Nat} {b : Bool}, o < 2 ^ 31 → 4 * d ≤ o → o % 4 = 0 →
    Loops.run (checkRound t) rounds ⟨o, d, b⟩ = some (some 0) → ∃ tags e, Walk t.block o tags e ∧ Passes t d b tags
  | 0, _, _, _, _, _, _, hrun => by cases hrun
  | rounds + 1, o, d, b, hlt, hd, ho, hrun => by
    have hsize := ht.block_size
    rcases checkRound_cases (b := b) ht hlow hlt hd ho with ⟨tag, hreads, rfl, hround⟩ | ⟨err, herr, hround⟩
    case inr =>
      rw [Loops.run_succ_of_inr hround, Option.some.injEq, Option.some.injEq] at hrun
      omega
    cases hround with
    | goesOn hnext =>
      obtain ⟨hgo, hle, hpass, -⟩ := hnext
      have hbounds := hreads.bounds
      rw [Loops.run_succ_of_inl hgo] at hrun
      obtain ⟨tags, e, hwalk, hpasses⟩ := passes_of_run (by omega) (by omega) hbounds.2.1 hrun
      exact ⟨tag :: tags, e, .cons hreads hwalk, hpass tags hpasses⟩
    | accepts hfin hclosed hround =>
      subst hclosed
      exact ⟨[tag], tag.next, .cons hreads (.nil _), .fin hfin⟩
    | fails herr hround =>
      rw [Loops.run_succ_of_inr hround, Option.some.injEq, Option.some.injEq] at hrun
      omega
    | hangs hkind hclosed hexpect hpath hround =>
      rw [Loops.run_succ_of_inr hround] at hrun
      cases hrun

/-- What does not return has come to a root with such a path. -/
theorem hangs_of_run : ∀ {rounds o d : Nat} {b : Bool}, o < 2 ^ 31 → 4 * d ≤ o → o % 4 = 0 →
    Loops.run (checkRound t) rounds ⟨o, d, b⟩ = some none → d = 0 ∧ b = false ∧ ∃ lead root, Own lead ∧
      (∀ tag ∈ lead, t.Named tag) ∧ root.kind = .beginNode ∧ t.HangsAt root.off ∧
      Walk t.block o (lead ++ [root]) root.next
  | 0, _, _, _, _, _, _, hrun => by cases hrun
  | rounds + 1, o, d, b, hlt, hd, ho, hrun => by
    have hsize := ht.block_size
    rcases checkRound_cases (b := b) ht hlow hlt hd ho with ⟨tag, hreads, rfl, hround⟩ | ⟨err, -, hround⟩
    case inr =>
      rw [Loops.run_succ_of_inr hround] at hrun
      cases hrun
    cases hround with
    | goesOn hnext =>
      obtain ⟨hgo, hle, -, hown⟩ := hnext
      have hbounds := hreads.bounds
      rw [Loops.run_succ_of_inl hgo] at hrun
      obtain ⟨hd', hb', lead, root, hlead, hnamed, hkind, hhangs, hwalk⟩ :=
        hangs_of_run (by omega) (by omega) hbounds.2.1 hrun
      obtain ⟨hd, hb, htag, hname⟩ := hown hd' hb'
      exact ⟨hd, hb, tag :: lead, root, List.forall_mem_cons.2 ⟨htag, hlead⟩,
        List.forall_mem_cons.2 ⟨hname, hnamed⟩, hkind, hhangs, .cons hreads hwalk⟩
    | accepts hfin hclosed hround =>
      rw [Loops.run_succ_of_inr hround] at hrun
      cases hrun
    | fails herr hround =>
      rw [Loops.run_succ_of_inr hround] at hrun
      cases hrun
    | hangs hkind hclosed hexpect hpath hround =>
      exact ⟨hclosed, hexpect, [], tag, fun _ h => absurd h List.not_mem_nil, fun _ h => absurd h List.not_mem_nil,
        hkind, hpath, .cons hreads (.nil _)⟩

theorem hangs_returns {lead : List Tag} {root : Tag} {o : Nat} (hlead : Own lead) (hnamed : ∀ tag ∈ lead, t.Named tag)
    (hkind : root.kind = .beginNode) (hhangs : t.HangsAt root.off) (ho : o % 4 = 0)
    (hwalk : Walk t.block o (lead ++ [root]) root.next) : Returns (checkRound t) ⟨o, 0, false⟩ none := by
  induction lead generalizing o with
  | nil =>
    obtain ⟨rfl, hreads, -⟩ := Walk.cons_iff.1 hwalk
    apply Loops.returns_of_inr
    rw [checkRound_of_reads ht hreads, hkind, TagKind.tag, checkSwitch_begin _ _ (by decide), if_pos rfl]
    rcases checkRootName_cases ht hlow hreads hkind ho with ⟨hname, -⟩ | ⟨-, hr⟩ | ⟨-, hnot, -⟩
    · exact absurd hname hhangs.not_hasEmptyName
    · rw [hr]
    · exact absurd hhangs hnot
  | cons tag lead ih =>
    obtain ⟨rfl, hreads, hrest⟩ := Walk.cons_iff.1 hwalk
    have hbounds := hreads.bounds
    obtain ⟨htag, hlead⟩ := List.forall_mem_cons.1 hlead
    obtain ⟨hname, hnamed⟩ := List.forall_mem_cons.1 hnamed
    refine Loops.returns_of_inl ?_ (ih hlead hnamed hbounds.2.1 hrest)
    rw [checkRound_of_reads ht hreads]
    rcases htag with htag | htag
    · rw [htag, TagKind.tag, checkSwitch_prop]
      rcases fdtGetpropByOffset_cases ht hreads htag ho with ⟨-, r, hr⟩ | ⟨hnot, -⟩
      · rw [hr]
      · exact absurd hname hnot
    · rw [htag]
      exact checkSwitch_nop _ _

/-- The rounds are enough. -/
theorem check_run {r : Option Int} (h : Returns (checkRound t) ⟨0, 0, false⟩ r) :
    Loops.run (checkRound t) maxRounds ⟨0, 0, false⟩ = some r := by
  have hsize := ht.block_size
  refine Loops.run_eq_of_returns
    (I := fun s => ∃ o : Nat, s.nextoffset = (o : Int) ∧ o < 2 ^ 31 ∧ 4 * s.depth ≤ o ∧ o % 4 = 0)
    (fun s => (2 ^ 31 - s.nextoffset).toNat) ?_ ⟨0, rfl, by decide, Nat.le_refl 0, rfl⟩ (by decide) h
  rintro ⟨_, d, b⟩ ⟨o, rfl, hlt, hd, ho⟩
  rcases checkRound_cases (b := b) ht hlow hlt hd ho with ⟨tag, hreads, rfl, hround⟩ | ⟨err, -, hround⟩
  case inr => exact Or.inl ⟨_, hround⟩
  cases hround with
  | goesOn hnext =>
    obtain ⟨hgo, hle, -⟩ := hnext
    have hbounds := hreads.bounds
    refine Or.inr ⟨_, hgo, ⟨tag.next, rfl, by omega, ?_, hbounds.2.1⟩, ?_⟩
    · dsimp only at hd hle ⊢
      omega
    · dsimp only
      omega
  | accepts hfin hclosed hround => exact Or.inl ⟨_, hround⟩
  | fails herr hround => exact Or.inl ⟨_, hround⟩
  | hangs hkind hclosed hexpect hpath hround => exact Or.inl ⟨_, hround⟩

end

end RiscvOs
