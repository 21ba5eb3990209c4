import RiscvOs.FdtProperties
/-!
# Names of nodes (`libfdt/fdt_ro.c`)

The name of a node stands behind its `FDT_BEGIN_NODE`.  Before version 16 it is the path of the node, and
`fdt_get_name` looks for the last part with `strrchr`, which gets no further than the first character: it returns for
the paths that are empty or begin with a slash, and hangs at every other (`fdtGetName_node`).
-/
namespace RiscvOs

open Loops (Returns Diverges)

/-- `strrchr`; `none` does not return. -/
def strrchr (m : Bytes) (s : Nat) (ch : Int) : Option (Option Nat) := Loops.run (strrchrRound m ch) maxRounds s

/-- `fdt_get_name`: the name and `*len`, or `NULL` and `*len`; `none` does not return. -/
def fdtGetName (t : Fdt) (nodeoffset : Int) : Option (Except Int (Nat × Int)) :=
  let nameptr := wrap32 (fdtOffsetPtrOf t nodeoffset + 4)
  if fdtRoProbe t < 0 then some (.error (fdtRoProbe t))
  else if fdtCheckNodeOffset t nodeoffset < 0 then some (.error (fdtCheckNodeOffset t nodeoffset))
  else if t.version < 0x10 then
    match strrchr t.mem nameptr 0x2f with
    | none             => none
    | some none        => some (.error fdtErrBadstructure)
    | some (some leaf) => some (.ok (wrap32 (leaf + 1), toInt32 (strlenOf t.mem (wrap32 (leaf + 1)))))
  else some (.ok (nameptr, toInt32 (strlenOf t.mem nameptr)))

/-! ## Strings in memory -/

section

variable {m : Bytes} {s e : Nat}

theorem strlenOf_eq (he : EndsAt m s e) (hlt : e < 2 ^ 32 - 4) : strlenOf m s = e - s := by
  have hrun : ∃ r, strlen m s maxRounds = some r ∧ StrlenResult s e r := by
    unfold strlen
    rcases strlenEntry_spec he hlt with ⟨r, hr, hres⟩ | ⟨c, hc, hat⟩
    · rw [hr]
      exact ⟨r, rfl, hres⟩
    · rw [hc]
      obtain ⟨r, hr, hres⟩ := Loops.returns_of_variant (I := StrlenAt s e) (fun c => e - c.ptr)
        (fun c hc => hc.round he (by omega)) c hat
      refine ⟨r, ?_, hres⟩
      refine Loops.run_eq_of_returns (I := StrlenAt s e) (fun c => e - c.ptr) (fun c hc => ?_) hat ?_ hr
      · rcases hc.round he (by omega) with ⟨r, hr, -⟩ | hnext
        · exact Or.inl ⟨r, hr⟩
        · exact Or.inr hnext
      · unfold maxRounds
        omega
  obtain ⟨r, hr, hlen, -⟩ := hrun
  rw [strlenOf, hr, ← hlen]
  rfl

theorem strrchr_first {ch : Int} (h0 : m s ≠ 0) (hch : ((m s).toNat : Int) = ch) : strrchr m s ch = some (some s) := by
  unfold strrchr maxRounds
  apply Loops.run_succ_of_inr
  rw [strrchrRound, if_pos h0, if_pos hch]

theorem strrchr_empty {ch : Int} (h0 : m s = 0) : strrchr m s ch = some none := by
  unfold strrchr maxRounds
  apply Loops.run_succ_of_inr
  rw [strrchrRound, if_neg (not_not.2 h0)]

end

/-! ## The name of a node -/

/-- The name behind the `FDT_BEGIN_NODE` at `o`. -/
def Block.name (k : Block) (o : Nat) : CString := fun i => k.bytes (o + 4 + i)

/-- Where it is in memory. -/
def Fdt.namePtr (t : Fdt) (o : Nat) : Nat := wrap32 (t.ptr + (t.offDtStruct + (o + 4)))

/-- The tree lies below the last word of the address space. -/
def Fdt.Low (t : Fdt) : Prop := t.ptr + t.totalsize ≤ 2 ^ 32 - 4

section

variable {t : Fdt} {n : Tag} {l : Nat}

theorem Block.Reads.exists_name {k : Block} (h : k.Reads n) (hkind : n.kind = .beginNode) :
    ∃ l, (k.name n.off).HasLength l ∧ n.off + 4 + l < k.size := by
  obtain ⟨e, hin, he, -⟩ := h.ends
  rw [hkind] at he
  obtain ⟨l, hl, rfl⟩ := he
  exact ⟨l, hl, hin⟩

theorem Fdt.block_size_le (t : Fdt) : t.block.size ≤ t.totalsize - t.offDtStruct := by
  unfold Fdt.block
  dsimp only
  split
  · exact Nat.min_le_left _ _
  · exact Nat.le_refl _

/-- A path that is not empty and does not begin with a slash is never left. -/
theorem strrchr_path_diverges {o : Nat} (h0 : t.block.name o 0 ≠ 0) (hslash : t.block.name o 0 ≠ 0x2f) :
    Diverges (strrchrRound t.mem 0x2f) (t.namePtr o) := by
  have hmem : t.mem (t.namePtr o) = t.block.name o 0 := mem_block (o + 4)
  have hchar : ((t.mem (t.namePtr o)).toNat : Int) ≠ 0x2f := by
    rw [hmem]
    intro hchar
    exact hslash (BitVec.eq_of_toNat_eq (Int.ofNat.inj hchar))
  exact strrchr_diverges (hmem ▸ h0) hchar

variable (ht : Probed t) (hlow : t.Low)

include ht hlow

omit ht in
/-- A name in the block is one in memory, and so is what is left of it from any character on. -/
theorem endsAt_name (hl : (t.block.name n.off).HasLength l) (hin : n.off + 4 + l < t.block.size) {j : Nat}
    (hj : j ≤ l) : wrap32 (t.namePtr n.off + j) + (l - j) < 2 ^ 32 - 4 ∧
      EndsAt t.mem (wrap32 (t.namePtr n.off + j)) (wrap32 (t.namePtr n.off + j) + (l - j)) := by
  have hsize := t.block_size_le
  unfold Fdt.Low at hlow
  have hptr : ∀ i ≤ l, wrap32 (t.namePtr n.off + i) = t.ptr + (t.offDtStruct + (n.off + 4 + i)) := by
    intro i hi
    unfold Fdt.namePtr wrap32
    omega
  have hbyte : ∀ i ≤ l, t.mem (t.ptr + (t.offDtStruct + (n.off + 4 + i))) = t.block.name n.off i := by
    intro i hi
    have hmem := mem_block (t := t) (n.off + 4 + i)
    rwa [wrap32_of_lt (by omega)] at hmem
  rw [hptr j hj]
  refine ⟨by omega, ⟨by omega, ?_⟩, ?_⟩
  · have hnul := hbyte l (Nat.le_refl l)
    rw [show t.ptr + (t.offDtStruct + (n.off + 4 + j)) + (l - j) = t.ptr + (t.offDtStruct + (n.off + 4 + l)) by omega,
      hnul]
    exact hl.1
  · rintro p ⟨hp, h0⟩
    by_contra hlt
    obtain ⟨i, rfl⟩ : ∃ i, p = t.ptr + (t.offDtStruct + (n.off + 4 + i)) :=
      ⟨p - (t.ptr + (t.offDtStruct + (n.off + 4))), by omega⟩
    have hle := hl.2 (show t.block.name n.off i = 0 from hbyte i (by omega) ▸ h0)
    omega

/-- **`fdt_get_name` returns the name of a node**, from version 16 on; before that it returns what is behind the first
character of its path, if that is a slash. -/
theorem fdtGetName_eq (hn : t.block.Reads n) (hkind : n.kind = .beginNode) (haligned : n.off % 4 = 0)
    (hl : (t.block.name n.off).HasLength l) (hin : n.off + 4 + l < t.block.size) :
    fdtGetName t n.off =
      if 0x10 ≤ t.version then some (.ok (t.namePtr n.off, (l : Int)))
      else if t.block.name n.off 0 = 0 then some (.error fdtErrBadstructure)
      else if t.block.name n.off 0 = 0x2f then some (.ok (wrap32 (t.namePtr n.off + 1), (l : Int) - 1))
      else none := by
  have hsize := ht.block_size
  have hbounds := hn.bounds
  have hptr : wrap32 (fdtOffsetPtrOf t n.off + 4) = t.namePtr n.off := fdtOffsetPtrOf_add (by omega) 4
  have hmem : t.mem (t.namePtr n.off) = t.block.name n.off 0 := mem_block (n.off + 4)
  have hlen : ∀ j ≤ l, strlenOf t.mem (wrap32 (t.namePtr n.off + j)) = l - j := by
    intro j hj
    obtain ⟨hlt, hends⟩ := endsAt_name hlow hl hin hj
    rw [strlenOf_eq hends hlt, Nat.add_sub_cancel_left]
  unfold fdtGetName
  rw [hptr, if_neg (Int.not_lt.2 ht.roProbe_nonneg), fdtCheckNodeOffset_of_reads hsize hn hkind haligned]
  rw [if_neg (Int.not_lt.2 (Int.natCast_nonneg _))]
  by_cases hversion : 0x10 ≤ t.version
  · have hfull := hlen 0 (Nat.zero_le l)
    rw [Nat.add_zero, wrap32_of_lt (show t.namePtr n.off < 2 ^ 32 from wrap32_lt _), Nat.sub_zero] at hfull
    rw [if_pos hversion, if_neg (Nat.not_lt.2 hversion), hfull, toInt32_of_lt (by omega)]
  · rw [if_neg hversion, if_pos (Nat.not_le.1 hversion)]
    by_cases h0 : t.block.name n.off 0 = 0
    · rw [if_pos h0, strrchr_empty (hmem.trans h0)]
    rw [if_neg h0]
    have hpos : 1 ≤ l := by
      rcases Nat.eq_zero_or_pos l with rfl | hpos
      · exact absurd hl.1 h0
      · exact hpos
    by_cases hslash : t.block.name n.off 0 = 0x2f
    · have hchar : ((t.mem (t.namePtr n.off)).toNat : Int) = 0x2f := by rw [hmem, hslash]; rfl
      rw [if_pos hslash, strrchr_first (hmem ▸ h0) hchar]
      dsimp only
      rw [hlen 1 hpos, toInt32_of_lt (by omega), Int.ofNat_sub hpos]
      rfl
    · rw [if_neg hslash, strrchr, strrchr_path_diverges h0 hslash maxRounds]

/-- **`fdt_get_name` at any node**: its name and the length of it from version 16 on; before that the path behind its
slash, an error where it is empty, and no return where it begins with anything else: the loop of `strrchr` does not
end. -/
theorem fdtGetName_node (hn : t.block.Reads n) (hkind : n.kind = .beginNode) (haligned : n.off % 4 = 0) :
    (∃ l, (t.block.name n.off).HasLength l ∧ n.off + 4 + l < t.block.size ∧ fdtGetName t n.off =
      if 0x10 ≤ t.version then some (.ok (t.namePtr n.off, (l : Int)))
      else if t.block.name n.off 0 = 0 then some (.error fdtErrBadstructure)
      else if t.block.name n.off 0 = 0x2f then some (.ok (wrap32 (t.namePtr n.off + 1), (l : Int) - 1))
      else none) ∧
    (fdtGetName t n.off = none → Diverges (strrchrRound t.mem 0x2f) (t.namePtr n.off)) := by
  obtain ⟨l, hl, hin⟩ := hn.exists_name hkind
  have hname := fdtGetName_eq ht hlow hn hkind haligned hl hin
  refine ⟨⟨l, hl, hin, hname⟩, fun hnone => ?_⟩
  rw [hname] at hnone
  split_ifs at hnone with hversion h0 hslash
  exact strrchr_path_diverges h0 hslash

end

theorem smallTree_low : smallTree.Low := by
  unfold Fdt.Low
  decide

theorem fdtGetName_node_smallTree :
    (∃ l, (smallTree.block.name 8).HasLength l ∧ 8 + 4 + l < smallTree.block.size ∧ fdtGetName smallTree (8 : Nat) =
      if 0x10 ≤ smallTree.version then some (.ok (smallTree.namePtr 8, (l : Int)))
      else if smallTree.block.name 8 0 = 0 then some (.error fdtErrBadstructure)
      else if smallTree.block.name 8 0 = 0x2f then some (.ok (wrap32 (smallTree.namePtr 8 + 1), (l : Int) - 1))
      else none) ∧
    (fdtGetName smallTree (8 : Nat) = none → Diverges (strrchrRound smallTree.mem 0x2f) (smallTree.namePtr 8)) := by
  have hname := fdtGetName_node smallTree_probed smallTree_low smallTree_node rfl rfl
  dsimp only at hname
  exact hname

end RiscvOs
