import RiscvOs.FormatMeaning
/-!
# The `printf` family (`klibc/printf.c`)

All its members run `_vsnprintf` and differ in the output function.  They return the same count; `printf_` and
`fctprintf` never pass on a `NUL`, and `snprintf_` and `sprintf_` fill the buffer with what fits and end it with one.
These two read the format and the strings from the memory they write.
-/
namespace RiscvOs

open CString (prepend)

/-- Where a local array or structure lies is only compared with `NULL`. -/
def localAddress : Nat := 8

def PrintfReturns (mem : Bytes) (format : CString) (va : VaList) (console : List (BitVec 8))
    (r : Int × List (BitVec 8)) : Prop :=
  VsnprintfReturns (.fixed mem) ⟨outChar, localAddress, 2 ^ 32 - 1⟩ format va console r

def FctprintfReturns {σ : Type} (mem : Bytes) (out : BitVec 8 → σ → σ) (format : CString) (va : VaList) (s : σ)
    (r : Int × σ) : Prop :=
  VsnprintfReturns (.fixed mem) ⟨outFct out, localAddress, 2 ^ 32 - 1⟩ format va s r

def SnprintfReturns (mem : Bytes) (buffer count format : Nat) (va : VaList) (r : Int × Bytes) : Prop :=
  VsnprintfReturns .memory ⟨outBuffer, buffer, count⟩ format va mem r

def SprintfReturns (mem : Bytes) (buffer format : Nat) (va : VaList) (r : Int × Bytes) : Prop :=
  SnprintfReturns mem buffer (2 ^ 32 - 1) format va r

section

variable {σ : Type}

theorem toInt32_congr {x y : Nat} (h : wrap32 x = wrap32 y) : toInt32 x = toInt32 y := by
  unfold toInt32
  unfold wrap32 at h
  rw [h]

/-- The count is the number of characters, whatever takes them. -/
theorem toInt32_puts_idx (o : Output σ) (cs : List (BitVec 8)) (s : σ) :
    toInt32 (o.puts cs ⟨0, s⟩).idx = toInt32 cs.length := by
  apply toInt32_congr
  rw [o.wrap32_puts_idx, Nat.zero_add]

/-- `out` is called on the characters that are not `NUL`, in order. -/
theorem puts_outFct (out : BitVec 8 → σ → σ) (buffer maxlen : Nat) : ∀ (cs : List (BitVec 8)) (w : Written σ),
    ((Output.mk (outFct out) buffer maxlen).puts cs w).state =
      (cs.filter (· ≠ 0)).foldl (fun s c => out c s) w.state
  | [], _      => rfl
  | c :: cs, w => by
    have hput : ((Output.mk (outFct out) buffer maxlen).put c w).state = if c ≠ 0 then out c w.state else w.state := rfl
    rw [Output.puts, puts_outFct out buffer maxlen cs, hput]
    by_cases hc : c = 0
    · rw [if_neg (not_not.2 hc), List.filter_cons_of_neg (by simpa using hc)]
    · rw [if_pos hc, List.filter_cons_of_pos (by simpa using hc), List.foldl_cons]

theorem forBuffer_of_ne {o : Output σ} (h : o.buffer ≠ 0) : o.forBuffer = o := if_neg h

end

section

variable (mem : Bytes) (hzero : ∃ a < 2 ^ 32, mem a = 0) (ps : List Piece) (hps : ∀ p ∈ ps, p.Proper) (rest : CString)
  (va : VaList)

include hzero hps

/-- **`fctprintf` and `printf_` pass every character on, in order, but no `NUL`**, and return the number of all. -/
theorem fctprintf_passes_on {σ : Type} (out : BitVec 8 → σ → σ) (s : σ) :
    FctprintfReturns mem out (prepend (spellAll ps) (CString.cons 0 rest)) va s
        (toInt32 (render mem ps va).length, ((render mem ps va).filter (· ≠ 0)).foldl (fun s c => out c s) s) ∧
      ∀ console, PrintfReturns mem (prepend (spellAll ps) (CString.cons 0 rest)) va console
        (toInt32 (render mem ps va).length, console ++ (render mem ps va).filter (· ≠ 0)) := by
  constructor
  · have hrun := vsnprintf_renders mem hzero ⟨outFct out, localAddress, 2 ^ 32 - 1⟩ ps hps rest va s
    rw [forBuffer_of_ne (show localAddress ≠ 0 by decide), Output.terminate, toInt32_puts_idx, puts_outFct] at hrun
    exact hrun
  · intro console
    have hrun := vsnprintf_renders mem hzero ⟨outChar, localAddress, 2 ^ 32 - 1⟩ ps hps rest va console
    rw [forBuffer_of_ne (show localAddress ≠ 0 by decide), Output.terminate, toInt32_puts_idx, puts_outChar] at hrun
    exact hrun

end

theorem fctprintf_passes_on_numberFormat :
    FctprintfReturns zeroMemory (fun _ n => n + 1) (prepend (spellAll numberFormat) (CString.cons 0 fun _ => 1))
        (fun _ => 42) 0 (4, 4) ∧
      ∀ console, PrintfReturns zeroMemory (prepend (spellAll numberFormat) (CString.cons 0 fun _ => 1)) (fun _ => 42)
        console (4, console ++ "n 42".toList.map ch) :=
  fctprintf_passes_on zeroMemory zeroMemory_nul numberFormat numberFormat_proper _ _ (fun _ n => n + 1) 0

/-- Memory with a text in a buffer of `count` bytes: as much of it as fits before a `NUL`. -/
def bufferFilled (mem : Bytes) (buffer count : Nat) (text : List (BitVec 8)) : Bytes := fun a =>
  if buffer ≤ a ∧ a < buffer + min count (text.length + 1) then (text.take (count - 1) ++ [0]).getD (a - buffer) 0
  else mem a

/-- Writing a text from the start of a buffer, and then the `NUL`. -/
theorem terminate_puts_outBuffer {mem : Bytes} {buffer count : Nat} (hsize : count < 2 ^ 32)
    {text : List (BitVec 8)} (hend : buffer + min count (text.length + 1) ≤ 2 ^ 32) (hlen : text.length < 2 ^ 32) :
    (Output.mk outBuffer buffer count).terminate ((Output.mk outBuffer buffer count).puts text ⟨0, mem⟩) =
      (toInt32 text.length, bufferFilled mem buffer count text) := by
  have hidx : ((Output.mk outBuffer buffer count).puts text ⟨0, mem⟩).idx = text.length := by
    rw [Output.puts_idx _ (by rw [Nat.zero_add]; exact hlen), Nat.zero_add]
  have hstate := fun a => puts_outBuffer buffer count text ⟨0, mem⟩ a
    (by rw [Nat.zero_add]; exact hlen) (by rw [Nat.zero_add]; omega)
  simp only [Nat.add_zero, Nat.zero_add] at hstate
  rw [Output.terminate, hidx]
  refine Prod.ext rfl ?_
  dsimp only
  generalize hnul : (if text.length < count then text.length else sub32 count 1) = nul
  generalize ((Output.mk outBuffer buffer count).puts text ⟨0, mem⟩).state = m at hstate
  funext a
  unfold outBuffer bufferFilled
  by_cases hcount : count = 0
  · have hbig : ¬ nul < count := by omega
    rw [if_neg hbig, hstate, if_neg (by omega), if_neg (by omega)]
  · have hlast : sub32 count 1 = count - 1 := sub32_of_le (by omega) (by omega)
    have hnul' : nul = min text.length (count - 1) := by
      rw [← hnul, hlast]
      split <;> omega
    have hput : wrap32 (buffer + nul) = buffer + nul := wrap32_of_lt (by omega)
    have htake : (text.take (count - 1)).length = nul := by
      rw [List.length_take, hnul', Nat.min_comm]
    rw [if_pos (by omega), hput, Function.update_apply, hstate]
    by_cases hhere : a = buffer + nul
    · rw [if_pos hhere, if_pos (by omega), hhere, Nat.add_sub_cancel_left, List.getD_append_right _ _ _ _ (by omega),
        htake, Nat.sub_self]
      rfl
    · rw [if_neg hhere]
      by_cases hbefore : buffer ≤ a ∧ a < buffer + nul
      · rw [if_pos (by omega), if_pos (by omega), List.getD_append _ _ _ _ (by omega), List.getD_eq_getElem?_getD,
          List.getD_eq_getElem?_getD, List.getElem?_take_of_lt (by omega)]
      · rw [if_neg (by omega), if_neg (by omega)]

/-! ## What is read while the buffer fills -/

/-- No byte of the format, of the strings that it prints or of their terminators is in `S`. -/
structure ApartFrom (S : Set Nat) (mem : Bytes) (ps : List Piece) (va : VaList) (format : Nat) : Prop where
  format : ∀ i ≤ (spellAll ps).length, wrap32 (format + i) ∉ S
  strings : ∀ x ∈ stringsOf mem ps va, ∀ i ≤ x.2, wrap32 (x.1.toNat + i) ∉ S

section

variable {mem m : Bytes} {ps : List Piece} {va : VaList} {format : Nat}

theorem memory_reads_congr {p : Nat} {cs : List (BitVec 8)} (hreads : Strings.memory.Reads mem p cs)
    (hsame : ∀ i < cs.length, m (wrap32 (p + i)) = mem (wrap32 (p + i))) : Strings.memory.Reads m p cs := by
  rw [Strings.reads_iff] at *
  intro i hi
  exact (hsame i hi).trans (hreads i hi)

/-- The format ends in a `NUL`, so memory has one. -/
theorem exists_nul_of_reads {cs : List (BitVec 8)} (h : Strings.memory.Reads mem format (cs ++ [0])) :
    ∃ a < 2 ^ 32, mem a = 0 := by
  have hnul := Strings.reads_iff.1 h cs.length (by simp)
  rw [List.getElem_concat_length rfl] at hnul
  exact ⟨_, wrap32_lt _, hnul⟩

/-- Where nothing that is read has changed, the format and its strings are what they were. -/
theorem ApartFrom.reads {S : Set Nat} (h : ApartFrom S mem ps va format)
    (hformat : Strings.memory.Reads mem format (spellAll ps ++ [0])) (hsame : ∀ a, a ∉ S → m a = mem a) :
    Strings.memory.ReadsPieces mem ps va format m ∧
      Strings.memory.chars m (Strings.memory.skip (spellAll ps) format) 0 = 0 := by
  have hreads : Strings.memory.Reads m format (spellAll ps ++ [0]) := by
    refine memory_reads_congr hformat fun i hi => hsame _ (h.format i ?_)
    rw [List.length_append, List.length_singleton] at hi
    exact Nat.le_of_lt_succ hi
  obtain ⟨hpieces, hnul, -⟩ := Strings.reads_append_iff.1 hreads
  exact ⟨⟨hpieces, fun x hx i hi => hsame _ (h.strings x hx i hi)⟩, hnul⟩

/-- A part of the text changes no byte outside the room for all of it. -/
theorem puts_outBuffer_of_notMem {buffer count : Nat} {pre text : List (BitVec 8)} (hpre : pre <+: text)
    (hend : buffer + min count (text.length + 1) ≤ 2 ^ 32) (hlen : text.length < 2 ^ 32) {a : Nat}
    (ha : a ∉ Set.Ico buffer (buffer + min count (text.length + 1))) :
    ((Output.mk outBuffer buffer count).puts pre ⟨0, mem⟩).state a = mem a := by
  have hle := hpre.length_le
  have hstate := puts_outBuffer buffer count pre ⟨0, mem⟩ a
  simp only [Nat.add_zero, Nat.zero_add] at hstate
  rw [Set.mem_Ico] at ha
  rw [hstate (by omega) (by omega), if_neg (by omega)]

/-- With a buffer, the text goes there. -/
theorem outBuffer_returns (hps : ∀ p ∈ ps, p.Proper) (va : VaList)
    (buffer count : Nat) (hformat : Strings.memory.Reads mem format (spellAll ps ++ [0])) (hbuffer : buffer ≠ 0)
    (hsize : count < 2 ^ 32)
    (hlen : (render mem ps va).length < 2 ^ 32)
    (hend : buffer + min count ((render mem ps va).length + 1) ≤ 2 ^ 32)
    (hapart : ApartFrom (Set.Ico buffer (buffer + min count ((render mem ps va).length + 1))) mem ps va format) :
    SnprintfReturns mem buffer count format va
      (toInt32 (render mem ps va).length, bufferFilled mem buffer count (render mem ps va)) := by
  have hfor : (Output.mk outBuffer buffer count).forBuffer = ⟨outBuffer, buffer, count⟩ := forBuffer_of_ne hbuffer
  have hreads := fun pre (hpre : pre <+: render mem ps va) =>
    hapart.reads (m := ((Output.mk outBuffer buffer count).puts pre ⟨0, mem⟩).state) hformat fun a ha =>
      puts_outBuffer_of_notMem hpre hend hlen ha
  have hrun := vsnprintf_returns (R := Strings.memory) ⟨outBuffer, buffer, count⟩ (exists_nul_of_reads hformat) hps va
    mem (fun pre hpre => by rw [hfor]; exact (hreads pre hpre).1)
    (by rw [hfor]; exact (hreads _ List.prefix_rfl).2)
  rwa [hfor, terminate_puts_outBuffer hsize hend hlen] at hrun

end

/-- **`snprintf_` fills its buffer and nothing else**, and returns the length of the whole text; without a buffer it
only counts.  What it reads may not lie where it writes. -/
theorem snprintf_fills (mem : Bytes) (ps : List Piece) (hps : ∀ p ∈ ps, p.Proper) (va : VaList)
    (buffer count format : Nat) (hformat : Strings.memory.Reads mem format (spellAll ps ++ [0]))
    (hsize : count < 2 ^ 32) (hlen : (render mem ps va).length < 2 ^ 32)
    (hend : buffer ≠ 0 → buffer + min count ((render mem ps va).length + 1) ≤ 2 ^ 32)
    (hapart : buffer ≠ 0 →
      ApartFrom (Set.Ico buffer (buffer + min count ((render mem ps va).length + 1))) mem ps va format) :
    SnprintfReturns mem buffer count format va
      (toInt32 (render mem ps va).length,
        if buffer = 0 then mem else bufferFilled mem buffer count (render mem ps va)) := by
  by_cases hnull : buffer = 0
  · have hfor : (Output.mk outBuffer buffer count).forBuffer = ⟨outNull, buffer, count⟩ := if_pos hnull
    have hread : ∀ cs, ((Output.mk outNull buffer count).puts cs ⟨0, mem⟩).state = mem := fun cs =>
      puts_outNull buffer count cs ⟨0, mem⟩
    obtain ⟨hpieces, hnul, -⟩ := Strings.reads_append_iff.1 hformat
    have hrun := vsnprintf_returns (R := Strings.memory) ⟨outBuffer, buffer, count⟩ (exists_nul_of_reads hformat) hps va
      mem (fun pre _ => by rw [hfor, hread]; exact ⟨hpieces, fun _ _ _ _ => rfl⟩) (by rw [hfor, hread]; exact hnul)
    rw [hfor, Output.terminate, toInt32_puts_idx, hread] at hrun
    rw [if_pos hnull]
    exact hrun
  · rw [if_neg hnull]
    exact outBuffer_returns hps va buffer count hformat hnull hsize hlen (hend hnull) (hapart hnull)

/-- `"x%s"`. -/
def stringFormat : List Piece := [.text (ch 'x'), .directive { specifier := ch 's' }]

/-- `"x%s"` at `0x2000`, and `"ab"` at `0x3000`. -/
def stringMemory : Bytes := fun a =>
  if 0x2000 ≤ a ∧ a < 0x2003 then ("x%s".toList.map ch).getD (a - 0x2000) 0
  else if 0x3000 ≤ a ∧ a < 0x3002 then ("ab".toList.map ch).getD (a - 0x3000) 0
  else 0

theorem stringFormat_proper : ∀ p ∈ stringFormat, p.Proper := by
  have htext : (Piece.text (ch 'x')).Proper := ⟨by decide, by decide⟩
  have hdirective : Directive.Proper { specifier := ch 's' } :=
    ⟨by decide, ⟨by decide, by decide⟩, by unfold Precision.EndsBefore; decide, by unfold Length.EndsBefore; decide⟩
  intro p hp
  cases List.mem_cons.1 hp with
  | inl h => exact h ▸ htext
  | inr h => exact List.mem_singleton.1 h ▸ ⟨hdirective, by decide⟩

/-- `"xab"` in three bytes. -/
theorem snprintf_fills_threeBytes :
    SnprintfReturns stringMemory 0x1000 3 0x2000 (fun _ => 0x3000)
      (3, bufferFilled stringMemory 0x1000 3 ("xab".toList.map ch)) :=
  snprintf_fills stringMemory stringFormat stringFormat_proper (fun _ => 0x3000) 0x1000 3 0x2000
    ⟨rfl, rfl, rfl, rfl, trivial⟩ (by decide) (by decide) (fun _ => by decide) fun _ => ⟨by decide, by decide⟩

/-- `snprintf_(buf, 10, "x%s", buf)` with `"ab"` in the buffer reads what it has written: 11 characters. -/
example :
    let mem : Bytes := Function.update (Function.update stringMemory 0x1000 (ch 'a')) 0x1001 (ch 'b')
    (Loops.run (vsnprintfRound .memory ⟨outBuffer, 0x1000, 10⟩) 40 ⟨.text, 0x2000, fun _ => 0x1000, ⟨0, mem⟩⟩).map
      Prod.fst = some 11 := by decide +kernel

/-- **`sprintf_` writes the text and a `NUL`**, and nothing else. -/
theorem sprintf_writes (mem : Bytes) (ps : List Piece) (hps : ∀ p ∈ ps, p.Proper) (va : VaList)
    (buffer format : Nat) (hformat : Strings.memory.Reads mem format (spellAll ps ++ [0]))
    (hbuffer : buffer ≠ 0) (hend : buffer + (render mem ps va).length < 2 ^ 32)
    (hapart : ApartFrom (Set.Ico buffer (buffer + ((render mem ps va).length + 1))) mem ps va format) :
    SprintfReturns mem buffer format va (toInt32 (render mem ps va).length, fun a =>
      if buffer ≤ a ∧ a < buffer + ((render mem ps va).length + 1) then (render mem ps va ++ [0]).getD (a - buffer) 0
      else mem a) := by
  have hroom : min (2 ^ 32 - 1) ((render mem ps va).length + 1) = (render mem ps va).length + 1 := by omega
  have hrun := outBuffer_returns hps va buffer (2 ^ 32 - 1) hformat hbuffer (by decide) (by omega) (by omega)
    (by rw [hroom]; exact hapart)
  have hfilled : bufferFilled mem buffer (2 ^ 32 - 1) (render mem ps va) = fun a =>
      if buffer ≤ a ∧ a < buffer + ((render mem ps va).length + 1) then (render mem ps va ++ [0]).getD (a - buffer) 0
      else mem a := by
    unfold bufferFilled
    rw [hroom, List.take_of_length_le (by omega)]
  rwa [hfilled] at hrun

/-- `"xab"`, with its `NUL`. -/
theorem sprintf_writes_fourBytes :
    SprintfReturns stringMemory 0x1000 0x2000 (fun _ => 0x3000) (3, fun a =>
      if 0x1000 ≤ a ∧ a < 0x1000 + (3 + 1) then ("xab".toList.map ch ++ [0]).getD (a - 0x1000) 0
      else stringMemory a) :=
  sprintf_writes stringMemory stringFormat stringFormat_proper (fun _ => 0x3000) 0x1000 0x2000
    ⟨rfl, rfl, rfl, rfl, trivial⟩ (by decide) (by decide) ⟨by decide, by decide⟩

end RiscvOs
