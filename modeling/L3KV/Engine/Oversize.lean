import L3KV.Engine.Register

/-!
# Values of four gigabytes

The size a compressed blob remembers has 32 bits. Once a dictionary is there, a value of `2 ^ 32`
bytes is compressed like any other, but its size is remembered as zero and the decompressor is given
no room: what `get` returns is the compressed frame. A run-length compressor stands for zstd here.
-/

namespace L3KV

open Framework

/-- A compressor of runs of one byte. As with zstd, training needs seven samples of less than
`2 ^ 32 - 1` bytes in all, a frame starts with the first byte of the magic number, and
decompression fails if the buffer is too small. -/
def Zstd.runLength : Zstd where
  trainFromBuffer samples _ :=
    if 7 ≤ samples.length ∧ (samples.map List.length).sum < 2 ^ 32 - 1 then some [1] else none
  compressUsingCDict _ src :=
    if src = List.replicate src.length 7 ∧ src.length < 256 ^ 8 then
      some (0x28 :: leBytes 8 src.length)
    else none
  decompressUsingDDict _ dst capacity :=
    if leValue dst.tail ≤ capacity then some (List.replicate (leValue dst.tail) 7) else none

private theorem Zstd.runLength_lossless : Zstd.runLength.Lossless := by
  intro dict src dst h
  simp only [Zstd.runLength, Option.ite_none_right_eq_some] at h
  obtain ⟨⟨hrun, hlen⟩, hdst⟩ := h
  cases hdst
  simp only [Zstd.runLength, List.tail_cons, leValue_leBytes hlen, le_refl, if_true]
  rw [← hrun]

def External.runLength (xxh3 : Bytes → UInt64) : External :=
  { External.reference xxh3 with zstd := Zstd.runLength }

theorem External.runLength_lawful (xxh3 : Bytes → UInt64) : (External.runLength xxh3).Lawful :=
  ⟨Lite3.reference_lawful, Zstd.runLength_lossless, Lite3.reference_smallMeta⟩

@[irreducible] def runOf (n : Nat) : Bytes := List.replicate n 7

def frameOf (n : Nat) : Bytes := 0x28 :: leBytes 8 n

theorem runOf_length (n : Nat) : (runOf n).length = n := by
  unfold runOf
  exact List.length_replicate

theorem runOf_ne_frameOf {n : Nat} (hn : 2 ^ 32 ≤ n) (k : Nat) : runOf n ≠ frameOf k := by
  intro h
  have hlen := congrArg List.length h
  rw [runOf_length] at hlen
  simp only [frameOf, List.length_cons, leBytes_length] at hlen
  omega

private theorem runOf_cons {n : Nat} (hn : 0 < n) : ∃ rest, runOf n = 7 :: rest := by
  obtain ⟨k, rfl⟩ := Nat.exists_eq_succ_of_ne_zero (by omega : n ≠ 0)
  unfold runOf
  exact ⟨List.replicate k 7, List.replicate_succ⟩

theorem storedForm_runOf (l : Lite3) {n : Nat} (hn : 0 < n) : storedForm l (runOf n) = runOf n := by
  obtain ⟨rest, hrest⟩ := runOf_cons hn
  have hjson : isJsonPayload (runOf n) = false := by
    rw [hrest]
    simp [isJsonPayload]
  simp [storedForm, hjson]

section

variable {n : Nat} {m : ZstdManager}

/-- What is left for the seventh sample to bring: nothing is trained yet, and the samples are
small. -/
def ZstdManager.AlmostTrained (m : ZstdManager) : Prop :=
  m.active = false ∧ 6 ≤ m.samples.length ∧ (m.samples.map List.length).sum < 2 ^ 31

instance (m : ZstdManager) : Decidable m.AlmostTrained := inferInstanceAs (Decidable (_ ∧ _ ∧ _))

/-- The dictionary of the run-length compressor is there. -/
def ZstdManager.Trained (m : ZstdManager) : Prop := m.active = true ∧ m.dict = some [1]

private theorem addSample_runOf (hn : 100 * 1024 ≤ n) (hmax : n < 2 ^ 31) (hm : m.AlmostTrained) :
    (m.addSample Zstd.runLength (runOf n)).Trained := by
  obtain ⟨hactive, hsamples, hsum⟩ := hm
  have hlong : 100 * 1024 ≤ m.samplesBytes + (runOf n).length := by
    rw [runOf_length]
    omega
  have hready : 7 ≤ (m.samples ++ [runOf n]).length ∧
      ((m.samples ++ [runOf n]).map List.length).sum < 2 ^ 32 - 1 := by
    rw [List.length_append, List.length_singleton, List.map_append, List.sum_append]
    simp only [List.map_cons, List.map_nil, List.sum_cons, List.sum_nil, runOf_length]
    omega
  have hne : (m.samples ++ [runOf n]).isEmpty = false := by simp
  simp only [ZstdManager.Trained, ZstdManager.addSample, hactive, Bool.false_eq_true, if_false, hlong,
    or_true, if_true, ZstdManager.trainDictionary, hne, Zstd.runLength, if_pos hready, and_self]

private theorem compress_runOf (hn : 100 * 1024 ≤ n) (hmax : n < 256 ^ 8) (hm : m.Trained) :
    Blob.compress Zstd.runLength m { Blob.empty with buf := runOf n } =
      ⟨frameOf n, true, UInt32.ofNat n⟩ := by
  obtain ⟨hactive, hdict⟩ := hm
  have hrun : runOf n = List.replicate n 7 := by
    unfold runOf
    rfl
  have hcompress : m.compress Zstd.runLength (runOf n) = frameOf n := by
    simp only [ZstdManager.compress, hactive, hdict, Zstd.runLength, if_true, runOf_length,
      if_pos (And.intro hrun hmax), Option.getD_some, frameOf]
  have hshorter : (frameOf n).length < n := by
    simp only [frameOf, List.length_cons, leBytes_length]
    omega
  simp only [Blob.compress, Blob.empty, hactive, hcompress, Bool.not_true, Bool.or_false,
    Bool.false_eq_true, if_false, runOf_length, if_pos hshorter]

private theorem overwrite_runOf (l : Lite3) (hn : 100 * 1024 ≤ n) (hmax : n < 256 ^ 8)
    (hm : m.Trained ∨ n < 2 ^ 31 ∧ m.AlmostTrained) :
    (Blob.overwrite l Zstd.runLength m (runOf n)).1 = ⟨frameOf n, true, UInt32.ofNat n⟩ ∧
      (Blob.overwrite l Zstd.runLength m (runOf n)).2.Trained := by
  have hpos : 0 < n := by omega
  have hne : (runOf n).isEmpty = false := by
    obtain ⟨rest, hrest⟩ := runOf_cons hpos
    rw [hrest]
    rfl
  have hready : (if m.active then m else m.addSample Zstd.runLength (runOf n)).Trained := by
    rcases hm with htrained | ⟨hsmall, halmost⟩
    · rw [if_pos htrained.1]
      exact htrained
    · rw [if_neg (by simp [halmost.1])]
      exact addSample_runOf hn hsmall halmost
  simp only [Blob.overwrite, hne, Bool.false_eq_true, if_false, storedForm_runOf l hpos,
    compress_runOf hn hmax hready, true_and]
  exact hready

theorem commitWrite_runOf {xxh3 : Bytes → UInt64} {st : Store} (hn : 100 * 1024 ≤ n)
    (hmax : n < 256 ^ 8) (hm : st.zstd.Trained ∨ n < 2 ^ 31 ∧ st.zstd.AlmostTrained)
    (key metaVal : Bytes) :
    let st' := st.commitWrite (External.runLength xxh3) key (runOf n) false metaVal
    st'.find (External.runLength xxh3) key = some ⟨frameOf n, true, UInt32.ofNat n⟩ ∧
      st'.zstd.Trained := by
  intro st'
  obtain ⟨hblob, htrained⟩ := overwrite_runOf Lite3.reference hn hmax hm
  have hzstd : st'.zstd = (Blob.overwrite Lite3.reference Zstd.runLength st.zstd (runOf n)).2 :=
    Blob.overwrite_follows _ _ _ _ htrained.1
  refine ⟨?_, by rw [hzstd]; exact htrained⟩
  simp only [st', Store.commitWrite, Bool.false_eq_true, if_false, Store.applyPut_find,
    if_neg (metaKey_ne key).symm, if_true]
  exact congrArg some hblob

/-- After a run whose length is a multiple of `2 ^ 32` is written, `get` returns its compressed
frame. -/
theorem get_runOf {xxh3 : Bytes → UInt64} {st : Store} (hn : 2 ^ 32 ≤ n) (hmax : n < 256 ^ 8)
    (hzero : UInt32.ofNat n = 0) (hm : st.zstd.Trained) (key metaVal : Bytes) :
    (st.commitWrite (External.runLength xxh3) key (runOf n) false metaVal).get
      (External.runLength xxh3) key adminUid = frameOf n := by
  obtain ⟨hfind, htrained, hdict⟩ :=
    @commitWrite_runOf n xxh3 st (by omega) hmax (Or.inl hm) key metaVal
  have hroom : ¬ leValue (frameOf n).tail ≤ (UInt32.ofNat n).toNat := by
    rw [hzero, frameOf, List.tail_cons, leValue_leBytes hmax]
    simp only [UInt32.reduceToNat]
    omega
  rw [get_eq_read hfind]
  simp only [Blob.read, ZstdManager.decompress, htrained, hdict, if_true]
  simp only [External.runLength, Zstd.runLength, if_neg hroom, Option.getD_none]

end

end L3KV
