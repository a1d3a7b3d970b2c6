import Mathlib.Data.Finset.Fold
import Mathlib.Data.Finset.SymmDiff
import Mathlib.Data.UInt

/-!
# Exclusive-or over finite sets
-/

namespace Framework

variable {κ : Type*}

/-- The exclusive or of the words of a finite set of indices. -/
def xorSum (s : Finset κ) (f : κ → UInt64) : UInt64 := s.fold (· ^^^ ·) 0 f

@[simp] theorem xorSum_empty (f : κ → UInt64) : xorSum ∅ f = 0 := rfl

theorem xorSum_congr {s : Finset κ} {f g : κ → UInt64} (h : ∀ k ∈ s, f k = g k) :
    xorSum s f = xorSum s g :=
  Finset.fold_congr h

theorem xorSum_xor (s : Finset κ) (f g : κ → UInt64) :
    xorSum s (fun k => f k ^^^ g k) = xorSum s f ^^^ xorSum s g :=
  @Finset.fold_op_distrib κ UInt64 (· ^^^ ·) _ _ s f g 0 0

variable [DecidableEq κ]

private theorem xorSum_insert {s : Finset κ} {k : κ} (hk : k ∉ s) (f : κ → UInt64) :
    xorSum (insert k s) f = f k ^^^ xorSum s f :=
  Finset.fold_insert hk

@[simp] theorem xorSum_singleton (k : κ) (f : κ → UInt64) : xorSum {k} f = f k := by
  rw [← insert_empty_eq, xorSum_insert (Finset.notMem_empty k), xorSum_empty, UInt64.xor_zero]

def xorAll (words : List UInt64) : UInt64 := words.foldr (· ^^^ ·) 0

@[simp] theorem xorAll_nil : xorAll [] = 0 := rfl

@[simp] theorem xorAll_cons (w : UInt64) (words : List UInt64) :
    xorAll (w :: words) = w ^^^ xorAll words := rfl

theorem xorAll_append (words more : List UInt64) :
    xorAll (words ++ more) = xorAll words ^^^ xorAll more := by
  induction words with
  | nil => simp
  | cons w words ih => rw [List.cons_append, xorAll_cons, ih, xorAll_cons, UInt64.xor_assoc]

theorem xorAll_perm {words words' : List UInt64} (h : words.Perm words') :
    xorAll words = xorAll words' := by
  induction h with
  | nil => rfl
  | cons w _ ih => rw [xorAll_cons, xorAll_cons, ih]
  | swap v w words =>
      simp only [xorAll_cons]
      rw [← UInt64.xor_assoc, UInt64.xor_comm w v, UInt64.xor_assoc]
  | trans _ _ ih ih' => exact ih.trans ih'

theorem xorSum_toFinset {l : List κ} (h : l.Nodup) (f : κ → UInt64) :
    xorSum l.toFinset f = xorAll (l.map f) := by
  induction l with
  | nil => rfl
  | cons k l ih =>
      obtain ⟨hk, hl⟩ := List.nodup_cons.mp h
      rw [List.toFinset_cons, xorSum_insert (by simpa using hk), ih hl, List.map_cons, xorAll_cons]

/-- Indices whose word is zero do not count. -/
theorem xorSum_subset {s t : Finset κ} (hst : s ⊆ t) {f : κ → UInt64}
    (hzero : ∀ k ∈ t, k ∉ s → f k = 0) : xorSum t f = xorSum s f := by
  induction t using Finset.induction_on generalizing s with
  | empty =>
      rw [Finset.subset_empty.mp hst]
  | insert k t hk ih =>
      rw [xorSum_insert hk]
      by_cases hks : k ∈ s
      · have hsub : s.erase k ⊆ t := by
          intro j hj
          have hmem := hst (Finset.mem_of_mem_erase hj)
          exact (Finset.mem_insert.mp hmem).resolve_left (Finset.ne_of_mem_erase hj)
        have hzero' : ∀ j ∈ t, j ∉ s.erase k → f j = 0 := by
          intro j hj hjs
          apply hzero j (Finset.mem_insert_of_mem hj)
          intro hjmem
          have hne : j ≠ k := fun h => hk (h ▸ hj)
          exact hjs (Finset.mem_erase.mpr ⟨hne, hjmem⟩)
        rw [ih hsub hzero', ← xorSum_insert (Finset.notMem_erase k s), Finset.insert_erase hks]
      · have hsub : s ⊆ t := by
          intro j hj
          have hne : j ≠ k := fun h => hks (h ▸ hj)
          exact (Finset.mem_insert.mp (hst hj)).resolve_left hne
        rw [hzero k (Finset.mem_insert_self k t) hks,
          ih hsub fun j hj hjs => hzero j (Finset.mem_insert_of_mem hj) hjs]
        simp

theorem xorSum_filter (s : Finset κ) (P : κ → Prop) [DecidablePred P] (f : κ → UInt64) :
    xorSum (s.filter P) f = xorSum s fun k => if P k then f k else 0 := by
  have hfilter : xorSum (s.filter P) f = xorSum (s.filter P) fun k => if P k then f k else 0 :=
    xorSum_congr fun k hk => (if_pos (Finset.mem_filter.mp hk).2).symm
  rw [hfilter]
  refine (xorSum_subset (Finset.filter_subset _ _) fun k hk hout => ?_).symm
  exact if_neg fun hP => hout (Finset.mem_filter.mpr ⟨hk, hP⟩)

theorem xorSum_union {s t : Finset κ} (h : Disjoint s t) (f : κ → UInt64) :
    xorSum (s ∪ t) f = xorSum s f ^^^ xorSum t f := by
  induction s using Finset.induction_on with
  | empty => simp
  | insert k s hk ih =>
      rw [Finset.disjoint_insert_left] at h
      have hout : k ∉ s ∪ t := by simp [hk, h.1]
      rw [Finset.insert_union, xorSum_insert hout, ih h.2, xorSum_insert hk, UInt64.xor_assoc]

theorem xorSum_image {ι : Type*} {s : Finset ι} {g : ι → κ} (hg : Set.InjOn g s)
    (f : κ → UInt64) : xorSum (s.image g) f = xorSum s (f ∘ g) :=
  Finset.fold_image hg

theorem xorSum_eq {s t : Finset κ} {f : κ → UInt64} (hs : ∀ k, f k ≠ 0 → k ∈ s)
    (ht : ∀ k, f k ≠ 0 → k ∈ t) : xorSum s f = xorSum t f := by
  have hleft : xorSum (s ∪ t) f = xorSum s f :=
    xorSum_subset Finset.subset_union_left fun k _ hk => by
      by_contra h
      exact hk (hs k h)
  have hright : xorSum (s ∪ t) f = xorSum t f :=
    xorSum_subset Finset.subset_union_right fun k _ hk => by
      by_contra h
      exact hk (ht k h)
  rw [← hleft, hright]

theorem xorSum_update {s : Finset κ} {k : κ} (hk : k ∈ s) (f : κ → UInt64) (w : UInt64) :
    xorSum s (Function.update f k w) = xorSum s f ^^^ (f k ^^^ w) := by
  have herase : xorSum (s.erase k) (Function.update f k w) = xorSum (s.erase k) f :=
    xorSum_congr fun j hj => Function.update_of_ne (Finset.ne_of_mem_erase hj) _ _
  have hsplit (g : κ → UInt64) : xorSum s g = g k ^^^ xorSum (s.erase k) g := by
    rw [← xorSum_insert (Finset.notMem_erase k s), Finset.insert_erase hk]
  rw [hsplit, hsplit f, herase, Function.update_self]
  have hcancel (a b c : UInt64) : a ^^^ c = b ^^^ c ^^^ (b ^^^ a) := by
    rw [UInt64.xor_comm b c, UInt64.xor_assoc, ← UInt64.xor_assoc b b a]
    simp [UInt64.xor_comm]
  exact hcancel _ _ _

private theorem xorSum_symmDiff (s t : Finset κ) (f : κ → UInt64) :
    xorSum (symmDiff s t) f = xorSum s f ^^^ xorSum t f := by
  have hsplit (s t : Finset κ) : xorSum s f = xorSum (s \ t) f ^^^ xorSum (s ∩ t) f := by
    rw [← xorSum_union (Finset.disjoint_sdiff_inter s t), Finset.sdiff_union_inter]
  have hdisjoint : Disjoint (s \ t) (t \ s) := disjoint_sdiff_sdiff
  rw [symmDiff_def, Finset.sup_eq_union, xorSum_union hdisjoint, hsplit s t, hsplit t s,
    Finset.inter_comm t s, UInt64.xor_assoc, UInt64.xor_comm (xorSum (t \ s) f) (xorSum (s ∩ t) f),
    ← UInt64.xor_assoc (xorSum (s ∩ t) f), UInt64.xor_self, UInt64.zero_xor]

/-- The elements that a list has an odd number of times. -/
def oddly (l : List κ) : Finset κ := l.toFinset.filter fun k => Odd (l.count k)

private theorem mem_of_odd_count {l : List κ} {k : κ} (h : Odd (l.count k)) : k ∈ l := by
  obtain ⟨m, hm⟩ := h
  exact List.count_pos_iff.mp (by omega)

private theorem mem_oddly {l : List κ} {k : κ} : k ∈ oddly l ↔ Odd (l.count k) := by
  rw [oddly, Finset.mem_filter, List.mem_toFinset, and_iff_right_iff_imp]
  exact mem_of_odd_count

private theorem oddly_cons (k : κ) (l : List κ) : oddly (k :: l) = symmDiff {k} (oddly l) := by
  ext j
  simp only [Finset.mem_symmDiff, Finset.mem_singleton, mem_oddly]
  by_cases hj : j = k
  · subst hj
    simp [Nat.odd_add_one]
  · have hne : k ≠ j := Ne.symm hj
    simp [hj, hne]

private theorem xorAll_map (l : List κ) (f : κ → UInt64) :
    xorAll (l.map f) = xorSum (oddly l) f := by
  induction l with
  | nil => rfl
  | cons k l ih => rw [List.map_cons, xorAll_cons, ih, oddly_cons, xorSum_symmDiff, xorSum_singleton]

/-- Linear independence over the field of two elements: no non-empty finite set sums to zero. -/
def XorIndependent (f : κ → UInt64) (T : Set κ) : Prop :=
  ∀ s : Finset κ, s.Nonempty → ↑s ⊆ T → xorSum s f ≠ 0

namespace XorIndependent

variable {f : κ → UInt64} {T : Set κ}

private theorem xorSum_inj (h : XorIndependent f T) {s t : Finset κ} (hs : ↑s ⊆ T) (ht : ↑t ⊆ T)
    (heq : xorSum s f = xorSum t f) : s = t := by
  by_contra hne
  refine h (symmDiff s t) ?_ ?_ (by rw [xorSum_symmDiff, heq, UInt64.xor_self])
  · rw [Finset.nonempty_iff_ne_empty]
    intro hempty
    exact hne (symmDiff_eq_bot.mp hempty)
  · intro k hk
    rcases Finset.mem_symmDiff.mp hk with ⟨hk, -⟩ | ⟨hk, -⟩
    · exact hs hk
    · exact ht hk

/-- Of independent words, a sum says how often each is in it, up to pairs. -/
theorem xorAll_inj_iff (h : XorIndependent f T) {l l' : List κ} (hl : ∀ k ∈ l, k ∈ T)
    (hl' : ∀ k ∈ l', k ∈ T) :
    xorAll (l.map f) = xorAll (l'.map f) ↔ oddly l = oddly l' := by
  have hsub {l : List κ} (hl : ∀ k ∈ l, k ∈ T) : (↑(oddly l) : Set κ) ⊆ T := by
    intro k hk
    exact hl k (mem_of_odd_count (mem_oddly.mp hk))
  rw [xorAll_map, xorAll_map]
  exact ⟨h.xorSum_inj (hsub hl) (hsub hl'), fun heq => by rw [heq]⟩

omit [DecidableEq κ] in
theorem mono {T' : Set κ} (h : XorIndependent f T) (hsub : T' ⊆ T) : XorIndependent f T' :=
  fun s hs hT => h s hs (hT.trans hsub)

theorem ne_zero (h : XorIndependent f T) {k : κ} (hk : k ∈ T) : f k ≠ 0 := by
  have hsum := h {k} (Finset.singleton_nonempty k) (by simpa using hk)
  rwa [xorSum_singleton] at hsum

theorem injOn (h : XorIndependent f T) : Set.InjOn f T := by
  intro k hk j hj heq
  have hsame := h.xorSum_inj (s := {k}) (t := {j}) (by simpa using hk) (by simpa using hj)
  simpa using hsame (by simpa using heq)

theorem of_bits {e : κ → Nat} (he : Set.InjOn e T) (hf : ∀ k ∈ T, (f k).toNat = 2 ^ e k) :
    XorIndependent f T := by
  have hbit (s : Finset κ) (hs : ↑s ⊆ T) (k : κ) (hk : k ∈ T) :
      (xorSum s f).toNat.testBit (e k) = decide (k ∈ s) := by
    induction s using Finset.induction_on with
    | empty => simp
    | insert j s hj ih =>
        rw [Finset.coe_insert, Set.insert_subset_iff] at hs
        rw [xorSum_insert hj, UInt64.toNat_xor, Nat.testBit_xor, ih hs.2, hf j hs.1,
          Nat.testBit_two_pow]
        by_cases heq : k = j
        · subst heq
          simp [hj]
        · have hne : e j ≠ e k := fun h => heq (he hk hs.1 h.symm)
          simp [heq, hne]
  intro s hs hT hzero
  obtain ⟨k, hk⟩ := hs
  have hone := hbit s hT k (hT hk)
  rw [hzero] at hone
  simp [hk] at hone

end XorIndependent

end Framework
