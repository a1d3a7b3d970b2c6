import Mathlib.Data.Finset.Basic
import L3KV.Framework.Delivery

/-!
# Pulling through a hash tree

Two replicas compare hash trees from the root down. The receiving one asks about the children of
every node that differs, then for the keys of every bucket that differs, then for every listed key
it wants, and takes what is newer. Only the buckets are compared live; the inner nodes stay as they
were at the start. The question is which keys end up taken when every message is delivered once, in
any order.
-/

namespace Framework

namespace TreePull

/-- Heights are counted from the buckets up: `reqNode h p` asks about the children of `p`, which
are at height `h`. -/
inductive Msg (κ : Type*) where
  | reqNode (height parent : Nat)
  | repNode (height parent : Nat)
  | reqBucket (bucket : Nat)
  | repBucket (bucket : Nat)
  | getVal (key : κ)
  | putVal (key : κ)
  deriving DecidableEq

end TreePull

/-- What the two replicas see of each other, depending on the keys that were taken so far. -/
structure TreePull (κ : Type*) [DecidableEq κ] where
  arity : Nat
  arity_pos : 0 < arity
  /-- The height of the nodes right below the root. -/
  top : Nat
  rootDiffers : Bool
  bucket : κ → Nat
  bucket_lt : ∀ k, bucket k < arity ^ (top + 1)
  differs : Finset κ → Nat → Nat → Bool
  differs_inner : ∀ taken h i, differs taken (h + 1) i = differs ∅ (h + 1) i
  listing : Nat → List κ
  listing_nodup : ∀ b, (listing b).Nodup
  listing_bucket : ∀ {b k}, k ∈ listing b → bucket k = b
  wants : Finset κ → κ → Bool
  wants_untaken : ∀ {taken k}, k ∉ taken → wants taken k = wants ∅ k
  accepts : κ → Bool

namespace TreePull

variable {κ : Type*} [DecidableEq κ] (t : TreePull κ)

def children (parent : Nat) : List Nat := (List.range t.arity).map fun i => parent * t.arity + i

def handle (taken : Finset κ) : Msg κ → Finset κ × List (Msg κ)
  | .reqNode h p => (taken, [.repNode h p])
  | .repNode 0 p => (taken, ((t.children p).filter (t.differs taken 0)).map .reqBucket)
  | .repNode (h + 1) p =>
      (taken, ((t.children p).filter (t.differs taken (h + 1))).map (.reqNode h))
  | .reqBucket b => (taken, [.repBucket b])
  | .repBucket b => (taken, ((t.listing b).filter (t.wants taken)).map .getVal)
  | .getVal k => (taken, [.putVal k])
  | .putVal k => (if t.accepts k then insert k taken else taken, [])

def start : Pool (Finset κ) (Msg κ) :=
  ⟨∅, if t.rootDiffers then [.reqNode t.top 0] else []⟩

/-- The messages that the key depends on. -/
def OnPath (k : κ) : Msg κ → Prop
  | .reqNode h p => p = t.bucket k / t.arity ^ (h + 1)
  | .repNode h p => p = t.bucket k / t.arity ^ (h + 1)
  | .reqBucket b => b = t.bucket k
  | .repBucket b => b = t.bucket k
  | .getVal k' => k' = k
  | .putVal k' => k' = k

instance (k : κ) : DecidablePred (t.OnPath k)
  | .reqNode _ _ => inferInstanceAs (Decidable (_ = _))
  | .repNode _ _ => inferInstanceAs (Decidable (_ = _))
  | .reqBucket _ => inferInstanceAs (Decidable (_ = _))
  | .repBucket _ => inferInstanceAs (Decidable (_ = _))
  | .getVal _ => inferInstanceAs (Decidable (_ = _))
  | .putVal _ => inferInstanceAs (Decidable (_ = _))

/-- The one answer that the key depends on. -/
def successor (k : κ) : Msg κ → Msg κ
  | .reqNode h p => .repNode h p
  | .repNode 0 _ => .reqBucket (t.bucket k)
  | .repNode (h + 1) _ => .reqNode h (t.bucket k / t.arity ^ (h + 1))
  | .reqBucket b => .repBucket b
  | .repBucket _ => .getVal k
  | .getVal k' => .putVal k'
  | .putVal k' => .putVal k'

def rank : Msg κ → Nat
  | .reqNode h _ => 2 * h + 5
  | .repNode h _ => 2 * h + 4
  | .reqBucket _ => 3
  | .repBucket _ => 2
  | .getVal _ => 1
  | .putVal _ => 0

/-- Every node on the way down to the bucket of the key differs at the start. -/
def Found (k : κ) : Prop :=
  t.rootDiffers ∧ ∀ h < t.top, t.differs ∅ (h + 1) (t.bucket k / t.arity ^ (h + 1))

def Offered (k : κ) : Prop := k ∈ t.listing (t.bucket k) ∧ t.wants ∅ k

/-- None of the keys falls into the block of buckets around that of the key. -/
def Apart (k : κ) (taken : Finset κ) : Prop :=
  ∀ s ∈ taken, t.bucket s / t.arity ≠ t.bucket k / t.arity

/-- What a message in flight shows about a key that depends on it. -/
def Passed (k : κ) : Msg κ → Prop
  | .reqNode h _ => h ≤ t.top ∧ t.rootDiffers ∧
      ∀ j, h ≤ j → j < t.top → t.differs ∅ (j + 1) (t.bucket k / t.arity ^ (j + 1))
  | .repNode h _ => h ≤ t.top ∧ t.rootDiffers ∧
      ∀ j, h ≤ j → j < t.top → t.differs ∅ (j + 1) (t.bucket k / t.arity ^ (j + 1))
  | .reqBucket _ => t.Found k
  | .repBucket _ => t.Found k
  | .getVal _ => t.Found k ∧ t.Offered k
  | .putVal _ => t.Found k ∧ t.Offered k

variable {t}

private theorem mem_children {p c : Nat} : c ∈ t.children p ↔ c / t.arity = p := by
  simp only [children, List.mem_map, List.mem_range]
  constructor
  · rintro ⟨i, hi, rfl⟩
    rw [Nat.mul_comm, Nat.mul_add_div t.arity_pos, Nat.div_eq_of_lt hi, Nat.add_zero]
  · rintro rfl
    exact ⟨c % t.arity, Nat.mod_lt c t.arity_pos, by rw [Nat.mul_comm]; exact Nat.div_add_mod c _⟩

private theorem children_nodup (p : Nat) : (t.children p).Nodup := by
  apply List.Nodup.map _ List.nodup_range
  intro i j hij
  simpa using hij

private theorem div_pow_succ (n h : Nat) : n / t.arity ^ (h + 1) = n / t.arity ^ h / t.arity := by
  rw [pow_succ, Nat.div_div_eq_div_mul]

@[simp] theorem handle_repNode_state (taken : Finset κ) (h p : Nat) :
    (t.handle taken (.repNode h p)).1 = taken := by
  cases h <;> rfl

private theorem rank_handle (taken : Finset κ) (m : Msg κ) :
    ∀ m' ∈ (t.handle taken m).2, rank m' < rank m := by
  intro m' hm'
  match m with
  | .repNode 0 p =>
      obtain ⟨c, -, rfl⟩ := List.mem_map.mp hm'
      simp [rank]
  | .repNode (h + 1) p =>
      obtain ⟨c, -, rfl⟩ := List.mem_map.mp hm'
      simp only [rank]
      omega
  | .repBucket b =>
      obtain ⟨c, -, rfl⟩ := List.mem_map.mp hm'
      simp [rank]
  | .reqNode h p => simp_all [handle, rank]
  | .reqBucket b => simp_all [handle, rank]
  | .getVal k => simp_all [handle, rank]
  | .putVal k => simp_all [handle]

private theorem handle_nodup (taken : Finset κ) (m : Msg κ) : (t.handle taken m).2.Nodup := by
  match m with
  | .repNode 0 p =>
      exact ((children_nodup p).filter _).map fun a b hab => by injection hab
  | .repNode (h + 1) p =>
      exact ((children_nodup p).filter _).map fun a b hab => by injection hab
  | .repBucket b =>
      exact ((t.listing_nodup b).filter _).map fun a b hab => by injection hab
  | .reqNode h p => simp [handle]
  | .reqBucket b => simp [handle]
  | .getVal k => simp [handle]
  | .putVal k => simp [handle]

private theorem onPath_of_handle {taken : Finset κ} {k : κ} {m m' : Msg κ}
    (hm' : m' ∈ (t.handle taken m).2) (hpath : t.OnPath k m') :
    t.OnPath k m ∧ m' = t.successor k m := by
  match m with
  | .reqNode h p =>
      obtain rfl := List.mem_singleton.mp hm'
      exact ⟨hpath, rfl⟩
  | .repNode 0 p =>
      obtain ⟨c, hc, rfl⟩ := List.mem_map.mp hm'
      obtain rfl : c = t.bucket k := hpath
      refine ⟨?_, rfl⟩
      have hparent := mem_children.mp (List.mem_filter.mp hc).1
      simpa [OnPath] using hparent.symm
  | .repNode (h + 1) p =>
      obtain ⟨c, hc, rfl⟩ := List.mem_map.mp hm'
      obtain rfl : c = t.bucket k / t.arity ^ (h + 1) := hpath
      refine ⟨?_, rfl⟩
      have hparent := mem_children.mp (List.mem_filter.mp hc).1
      rw [OnPath, div_pow_succ]
      exact hparent.symm
  | .reqBucket b =>
      obtain rfl := List.mem_singleton.mp hm'
      exact ⟨hpath, rfl⟩
  | .repBucket b =>
      obtain ⟨k', hk', rfl⟩ := List.mem_map.mp hm'
      obtain rfl : k' = k := hpath
      exact ⟨(t.listing_bucket (List.mem_filter.mp hk').1).symm, rfl⟩
  | .getVal k' =>
      obtain rfl := List.mem_singleton.mp hm'
      exact ⟨hpath, rfl⟩
  | .putVal k' => simp [handle] at hm'

private theorem countP_handle (taken : Finset κ) (k : κ) (m : Msg κ) :
    (t.handle taken m).2.countP (t.OnPath k) ≤ 1 := by
  calc (t.handle taken m).2.countP (t.OnPath k)
      ≤ (t.handle taken m).2.count (t.successor k m) := by
        apply List.countP_mono_left
        intro m' hm' hpath
        simpa using (onPath_of_handle hm' (by simpa using hpath)).2
    _ ≤ 1 := List.nodup_iff_count_le_one.mp (handle_nodup taken m) _

section

variable {allowed : Msg κ → Prop} {p q : Pool (Finset κ) (Msg κ)}

private theorem mem_handle {taken : Finset κ} {m : Msg κ} {k : κ} :
    k ∈ (t.handle taken m).1 ↔ k ∈ taken ∨ (m = .putVal k ∧ t.accepts k) := by
  match m with
  | .putVal k' =>
      simp only [handle]
      split
      · rename_i haccepts
        rw [Finset.mem_insert, or_comm]
        constructor
        · rintro (hk | rfl)
          · exact Or.inl hk
          · exact Or.inr ⟨rfl, haccepts⟩
        · rintro (hk | ⟨heq, -⟩)
          · exact Or.inl hk
          · cases heq
            exact Or.inr rfl
      · rename_i haccepts
        constructor
        · exact Or.inl
        · rintro (hk | ⟨heq, hk⟩)
          · exact hk
          · cases heq
            exact absurd hk haccepts
  | .repNode 0 p => simp [handle]
  | .repNode (h + 1) p => simp [handle]
  | .reqNode h p => simp [handle]
  | .reqBucket b => simp [handle]
  | .repBucket b => simp [handle]
  | .getVal k' => simp [handle]

private theorem exists_putVal (h : Pool.Reaches t.handle allowed p q) {k : κ} (hk : k ∈ q.state)
    (hnew : k ∉ p.state) :
    t.accepts k ∧ allowed (.putVal k) ∧ ∃ s before after,
      Pool.Reaches t.handle allowed p ⟨s, before ++ .putVal k :: after⟩ := by
  induction h with
  | refl => exact absurd hk hnew
  | @tail s before after m hreach hm ih =>
      rcases mem_handle.mp hk with hold | ⟨rfl, haccepts⟩
      · exact ih hold
      · exact ⟨haccepts, hm, s, before, after, hreach⟩

private theorem countP_onPath (h : Pool.Reaches t.handle allowed t.start q) (k : κ) :
    q.flight.countP (t.OnPath k) ≤ 1 ∧ (k ∈ q.state → q.flight.countP (t.OnPath k) = 0) := by
  refine h.unique (t.OnPath k) (fun taken => k ∈ taken)
    (fun s m m' hm' hpath => (onPath_of_handle hm' hpath).1) (fun s m => countP_handle s k m) ?_ ?_ ?_
  · intro s m hk hnew
    obtain ⟨rfl, -⟩ := (mem_handle.mp hk).resolve_left hnew
    exact ⟨rfl, by simp [handle]⟩
  · refine List.countP_le_length.trans ?_
    unfold start
    split <;> simp
  · intro hk
    simp [start] at hk

private theorem untaken (h : Pool.Reaches t.handle allowed t.start q) {m : Msg κ}
    (hm : m ∈ q.flight)
    {k : κ} (hpath : t.OnPath k m) : k ∉ q.state := by
  intro hk
  exact List.countP_eq_zero.mp ((countP_onPath h k).2 hk) m hm (by simpa using hpath)

theorem alone {taken : Finset κ} {before after : List (Msg κ)} {m : Msg κ}
    (h : Pool.Reaches t.handle allowed t.start ⟨taken, before ++ m :: after⟩) {k : κ}
    (hpath : t.OnPath k m) : ∀ m' ∈ before ++ after, ¬ t.OnPath k m' := by
  have hcount := (countP_onPath h k).1
  simp only [List.countP_append, List.countP_cons, hpath, decide_true, if_true] at hcount
  have hzero : (before ++ after).countP (t.OnPath k) = 0 := by
    rw [List.countP_append]
    omega
  intro m' hm'
  simpa using List.countP_eq_zero.mp hzero m' hm'

theorem passed (h : Pool.Reaches t.handle allowed t.start q) {k : κ} :
    ∀ m ∈ q.flight, t.OnPath k m → t.Passed k m := by
  refine h.along (fun s m m' hm' hpath => (onPath_of_handle hm' hpath).1) ?_ ?_
  · intro m hm _
    unfold start at hm
    split at hm
    · rename_i hroot
      obtain rfl := List.mem_singleton.mp hm
      refine ⟨le_refl _, hroot, fun j hle hlt => ?_⟩
      omega
    · simp at hm
  · intro taken before after m hreach _ hpath hpassed m' hm' hpath'
    have hnext := (onPath_of_handle hm' hpath').2
    match m with
    | .reqNode h p =>
        obtain rfl := List.mem_singleton.mp hm'
        exact hpassed
    | .repNode 0 p =>
        rw [hnext]
        exact ⟨hpassed.2.1, fun h hlt => hpassed.2.2 h (Nat.zero_le h) hlt⟩
    | .repNode (h + 1) p =>
        obtain ⟨c, hc, heq⟩ := List.mem_map.mp hm'
        rw [hnext] at heq ⊢
        obtain rfl : c = t.bucket k / t.arity ^ (h + 1) := by injection heq
        refine ⟨Nat.le_of_succ_le hpassed.1, hpassed.2.1, fun j hle hlt => ?_⟩
        rcases Nat.eq_or_lt_of_le hle with rfl | hlt'
        · rw [← t.differs_inner taken]
          exact (List.mem_filter.mp hc).2
        · exact hpassed.2.2 j hlt' hlt
    | .reqBucket b =>
        obtain rfl := List.mem_singleton.mp hm'
        exact hpassed
    | .repBucket b =>
        obtain ⟨k', hk', heq⟩ := List.mem_map.mp hm'
        rw [hnext] at heq ⊢
        obtain rfl : k' = k := by injection heq
        obtain ⟨hlisted, hwants⟩ := List.mem_filter.mp hk'
        rw [t.wants_untaken (untaken hreach (by simp) hpath)] at hwants
        have hbucket : b = t.bucket k' := hpath
        rw [hbucket] at hlisted
        exact ⟨hpassed, hlisted, hwants⟩
    | .getVal k' =>
        obtain rfl := List.mem_singleton.mp hm'
        exact hpassed
    | .putVal k' => simp [handle] at hm'

theorem taken_static (h : Pool.Reaches t.handle allowed t.start q) {k : κ} (hk : k ∈ q.state) :
    t.accepts k ∧ t.Offered k ∧ t.Found k := by
  obtain ⟨haccepts, -, s, before, after, hreach⟩ := exists_putVal h hk (by simp [start])
  obtain ⟨hfound, hoffered⟩ := passed hreach (.putVal k) (by simp) rfl
  exact ⟨haccepts, hoffered, hfound⟩

/-- The messages that can come up at all: the nodes and buckets are those of the tree, and a key is
only asked for when it is listed. -/
def Inside (t : TreePull κ) : Msg κ → Prop
  | .reqNode h p => h ≤ t.top ∧ p < t.arity ^ (t.top - h)
  | .repNode h p => h ≤ t.top ∧ p < t.arity ^ (t.top - h)
  | .reqBucket b => b < t.arity ^ (t.top + 1)
  | .repBucket b => b < t.arity ^ (t.top + 1)
  | .getVal k => k ∈ t.listing (t.bucket k)
  | .putVal k => k ∈ t.listing (t.bucket k)

private theorem child_inside {h p c : Nat} (hp : p < t.arity ^ (t.top - h)) (hc : c / t.arity = p) :
    c < t.arity ^ (t.top - h + 1) := by
  rw [pow_succ]
  exact (Nat.div_lt_iff_lt_mul t.arity_pos).mp (hc.trans_lt hp)

theorem handle_inside {taken : Finset κ} {m : Msg κ} (h : t.Inside m) :
    ∀ m' ∈ (t.handle taken m).2, t.Inside m' := by
  intro m' hm'
  match m with
  | .reqNode h' p =>
      obtain rfl := List.mem_singleton.mp hm'
      exact h
  | .repNode 0 p =>
      obtain ⟨c, hc, rfl⟩ := List.mem_map.mp hm'
      exact child_inside h.2 (mem_children.mp (List.mem_filter.mp hc).1)
  | .repNode (h' + 1) p =>
      obtain ⟨c, hc, rfl⟩ := List.mem_map.mp hm'
      have hlow : h' + 1 ≤ t.top := h.1
      have hlt := child_inside h.2 (mem_children.mp (List.mem_filter.mp hc).1)
      rw [show t.top - (h' + 1) + 1 = t.top - h' by omega] at hlt
      exact ⟨Nat.le_of_succ_le hlow, hlt⟩
  | .reqBucket b =>
      obtain rfl := List.mem_singleton.mp hm'
      exact h
  | .repBucket b =>
      obtain ⟨k, hk, rfl⟩ := List.mem_map.mp hm'
      have hlisted := (List.mem_filter.mp hk).1
      rw [Inside, t.listing_bucket hlisted]
      exact hlisted
  | .getVal k =>
      obtain rfl := List.mem_singleton.mp hm'
      exact h
  | .putVal k => simp [handle] at hm'

theorem start_inside : ∀ m ∈ t.start.flight, t.Inside m := by
  intro m hm
  unfold start at hm
  split at hm
  · obtain rfl := List.mem_singleton.mp hm
    simp [Inside]
  · simp at hm

theorem inside (h : Pool.Reaches t.handle allowed t.start q) : ∀ m ∈ q.flight, t.Inside m :=
  h.flight_mem start_inside fun _ _ hm => handle_inside hm

private theorem lost (h : Pool.Reaches t.handle allowed p q) {k : κ} (hnew : k ∉ p.state)
    (hnone : ∀ m ∈ p.flight, ¬ t.OnPath k m) : k ∉ q.state := by
  intro hk
  obtain ⟨-, -, s, before, after, hreach⟩ := exists_putVal h hk hnew
  exact hreach.extinct (fun s m m' hm' hpath => (onPath_of_handle hm' hpath).1) hnone (.putVal k)
    (by simp) rfl

/-- What the handler of a message checks before the key moves on. -/
def Test (t : TreePull κ) (k : κ) (taken : Finset κ) : Msg κ → Prop
  | .repNode h _ => t.differs taken h (t.bucket k / t.arity ^ h)
  | .repBucket _ => k ∈ t.listing (t.bucket k) ∧ t.wants taken k
  | .putVal _ => t.accepts k
  | _ => True

private theorem onPath_successor {k : κ} {m : Msg κ} (hpath : t.OnPath k m) :
    t.OnPath k (t.successor k m) := by
  match m with
  | .repNode 0 p => rfl
  | .repNode (h + 1) p => rfl
  | .repBucket b => rfl
  | .reqNode h p => exact hpath
  | .reqBucket b => exact hpath
  | .getVal k' => exact hpath
  | .putVal k' => exact hpath

theorem advance {k : κ} {taken : Finset κ} {m : Msg κ} (hpath : t.OnPath k m)
    (htest : t.Test k taken m) :
    k ∈ (t.handle taken m).1 ∨ t.successor k m ∈ (t.handle taken m).2 := by
  match m with
  | .reqNode h p => exact Or.inr (List.mem_singleton_self _)
  | .repNode 0 p =>
      refine Or.inr (List.mem_map_of_mem (List.mem_filter.mpr ⟨mem_children.mpr ?_, ?_⟩))
      · simpa [OnPath] using hpath.symm
      · simpa [Test] using htest
  | .repNode (h + 1) p =>
      refine Or.inr (List.mem_map_of_mem (List.mem_filter.mpr ⟨mem_children.mpr ?_, htest⟩))
      rw [← div_pow_succ]
      exact hpath.symm
  | .reqBucket b => exact Or.inr (List.mem_singleton_self _)
  | .repBucket b =>
      obtain rfl : b = t.bucket k := hpath
      exact Or.inr (List.mem_map_of_mem (List.mem_filter.mpr htest))
  | .getVal k' => exact Or.inr (List.mem_singleton_self _)
  | .putVal k' =>
      obtain rfl : k' = k := hpath
      exact Or.inl (mem_handle.mpr (Or.inr ⟨rfl, htest⟩))

private theorem test_of_static {k : κ} {taken : Finset κ} {before after : List (Msg κ)} {m : Msg κ}
    (h : Pool.Reaches t.handle allowed t.start ⟨taken, before ++ m :: after⟩)
    (hpath : t.OnPath k m) (haccepts : t.accepts k) (hoffered : t.Offered k) (hfound : t.Found k)
    (hleaf : ∀ p, m = .repNode 0 p → t.differs taken 0 (t.bucket k)) : t.Test k taken m := by
  match m with
  | .repNode 0 p => simpa [Test] using hleaf p rfl
  | .repNode (h' + 1) p =>
      have hpassed : h' + 1 ≤ t.top := (passed h _ (by simp) hpath).1
      rw [Test, t.differs_inner]
      exact hfound.2 h' hpassed
  | .repBucket b =>
      exact ⟨hoffered.1, by rw [t.wants_untaken (untaken h (by simp) hpath)]; exact hoffered.2⟩
  | .putVal k' => exact haccepts
  | .reqNode _ _ => trivial
  | .reqBucket _ => trivial
  | .getVal _ => trivial

private theorem apart_of_repNode {taken : Finset κ} {before after : List (Msg κ)} {p : Nat} {k : κ}
    (h : Pool.Reaches t.handle allowed t.start ⟨taken, before ++ .repNode 0 p :: after⟩)
    (hpath : t.OnPath k (.repNode 0 p)) : t.Apart k taken := by
  intro s hs heq
  have hpath' : t.OnPath s (.repNode 0 p) := by
    simp only [OnPath, Nat.zero_add, pow_one] at hpath ⊢
    rw [hpath, heq]
  exact untaken h (by simp) hpath' hs

end

/-- Exactly the keys of `K` get through, whichever of them were taken before: the ones to be taken
pass every check, and the others that would be accepted are stopped by some check. -/
structure Complete (t : TreePull κ) (K : Set κ) : Prop where
  wanted : ∀ k ∈ K, t.accepts k ∧ t.Offered k ∧ t.Found k ∧
    ∀ S : Finset κ, ↑S ⊆ K → t.Apart k S → t.differs S 0 (t.bucket k)
  unwanted : ∀ k ∉ K, t.accepts k → t.Offered k → t.Found k →
    ∀ S : Finset κ, ↑S ⊆ K → t.Apart k S → t.differs S 0 (t.bucket k) = false

section

variable {K : Set κ} {q : Pool (Finset κ) (Msg κ)}

/-- The bucket of the key was seen to differ when only keys of `K` were taken. -/
def Seen (t : TreePull κ) (K : Set κ) (k : κ) : Msg κ → Prop
  | .reqNode _ _ => True
  | .repNode _ _ => True
  | _ => ∃ S : Finset κ, ↑S ⊆ K ∧ t.Apart k S ∧ t.differs S 0 (t.bucket k)

private theorem seen_handle {taken : Finset κ} {before after : List (Msg κ)} {m m' : Msg κ} {k : κ}
    (h : Pool.Reaches t.handle (fun _ => True) t.start ⟨taken, before ++ m :: after⟩)
    (htaken : ↑taken ⊆ K) (hseen : t.Seen K k m) (hm' : m' ∈ (t.handle taken m).2)
    (hpath' : t.OnPath k m') : t.Seen K k m' := by
  obtain ⟨hpath, hnext⟩ := onPath_of_handle hm' hpath'
  match m with
  | .reqNode h' p =>
      rw [hnext]
      trivial
  | .repNode 0 p =>
      obtain ⟨c, hc, heq⟩ := List.mem_map.mp hm'
      rw [hnext] at heq ⊢
      obtain rfl : c = t.bucket k := by injection heq
      exact ⟨taken, htaken, apart_of_repNode h hpath, (List.mem_filter.mp hc).2⟩
  | .repNode (h' + 1) p =>
      rw [hnext]
      trivial
  | .reqBucket b =>
      rw [hnext]
      exact hseen
  | .repBucket b =>
      rw [hnext]
      exact hseen
  | .getVal k' =>
      rw [hnext]
      exact hseen
  | .putVal k' => simp [handle] at hm'

theorem Complete.subset (hC : t.Complete K)
    (h : Pool.Reaches t.handle (fun _ => True) t.start q) : ↑q.state ⊆ K := by
  have hboth : ↑q.state ⊆ K ∧ ∀ k, ∀ m ∈ q.flight, t.OnPath k m → t.Seen K k m := by
    induction h with
    | refl =>
        refine ⟨by simp [start], fun k m hm _ => ?_⟩
        unfold start at hm
        split at hm
        · obtain rfl := List.mem_singleton.mp hm
          trivial
        · simp at hm
    | @tail taken before after m hreach _ ih =>
        obtain ⟨htaken, hseen⟩ := ih
        constructor
        · intro k hk
          rcases mem_handle.mp hk with hold | ⟨rfl, haccepts⟩
          · exact htaken hold
          · by_contra hout
            obtain ⟨hfound, hoffered⟩ := passed hreach (.putVal k) (by simp) rfl
            obtain ⟨S, hS, hapart, hdiffers⟩ := hseen k (.putVal k) (by simp) rfl
            rw [hC.unwanted k hout haccepts hoffered hfound S hS hapart] at hdiffers
            cases hdiffers
        · intro k m' hm' hpath'
          rcases List.mem_append.mp hm' with hold | hnew
          · apply hseen k m' _ hpath'
            rcases List.mem_append.mp hold with h | h
            · exact List.mem_append_left _ h
            · exact List.mem_append_right _ (List.mem_cons_of_mem _ h)
          · exact seen_handle hreach htaken
              (hseen k m (by simp) (onPath_of_handle hnew hpath').1) hnew hpath'
  exact hboth.1

theorem Complete.progress (hC : t.Complete K)
    (h : Pool.Reaches t.handle (fun _ => True) t.start q) {k : κ} (hk : k ∈ K) :
    k ∈ q.state ∨ ∃ m ∈ q.flight, t.OnPath k m := by
  obtain ⟨haccepts, hoffered, hfound, hleaf⟩ := hC.wanted k hk
  refine h.progress (t.OnPath k) (fun taken => k ∈ taken)
    (fun s m hold => mem_handle.mpr (Or.inl hold)) ?_ ?_
  · intro taken before after m hreach _ hpath
    have htest : t.Test k taken m := by
      refine test_of_static hreach hpath haccepts hoffered hfound ?_
      rintro p rfl
      exact hleaf taken (hC.subset hreach) (apart_of_repNode hreach hpath)
    rcases advance hpath htest with hdone | hnext
    · exact Or.inl hdone
    · exact Or.inr ⟨_, hnext, onPath_successor hpath⟩
  · right
    have hroot : t.rootDiffers = true := hfound.1
    refine ⟨.reqNode t.top 0, by simp [start, hroot], ?_⟩
    exact (Nat.div_eq_of_lt (t.bucket_lt k)).symm

theorem exists_completion (q : Pool (Finset κ) (Msg κ)) :
    ∃ r, Pool.Reaches t.handle (fun _ => True) q r ∧ r.flight = [] := by
  obtain ⟨r, hr, hdone⟩ := Pool.exists_drained rank (rank_handle (t := t)) (fun _ => False) q
  exact ⟨r, hr.mono fun _ _ => trivial, List.eq_nil_iff_forall_not_mem.mpr hdone⟩

private theorem exists_block {k : κ} (hfound : t.Found k) {S : Finset κ} (hapart : t.Apart k S) :
    ∃ taken before after, Pool.Reaches t.handle (fun _ => True) t.start
        ⟨taken, before ++ .repNode 0 (t.bucket k / t.arity) :: after⟩ ∧ taken ⊆ S ∧
      ∀ s ∈ S, ∀ m ∈ before ++ .repNode 0 (t.bucket k / t.arity) :: after, ¬ t.OnPath s m := by
  -- Hold back the block itself and every key outside the set.
  let held (m : Msg κ) : Prop :=
    m = .repNode 0 (t.bucket k / t.arity) ∨ ∃ s, s ∉ S ∧ m = .putVal s
  obtain ⟨q, hreach, hheld⟩ := Pool.exists_drained rank (rank_handle (t := t)) held t.start
  have hearly := hreach.progress (fun m => t.OnPath k m ∧ rank m ≥ 4) (fun _ => False)
    (fun _ _ h => h) ?_ ?_
  · obtain ⟨m, hm, hpath, hrank⟩ := hearly.resolve_left id
    have hblock : m = .repNode 0 (t.bucket k / t.arity) := by
      rcases hheld m hm with h | ⟨s, -, rfl⟩
      · exact h
      · simp [rank] at hrank
    obtain ⟨before, after, hflight⟩ := List.append_of_mem hm
    rw [hblock] at hflight
    have hq : q = ⟨q.state, before ++ .repNode 0 (t.bucket k / t.arity) :: after⟩ := by
      rw [← hflight]
    refine ⟨q.state, before, after, hq ▸ hreach.mono fun _ _ => trivial, ?_, ?_⟩
    · intro s hs
      obtain ⟨-, hallowed, -⟩ := exists_putVal hreach hs (by simp [start])
      by_contra hout
      exact hallowed (Or.inr ⟨s, hout, rfl⟩)
    · intro s hs m' hm' hpath'
      rw [← hflight] at hm'
      rcases hheld m' hm' with rfl | ⟨s', hs', rfl⟩
      · exact hapart s hs (by simpa [OnPath] using hpath'.symm)
      · obtain rfl : s' = s := hpath'
        exact hs' hs
  · rintro taken before after m hr hallowed ⟨hpath, hrank⟩
    right
    match m with
    | .reqNode h p => exact ⟨_, List.mem_singleton_self _, hpath, by simp [rank]⟩
    | .repNode 0 p =>
        exfalso
        apply hallowed
        left
        have hp : p = t.bucket k / t.arity ^ (0 + 1) := hpath
        simpa using hp
    | .repNode (h + 1) p =>
        have htest : t.Test k taken (.repNode (h + 1) p) := by
          have htop : h + 1 ≤ t.top := (passed hr _ (by simp) hpath).1
          rw [Test, t.differs_inner]
          exact hfound.2 h htop
        rcases advance hpath htest with hdone | hnext
        · exact absurd hdone (untaken hr (by simp) hpath)
        · exact ⟨_, hnext, onPath_successor hpath, by simp [successor, rank]⟩
    | .reqBucket _ => simp [rank] at hrank
    | .repBucket _ => simp [rank] at hrank
    | .getVal _ => simp [rank] at hrank
    | .putVal _ => simp [rank] at hrank
  · right
    have hroot : t.rootDiffers = true := hfound.1
    refine ⟨.reqNode t.top 0, by simp [start, hroot], ?_, by simp [rank]⟩
    exact (Nat.div_eq_of_lt (t.bucket_lt k)).symm

private theorem taken_of_reqBucket (hreach : Pool.Reaches t.handle (fun _ => True) t.start q)
    {k : κ}
    (hm : .reqBucket (t.bucket k) ∈ q.flight) (haccepts : t.accepts k) (hoffered : t.Offered k)
    (hfound : t.Found k) {r : Pool (Finset κ) (Msg κ)}
    (h : Pool.Reaches t.handle (fun _ => True) q r) (hend : r.flight = []) : k ∈ r.state := by
  have hlate := h.progress (fun m => t.OnPath k m ∧ rank m < 4) (fun taken => k ∈ taken)
    (fun s m hold => mem_handle.mpr (Or.inl hold)) ?_ (Or.inr ⟨_, hm, rfl, by simp [rank]⟩)
  · rcases hlate with hdone | ⟨m, hm', -⟩
    · exact hdone
    · simp [hend] at hm'
  · rintro taken before after m hr - ⟨hpath, hrank⟩
    have htest : t.Test k taken m := by
      refine test_of_static (hreach.trans hr) hpath haccepts hoffered hfound ?_
      rintro p rfl
      simp [rank] at hrank
    rcases advance hpath htest with hdone | hnext
    · exact Or.inl hdone
    · have hlower := rank_handle (t := t) taken m _ hnext
      exact Or.inr ⟨_, hnext, onPath_successor hpath, by omega⟩

/-- With every message delivered once, exactly the keys of `K` are taken. -/
def Pulls (t : TreePull κ) (K : Set κ) : Prop :=
  ∀ q, Pool.Reaches t.handle (fun _ => True) t.start q → q.flight = [] → ∀ k, k ∈ q.state ↔ k ∈ K

private theorem Complete.pulls (hC : t.Complete K) : t.Pulls K := by
  intro q hreach hend k
  constructor
  · intro hk
    exact hC.subset hreach hk
  · intro hk
    rcases hC.progress hreach hk with hdone | ⟨m, hm, -⟩
    · exact hdone
    · simp [hend] at hm

private theorem Pulls.differs_iff (hP : t.Pulls K) {k : κ} (haccepts : t.accepts k)
    (hoffered : t.Offered k) (hfound : t.Found k) {S : Finset κ} (hS : ↑S ⊆ K)
    (hapart : t.Apart k S) : t.differs S 0 (t.bucket k) ↔ k ∈ K := by
  obtain ⟨taken, before, after, hreach, hsub, hnone⟩ := exists_block hfound hapart
  have htaken : taken = S := by
    apply Finset.Subset.antisymm hsub
    intro s hs
    by_contra hout
    obtain ⟨r, hr, hend⟩ := exists_completion
      (t := t) ⟨taken, before ++ .repNode 0 (t.bucket k / t.arity) :: after⟩
    exact lost hr hout (hnone s hs) ((hP r (hreach.trans hr) hend s).mpr (hS hs))
  subst htaken
  have hpath : t.OnPath k (.repNode 0 (t.bucket k / t.arity)) := by simp [OnPath]
  have hnext : Pool.Reaches t.handle (fun _ => True) t.start _ := .tail hreach trivial
  obtain ⟨r, hr, hend⟩ := exists_completion (t := t) ⟨_, before ++ after ++
    (t.handle taken (.repNode 0 (t.bucket k / t.arity))).2⟩
  rw [← hP r (hnext.trans hr) hend k]
  constructor
  · intro hdiffers
    have hmem : .reqBucket (t.bucket k) ∈
        (t.handle taken (.repNode 0 (t.bucket k / t.arity))).2 :=
      List.mem_map_of_mem (List.mem_filter.mpr ⟨mem_children.mpr rfl, hdiffers⟩)
    exact taken_of_reqBucket hnext (List.mem_append_right _ hmem) haccepts hoffered hfound hr hend
  · intro hk
    by_contra hsame
    apply lost hr (untaken hreach (by simp) hpath) ?_ hk
    intro m hm hpath'
    rcases List.mem_append.mp hm with hold | hnew
    · exact alone hreach hpath m hold hpath'
    · obtain ⟨c, hc, rfl⟩ := List.mem_map.mp hnew
      obtain rfl : c = t.bucket k := hpath'
      exact hsame (List.mem_filter.mp hc).2

/-- The condition is not only enough: without it some order of delivery goes wrong. -/
theorem pulls_iff : t.Pulls K ↔ t.Complete K := by
  constructor
  · intro hP
    constructor
    · intro k hk
      obtain ⟨r, hr, hend⟩ := exists_completion t.start
      obtain ⟨haccepts, hoffered, hfound⟩ := taken_static hr ((hP r hr hend k).mpr hk)
      refine ⟨haccepts, hoffered, hfound, fun S hS hapart => ?_⟩
      exact (hP.differs_iff haccepts hoffered hfound hS hapart).mpr hk
    · intro k hout haccepts hoffered hfound S hS hapart
      apply Bool.eq_false_of_not_eq_true
      intro hdiffers
      exact hout ((hP.differs_iff haccepts hoffered hfound hS hapart).mp hdiffers)
  · exact Complete.pulls

end

/-- The messages that compare nodes. -/
def Drilling : Msg κ → Prop
  | .reqNode _ _ => True
  | .repNode _ _ => True
  | _ => False

section

variable {q : Pool (Finset κ) (Msg κ)}

private theorem state_of_drilling (h : Pool.Reaches t.handle Drilling t.start q) : q.state = ∅ := by
  rw [Finset.eq_empty_iff_forall_notMem]
  intro k hk
  exact (exists_putVal h hk (by simp [start])).2.1

private theorem differs_of_drilling (h : Pool.Reaches t.handle Drilling t.start q) :
    ∀ m ∈ q.flight, Drilling m ∨ ∃ b, m = .reqBucket b ∧ t.differs ∅ 0 b := by
  suffices hall : ∀ m ∈ q.flight, True → Drilling m ∨ ∃ b, m = .reqBucket b ∧ t.differs ∅ 0 b from
    fun m hm => hall m hm trivial
  refine h.along (fun _ _ _ _ _ => trivial) ?_ ?_
  · intro m hm _
    unfold start at hm
    split at hm
    · obtain rfl := List.mem_singleton.mp hm
      exact Or.inl trivial
    · simp at hm
  · intro s before after m hreach hm _ _ m' hm' _
    obtain rfl : s = ∅ := state_of_drilling hreach
    match m, hm with
    | .reqNode h' p, _ =>
        obtain rfl := List.mem_singleton.mp hm'
        exact Or.inl trivial
    | .repNode 0 p, _ =>
        obtain ⟨c, hc, rfl⟩ := List.mem_map.mp hm'
        exact Or.inr ⟨c, rfl, (List.mem_filter.mp hc).2⟩
    | .repNode (h' + 1) p, _ =>
        obtain ⟨c, -, rfl⟩ := List.mem_map.mp hm'
        exact Or.inl trivial

private theorem reqBucket_of_drilling (h : Pool.Reaches t.handle Drilling t.start q) {k : κ}
    (hfound : t.Found k) (hdiffers : t.differs ∅ 0 (t.bucket k)) :
    (∃ m ∈ q.flight, Drilling m) ∨ .reqBucket (t.bucket k) ∈ q.flight := by
  have hstage := h.progress (fun m => t.OnPath k m ∧ (Drilling m ∨ m = .reqBucket (t.bucket k)))
    (fun _ => False) (fun _ _ h => h) ?_ ?_
  · obtain ⟨m, hm, -, hdrilling | rfl⟩ := hstage.resolve_left id
    · exact Or.inl ⟨m, hm, hdrilling⟩
    · exact Or.inr hm
  · rintro taken before after m hreach hdrilling ⟨hpath, -⟩
    right
    obtain rfl : taken = ∅ := state_of_drilling hreach
    match m, hdrilling with
    | .reqNode h' p, _ => exact ⟨_, List.mem_singleton_self _, hpath, Or.inl trivial⟩
    | .repNode 0 p, _ =>
        have htest : t.Test k ∅ (.repNode 0 p) := by simpa [Test] using hdiffers
        have hnext := (advance hpath htest).resolve_left (by simp [handle])
        exact ⟨_, hnext, rfl, Or.inr rfl⟩
    | .repNode (h' + 1) p, _ =>
        have htest : t.Test k ∅ (.repNode (h' + 1) p) :=
          hfound.2 h' (passed hreach _ (by simp) hpath).1
        have hnext := (advance hpath htest).resolve_left (by simp [handle])
        exact ⟨_, hnext, rfl, Or.inl trivial⟩
  · right
    have hroot : t.rootDiffers = true := hfound.1
    refine ⟨.reqNode t.top 0, by simp [start, hroot], ?_, Or.inl trivial⟩
    exact (Nat.div_eq_of_lt (t.bucket_lt k)).symm

theorem drilled (hcover : ∀ b < t.arity ^ (t.top + 1), ∃ k, t.bucket k = b)
    (h : Pool.Reaches t.handle Drilling t.start q) (hend : ∀ m ∈ q.flight, ¬ Drilling m) :
    q.flight.Nodup ∧ ∀ m, m ∈ q.flight ↔
      ∃ k, m = .reqBucket (t.bucket k) ∧ t.Found k ∧ t.differs ∅ 0 (t.bucket k) := by
  have hbucket (m : Msg κ) (hm : m ∈ q.flight) :
      ∃ k, m = .reqBucket (t.bucket k) ∧ t.differs ∅ 0 (t.bucket k) := by
    obtain ⟨b, rfl, hdiffers⟩ := (differs_of_drilling h m hm).resolve_left (hend m hm)
    obtain ⟨k, rfl⟩ := hcover b (inside h _ hm)
    exact ⟨k, rfl, hdiffers⟩
  constructor
  · rw [List.nodup_iff_count_le_one]
    intro m
    by_cases hm : m ∈ q.flight
    · obtain ⟨k, rfl, -⟩ := hbucket m hm
      calc q.flight.count (.reqBucket (t.bucket k)) ≤ q.flight.countP (t.OnPath k) := by
            apply List.countP_mono_left
            intro m' _ heq
            obtain rfl : m' = .reqBucket (t.bucket k) := by simpa using heq
            simp [OnPath]
        _ ≤ 1 := (countP_onPath h k).1
    · simp [List.count_eq_zero_of_not_mem hm]
  · intro m
    constructor
    · intro hm
      obtain ⟨k, rfl, hdiffers⟩ := hbucket m hm
      exact ⟨k, rfl, passed h _ hm rfl, hdiffers⟩
    · rintro ⟨k, rfl, hfound, hdiffers⟩
      exact (reqBucket_of_drilling h hfound hdiffers).resolve_left fun hleft =>
        hleft.elim fun m hm => hend m hm.1 hm.2

/-- Every exchange can be carried on until all nodes are compared. -/
theorem exists_drilled (q : Pool (Finset κ) (Msg κ)) :
    ∃ r, Pool.Reaches t.handle Drilling q r ∧ ∀ m ∈ r.flight, ¬ Drilling m := by
  obtain ⟨r, hr, hdone⟩ :=
    Pool.exists_drained rank (rank_handle (t := t)) (fun m => ¬ Drilling m) q
  exact ⟨r, hr.mono fun m hm => not_not.mp hm, hdone⟩

end

end TreePull

end Framework
