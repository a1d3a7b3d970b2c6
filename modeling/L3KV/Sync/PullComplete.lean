import L3KV.Sync.Pull

/-!
# What a pull gets across

The receiver of `SYNC_INIT` should end up with every entry of which the sender has a newer version.
It does so in every order of delivery under an exact condition on the two stores: the newer version
has another value, its bucket is seen to differ whatever was taken before, and the timestamp
survives the conversion to a `double`.
-/

namespace L3KV

open Framework

/-- The sender holds the key with a greater timestamp than the receiver. -/
def Outdated (x : External) (sender receiver : Store) (key : Bytes) : Prop :=
  UserKey key ∧ sender.find x key ≠ none ∧
    ∃ s t, receiver.stampOf x key = some s ∧ sender.stampOf x key = some t ∧ s < t

/-- The receiver has got the newer versions and nothing else. -/
def Pulled (x : External) (sender receiver after : Store) : Prop :=
  ∀ key, UserKey key →
    (Outdated x sender receiver key → after.stateOf x key = sender.stateOf x key) ∧
    (¬ Outdated x sender receiver key → after.stateOf x key = receiver.stateOf x key)

/-- The sender lists the key and the receiver asks for it: that compares values only, and an empty
value is always asked for. -/
def Offers (x : External) (sender receiver : Store) (key : Bytes) : Prop :=
  key ∈ listedKeys x sender (bucketOf x.xxh3 key) ∧
    (receiver.get x key adminUid = [] ∨ receiver.get x key adminUid ≠ sender.get x key adminUid)

/-- None of the keys falls into the block of sixteen buckets around that of the key. -/
def OutsideBlock (x : External) (key : Bytes) (S : Finset Bytes) : Prop :=
  ∀ s ∈ S, (bucketOf x.xxh3 s : Nat) / 16 ≠ bucketOf x.xxh3 key / 16

/-- The leaf of the receiver when the sidecars of these keys are those of the sender. -/
def leafWith (x : External) (sender receiver : Store) (S : Finset Bytes) (b : Fin 65536) : UInt64 :=
  receiver.merkle.leaves b ^^^ xorSum (S.filter fun key => bucketOf x.xxh3 (metaKey key) = b)
    fun key => receiver.keyHash x (metaKey key) ^^^ sender.keyHash x (metaKey key)

/-- The timestamps of the newer versions are as they were after they went through a double. -/
def StampsSurvive (x : External) (sender receiver : Store) : Prop :=
  ∀ key, Outdated x sender receiver key → ∀ t, sender.stampOf x key = some t → t.throughDouble = t

/-- The condition under which a pull gets everything across, and only that. -/
structure PullCondition (x : External) (sender receiver : Store) : Prop where
  exact : StampsSurvive x sender receiver
  offered : ∀ key, Outdated x sender receiver key → Offers x sender receiver key
  /-- The bucket differs, also after sidecars of other keys were taken that fall into it. -/
  seen : ∀ key, Outdated x sender receiver key → ∀ S : Finset Bytes,
    (∀ s ∈ S, Outdated x sender receiver s) → OutsideBlock x key S →
    leafWith x sender receiver S (bucketOf x.xxh3 key) ≠
      sender.merkle.leaves (bucketOf x.xxh3 key)
  /-- A version that only looks newer because its timestamp was rounded up is not come across. -/
  hidden : ∀ key, UserKey key → ¬ Outdated x sender receiver key →
    (∃ s t, receiver.stampOf x key = some s ∧ sender.stampOf x key = some t ∧
      s < t.throughDouble) → Offers x sender receiver key →
    (∃ i : Fin 65536, (i : Nat) / 16 = bucketOf x.xxh3 key / 16 ∧
      receiver.merkle.leaves i ≠ sender.merkle.leaves i) →
    ∀ S : Finset Bytes, (∀ s ∈ S, Outdated x sender receiver s) → OutsideBlock x key S →
      leafWith x sender receiver S (bucketOf x.xxh3 key) =
        sender.merkle.leaves (bucketOf x.xxh3 key)

/-- No two of the strings that are hashed collide, and none of the values has the hash zero. -/
structure NoCoincidence (x : External) (st st' : Store) : Prop where
  blocks : Set.InjOn x.xxh3 (treeBlocks x.xxh3 st.merkle.leaves ∪ treeBlocks x.xxh3 st'.merkle.leaves)
  values : Set.InjOn x.xxh3 (st.buffers x ∪ st'.buffers x)
  nonzero : ∀ s ∈ st.buffers x ∪ st'.buffers x, x.xxh3 s ≠ 0

/-- All strings that are hashed: the keys, what is stored under them, and the blocks of the trees. -/
def Involved (x : External) (st st' : Store) : Set Bytes :=
  { key | st.find x key ≠ none ∨ st'.find x key ≠ none } ∪ (st.buffers x ∪ st'.buffers x) ∪
    (treeBlocks x.xxh3 st.merkle.leaves ∪ treeBlocks x.xxh3 st'.merkle.leaves)

section

variable {x : External} {st st' : Store} {theirs mine : Bytes → Option Entry}

private theorem NoCoincidence.of_independent (h : XorIndependent x.xxh3 (Involved x st st')) :
    NoCoincidence x st st' where
  blocks := (h.mono Set.subset_union_right).injOn
  values := (h.mono fun _ hs => Or.inl (Or.inr hs)).injOn
  nonzero _ hs := h.ne_zero (Or.inl (Or.inr hs))

theorem NoCoincidence.withTree (h : NoCoincidence x st st') {t : MerkleTree}
    (hleaves : t.leaves = st.merkle.leaves) : NoCoincidence x { st with merkle := t } st' := by
  refine ⟨?_, h.values, h.nonzero⟩
  rw [hleaves]
  exact h.blocks

private theorem Registered.buffer {key : Bytes} {r : Entry} (h : Registered x st key (some r))
    (hdict : st.zstd.dict = none) : r.value ∈ st.buffers x := by
  obtain ⟨⟨b, hb, hholds⟩, -⟩ := h
  exact ⟨key, b, hb, (hholds.plain hdict).2⟩

private theorem wants_iff (hno : NoCoincidence x st st') (h : Represents x st theirs)
    (h' : Represents x st' mine) (hdict : st.zstd.dict = none) (hdict' : st'.zstd.dict = none)
    {key : Bytes} (hkey : UserKey key) {r : Entry} (hr : theirs key = some r) :
    comparedHash x (mine key) ≠ valueHash x (theirs key) ↔
      st'.get x key adminUid = [] ∨ st'.get x key adminUid ≠ st.get x key adminUid := by
  have hreg := h.here key hkey
  have hreg' := h'.here key hkey
  rw [hreg.get_plain hdict, hreg'.get_plain hdict', hr]
  rw [hr] at hreg
  have hbuf := hreg.buffer hdict
  have hne : x.xxh3 r.value ≠ 0 := hno.nonzero _ (Or.inl hbuf)
  cases hm : mine key with
  | none => simpa [comparedHash, valueHash] using hne.symm
  | some r' =>
      rw [hm] at hreg'
      by_cases hempty : r'.value = []
      · simpa [comparedHash, valueHash, hempty] using hne.symm
      · have hinj : x.xxh3 r'.value = x.xxh3 r.value ↔ r'.value = r.value :=
          ⟨fun heq => hno.values (Or.inr (hreg'.buffer hdict')) (Or.inl hbuf) heq,
            fun heq => by rw [heq]⟩
        simp [comparedHash, valueHash, hempty, hinj]

section

variable (hx : x.Lawful) (hsound : st.Sound x) (h : Represents x st theirs)
  (h' : Represents x st' mine) (hdict : st.zstd.dict = none) (hdict' : st'.zstd.dict = none)
  {users : Finset Bytes} (husers : ∀ user ∈ users, UserKey user)
  (hcover : ∀ user, UserKey user → theirs user ≠ none ∨ mine user ≠ none → user ∈ users)

include hx h h' in
private theorem outdated_iff {key : Bytes} : Outdated x st st' key ↔ UserKey key ∧
    ∃ r, theirs key = some r ∧ registerStamp Entry.stamp Timestamp.zero (mine key) < r.stamp := by
  constructor
  · rintro ⟨hkey, hfind, s, t, hs, ht, hlt⟩
    refine ⟨hkey, ?_⟩
    rw [stampOf_eq hx h hkey] at ht
    rw [stampOf_eq hx h' hkey] at hs
    cases hr : theirs key with
    | none =>
        have hreg := h.here key hkey
        rw [hr] at hreg
        exact absurd hreg.1 hfind
    | some r =>
        rw [hr] at ht
        cases ht
        cases hs
        exact ⟨r, rfl, hlt⟩
  · rintro ⟨hkey, r, hr, hlt⟩
    have hreg := h.here key hkey
    rw [hr] at hreg
    obtain ⟨⟨b, hb, -⟩, -⟩ := hreg
    refine ⟨hkey, by simp [hb], _, _, stampOf_eq hx h' hkey, stampOf_eq hx h hkey, ?_⟩
    rw [hr]
    exact hlt

include hx h h' in
private theorem pull_accepts_iff {leaves : Fin 65536 → UInt64} {key : Bytes} (hkey : UserKey key)
    (hthere : theirs key ≠ none) :
    (pull x hsound theirs mine leaves users).accepts key ↔
      ∃ s t, st'.stampOf x key = some s ∧ st.stampOf x key = some t ∧ s < t.throughDouble := by
  obtain ⟨r, hr⟩ := Option.ne_none_iff_exists'.mp hthere
  rw [stampOf_eq hx h hkey, stampOf_eq hx h' hkey, hr]
  simp only [pull, hashPull, hr, Option.any_some, Option.some.injEq, exists_and_left,
    exists_eq_left']
  exact decide_eq_true_iff

include h h' hdict hdict' in
private theorem pull_offered_iff (hno : NoCoincidence x st st') {leaves : Fin 65536 → UInt64}
    {key : Bytes} (hkey : UserKey key) (hthere : theirs key ≠ none) :
    (pull x hsound theirs mine leaves users).Offered key ↔ Offers x st st' key := by
  obtain ⟨r, hr⟩ := Option.ne_none_iff_exists'.mp hthere
  have hwants := wants_iff hno h h' hdict hdict' hkey hr
  have hlt := (bucketOf x.xxh3 key).isLt
  simp only [TreePull.Offered, Offers, pull, hashPull, if_pos hlt, taken, Finset.notMem_empty,
    if_false, decide_eq_true_eq, hwants]

include h h' hdict hdict' husers hcover in
private theorem pull_after (hexact : ∀ key r, theirs key = some r → Outdated x st st' key → r.sent = r)
    {key : Bytes} {S : Finset Bytes} (hS : ∀ s ∈ S, Outdated x st st' s)
    (hthere : ∀ s ∈ S, theirs s ≠ none) (hout : OutsideBlock x key S) :
    xorSum users (fun user => contribution x (bucketOf x.xxh3 key) user (taken theirs mine S user)) =
      leafWith x st st' S (bucketOf x.xxh3 key) := by
  have hmine : st'.merkle.leaves (bucketOf x.xxh3 key) =
      xorSum users fun user => contribution x (bucketOf x.xxh3 key) user (mine user) :=
    h'.leaf_eq hdict' husers (fun user huser hne => hcover user huser (Or.inr hne)) _
  have hsub : S ⊆ users := fun s hs => hcover s (hS s hs).1 (Or.inl (hthere s hs))
  rw [leafWith, hmine, xorSum_filter]
  -- Only what was taken makes a difference, and of that only the sidecars.
  have hdiff : xorSum S (fun user => if bucketOf x.xxh3 (metaKey user) = bucketOf x.xxh3 key then
        st'.keyHash x (metaKey user) ^^^ st.keyHash x (metaKey user) else 0) =
      xorSum users fun user => contribution x (bucketOf x.xxh3 key) user (mine user) ^^^
        contribution x (bucketOf x.xxh3 key) user (taken theirs mine S user) := by
    have hzero : ∀ user ∈ users, user ∉ S → contribution x (bucketOf x.xxh3 key) user (mine user) ^^^
        contribution x (bucketOf x.xxh3 key) user (taken theirs mine S user) = 0 := by
      intro user _ hout'
      simp [taken, hout']
    rw [xorSum_subset hsub hzero]
    refine xorSum_congr fun user huser => ?_
    obtain ⟨r, hr⟩ := Option.ne_none_iff_exists'.mp (hthere user huser)
    have hkey := (hS user huser).1
    have hbucket : bucketOf x.xxh3 user ≠ bucketOf x.xxh3 key := by
      intro heq
      exact hout user huser (by rw [heq])
    have hsent : taken theirs mine S user = theirs user := by
      simp [taken, huser, hr, hexact user r hr (hS user huser)]
    rw [hsent, ((h.here user hkey).keyHash hdict).2, ((h'.here user hkey).keyHash hdict').2]
    by_cases hmeta : bucketOf x.xxh3 (metaKey user) = bucketOf x.xxh3 key
    · simp [contribution, hbucket, hmeta]
    · simp [contribution, hbucket, hmeta]
  rw [hdiff, ← xorSum_xor]
  refine xorSum_congr fun user _ => ?_
  rw [← UInt64.xor_assoc, UInt64.xor_self, UInt64.zero_xor]

private theorem pull_found_iff (hno : NoCoincidence x st st') {key : Bytes} :
    (pull x hsound theirs mine st'.merkle.leaves users).Found key ↔
      ∃ i : Fin 65536, (i : Nat) / 16 = bucketOf x.xxh3 key / 16 ∧
        st'.merkle.leaves i ≠ st.merkle.leaves i := by
  have hunfold : (pull x hsound theirs mine st'.merkle.leaves users).Found key ↔
      scratchL0 x.xxh3 st'.merkle.leaves 0 ≠ scratchL0 x.xxh3 st.merkle.leaves 0 ∧
      ∀ height < 3, nodeAt x.xxh3 st'.merkle.leaves st'.merkle.leaves (height + 1)
          (bucketOf x.xxh3 key / 16 ^ (height + 1)) ≠
        nodeAt x.xxh3 st.merkle.leaves st.merkle.leaves (height + 1)
          (bucketOf x.xxh3 key / 16 ^ (height + 1)) := by
    simp only [TreePull.Found, pull, hashPull, decide_eq_true_eq]
    exact and_congr_right fun _ => forall₂_congr fun height _ => by
      rw [nodeAt_inner _ _ st'.merkle.leaves]
  rw [hunfold]
  constructor
  · rintro ⟨-, hfound⟩
    apply exists_leaf_ne
    simpa using hfound 0 (by decide)
  · rintro ⟨i, hblock, hne⟩
    refine ⟨root_ne hno.blocks hne, fun height hlow => ?_⟩
    have hindex : (bucketOf x.xxh3 key : Nat) / 16 ^ (height + 1) = i / 16 ^ (height + 1) := by
      rw [pow_succ', ← Nat.div_div_eq_div_mul, ← Nat.div_div_eq_div_mul, hblock]
    rw [hindex]
    exact nodeAt_ne hno.blocks hne (height + 1) hlow

include hx h h' hdict hdict' husers hcover in
private theorem pull_complete_iff (hno : NoCoincidence x st st') (hexact : StampsSurvive x st st') :
    (pull x hsound theirs mine st'.merkle.leaves users).Complete
      { key | Outdated x st st' key } ↔ PullCondition x st st' := by
  have hthere (key : Bytes) (hkey : Outdated x st st' key) : theirs key ≠ none := by
    obtain ⟨-, r, hr, -⟩ := (outdated_iff hx h h').mp hkey
    simp [hr]
  have hsent (key : Bytes) (r : Entry) (hr : theirs key = some r) (hkey : Outdated x st st' key) :
      r.sent = r := by
    have hstamp : st.stampOf x key = some r.stamp := by
      rw [stampOf_eq hx h hkey.1, hr]
      rfl
    rw [Entry.sent, hexact key hkey r.stamp hstamp]
  have hdiffers (key : Bytes) (S : Finset Bytes) (hS : ∀ s ∈ S, Outdated x st st' s)
      (hout : OutsideBlock x key S) :
      (pull x hsound theirs mine st'.merkle.leaves users).differs S 0 (bucketOf x.xxh3 key) ↔
        leafWith x st st' S (bucketOf x.xxh3 key) ≠ st.merkle.leaves (bucketOf x.xxh3 key) := by
    rw [← pull_after h h' hdict hdict' husers hcover hsent hS (fun s hs => hthere s (hS s hs)) hout]
    simp only [pull, hashPull, nodeAt, cellOr_eq, decide_eq_true_eq]
  constructor
  · intro hC
    refine ⟨hexact, fun key hkey => ?_, fun key hkey S hS hout => ?_, ?_⟩
    · have hwanted := (hC.wanted key hkey).2.1
      exact (pull_offered_iff hsound h h' hdict hdict' hno hkey.1 (hthere key hkey)).mp hwanted
    · exact (hdiffers key S hS hout).mp ((hC.wanted key hkey).2.2.2 S hS hout)
    · intro key huser hcurrent hnewer hoffers hblock S hS hout
      have hheld := Option.ne_none_iff_exists'.mpr (h.listed hoffers.1).2
      have hfalse := hC.unwanted key hcurrent
        ((pull_accepts_iff hx hsound h h' huser hheld).mpr hnewer)
        ((pull_offered_iff hsound h h' hdict hdict' hno huser hheld).mpr hoffers)
        ((pull_found_iff hsound hno).mpr hblock) S hS hout
      by_contra hne
      have htrue := (hdiffers key S hS hout).mpr hne
      exact Bool.false_ne_true (hfalse.symm.trans htrue)
  · intro hP
    constructor
    · intro key hkey
      have hkey' : Outdated x st st' key := hkey
      obtain ⟨huser, r, hr, hlt⟩ := (outdated_iff hx h h').mp hkey'
      refine ⟨?_, ?_, ?_, fun S hS hout => (hdiffers key S hS hout).mpr (hP.seen key hkey' S hS hout)⟩
      · obtain ⟨-, -, s, t, hs, ht, hst⟩ := hkey'
        refine (pull_accepts_iff hx hsound h h' huser (hthere key hkey)).mpr ⟨s, t, hs, ht, ?_⟩
        rw [hP.exact key hkey t ht]
        exact hst
      · exact (pull_offered_iff hsound h h' hdict hdict' hno huser (hthere key hkey)).mpr
          (hP.offered key hkey')
      · refine (pull_found_iff hsound hno).mpr ⟨bucketOf x.xxh3 key, rfl, ?_⟩
        simpa [leafWith] using hP.seen key hkey' ∅ (by simp) (by simp [OutsideBlock])
    · intro key hcurrent haccepts hoffered hfound S hS hout
      have hlisted : key ∈ listedKeys x st (bucketOf x.xxh3 key) := by
        simpa [pull, hashPull] using hoffered.1
      obtain ⟨huser, r, hr⟩ := h.listed hlisted
      have hheld : theirs key ≠ none := by simp [hr]
      have hsame := hP.hidden key huser hcurrent
        ((pull_accepts_iff hx hsound h h' huser hheld).mp haccepts)
        ((pull_offered_iff hsound h h' hdict hdict' hno huser hheld).mp hoffered)
        ((pull_found_iff hsound hno).mp hfound) S hS hout
      apply Bool.eq_false_of_not_eq_true
      intro hdiff
      exact (hdiffers key S hS hout).mp hdiff hsame

end

end

theorem Entry.state_stamp (r : Option Entry) :
    (Entry.state r).2.1 = some (registerStamp Entry.stamp Timestamp.zero r) := by
  cases r <;> rfl

private theorem pulled_iff_taken {x : External} {st st' after : Store}
    {theirs mine : Bytes → Option Entry}
    (hx : x.Lawful) (h : Represents x st theirs) (h' : Represents x st' mine)
    (hdict : st.zstd.dict = none) (hdict' : st'.zstd.dict = none) {S : Finset Bytes}
    (hafter : Represents x after (taken theirs mine S)) (hplain : after.zstd.dict = none)
    (hS : ∀ key ∈ S, UserKey key ∧ ∃ r, theirs key = some r ∧
      registerStamp Entry.stamp Timestamp.zero (mine key) < r.stamp.throughDouble) :
    Pulled x st st' after ↔ (∀ key, key ∈ S ↔ Outdated x st st' key) ∧ StampsSurvive x st st' := by
  have hstate {st : Store} {entries : Bytes → Option Entry} (h : Represents x st entries)
      (hdict : st.zstd.dict = none) {key : Bytes} (hkey : UserKey key) :
      st.stateOf x key = Entry.state (entries key) := (h.here key hkey).state_plain hx hdict
  constructor
  · intro hP
    have hmem (key : Bytes) : key ∈ S ↔ Outdated x st st' key := by
      constructor
      · intro hkey
        obtain ⟨huser, r, hr, hlt⟩ := hS key hkey
        by_contra hcurrent
        have hsame := (hP key huser).2 hcurrent
        rw [hstate hafter hplain huser, hstate h' hdict' huser] at hsame
        have hstamp := congrArg (fun s => s.2.1) hsame
        simp only [Entry.state_stamp, taken, if_pos hkey, hr] at hstamp
        exact hlt.ne (Option.some.inj hstamp).symm
      · intro hkey
        obtain ⟨huser, r, hr, hlt⟩ := (outdated_iff hx h h').mp hkey
        by_contra hout
        have hsame := (hP key huser).1 hkey
        rw [hstate hafter hplain huser, hstate h hdict huser] at hsame
        have hstamp := congrArg (fun s => s.2.1) hsame
        simp only [Entry.state_stamp, taken, if_neg hout, hr] at hstamp
        exact hlt.ne (Option.some.inj hstamp)
    refine ⟨hmem, fun key hkey t ht => ?_⟩
    obtain ⟨huser, r, hr, -⟩ := (outdated_iff hx h h').mp hkey
    have hsame := (hP key huser).1 hkey
    rw [hstate hafter hplain huser, hstate h hdict huser] at hsame
    have hstamp := congrArg (fun s => s.2.1) hsame
    simp only [Entry.state_stamp, taken, if_pos ((hmem key).mpr hkey), hr] at hstamp
    rw [stampOf_eq hx h huser, hr] at ht
    cases ht
    exact Option.some.inj hstamp
  · rintro ⟨hmem, hexact⟩ key huser
    constructor
    · intro hkey
      obtain ⟨-, r, hr, -⟩ := (outdated_iff hx h h').mp hkey
      have ht : st.stampOf x key = some r.stamp := by
        rw [stampOf_eq hx h huser, hr]
        rfl
      have hsent : r.sent = r := by rw [Entry.sent, hexact key hkey r.stamp ht]
      rw [hstate hafter hplain huser, hstate h hdict huser, taken, if_pos ((hmem key).mpr hkey), hr,
        Option.map_some, hsent]
    · intro hcurrent
      have hout : key ∉ S := fun hkey => hcurrent ((hmem key).mp hkey)
      rw [hstate hafter hplain huser, hstate h' hdict' huser, taken, if_neg hout]

theorem PullCondition.withTree {x : External} {st st' : Store} (h : PullCondition x st st')
    {t : MerkleTree} (hleaves : t.leaves = st.merkle.leaves) :
    PullCondition x { st with merkle := t } st' where
  exact := h.exact
  offered := h.offered
  seen key hkey S hS hout heq :=
    h.seen key hkey S hS hout (heq.trans (congrFun hleaves _))
  hidden key huser hcurrent hnewer hoffers hblock S hS hout := by
    obtain ⟨i, hi, hne⟩ := hblock
    have hsame := h.hidden key huser hcurrent hnewer hoffers
      ⟨i, hi, fun heq => hne (heq.trans (congrFun hleaves i).symm)⟩ S hS hout
    exact hsame.trans (congrFun hleaves _).symm

/-- The network after the roots were compared, as the start of a pull. -/
structure Opened (x : External) (u : Nat → Nat → UInt8) (a b : NodeID) (net net₁ net₂ : Network)
    (e : Engine) (theirs mine : Bytes → Option Entry) (users : Finset Bytes) : Prop where
  sender : Sender x e theirs
  tree : ∃ t : MerkleTree, e = (net.nodes a).withTree t ∧
    t.leaves = (net.nodes a).store.merkle.leaves
  receiver : Represents x (net.nodes b).store mine
  plain : (net.nodes b).store.zstd.dict = none
  user : ∀ user ∈ users, UserKey user
  cover : ∀ user, UserKey user → theirs user ≠ none ∨ mine user ≠ none → user ∈ users
  single : ∃ m, net₁.flight = [m]
  first : net₁.step x u (.deliver 0) = some net₂
  shows : net₂.Shows (pullWire x a b e.store)
    (Pulling x u a b e theirs mine (net.nodes b).store.merkle.leaves)
    (pull x sender.represents.sound theirs mine (net.nodes b).store.merkle.leaves users).start

section

variable {x : External} {u : Nat → Nat → UInt8} {a b : NodeID} {net net₁ : Network}

private theorem exists_users {st st' : Store} {theirs mine : Bytes → Option Entry}
    (h : Represents x st theirs) (h' : Represents x st' mine) :
    ∃ users : Finset Bytes, (∀ user ∈ users, UserKey user) ∧
      ∀ user, UserKey user → theirs user ≠ none ∨ mine user ≠ none → user ∈ users := by
  obtain ⟨s, hs, -⟩ := h.sound.leaves
  obtain ⟨s', hs', -⟩ := h'.sound.leaves
  have hfind {st : Store} {entries : Bytes → Option Entry} (h : Represents x st entries)
      {user : Bytes} (huser : UserKey user) (hne : entries user ≠ none) : st.find x user ≠ none := by
    obtain ⟨r, hr⟩ := Option.ne_none_iff_exists'.mp hne
    have hreg := h.here user huser
    rw [hr] at hreg
    obtain ⟨⟨blob, hblob, -⟩, -⟩ := hreg
    simp [hblob]
  refine ⟨(s ∪ s').filter UserKey, fun user huser => (Finset.mem_filter.mp huser).2, ?_⟩
  intro user huser hne
  refine Finset.mem_filter.mpr ⟨Finset.mem_union.mpr ?_, huser⟩
  rcases hne with hne | hne
  · exact Or.inl (hs user (hfind h huser hne))
  · exact Or.inr (hs' user (hfind h' huser hne))

private theorem exists_opened (hx : x.Lawful) (hab : a ≠ b) (hflight : net.flight = [])
    (hA : (net.nodes a).WrittenByUsers x) (hB : (net.nodes b).WrittenByUsers x)
    (hplainA : (net.nodes a).store.zstd.dict = none)
    (hgossip : net.step x u (.gossip a b) = some net₁) (hplain : net₁.StaysPlain x u b) :
    ∃ net₂ e theirs mine users, Opened x u a b net net₁ net₂ e theirs mine users := by
  obtain ⟨theirs, hrepA, hidleA, hwrittenA⟩ := hA.represents hx
  obtain ⟨mine, hrepB, hidleB, -⟩ := hB.represents hx
  obtain ⟨users, husers, hcover⟩ := exists_users hrepA hrepB
  obtain ⟨tA, tB, net₀, net₂, hsettledA, hleavesA, hsettledB, hleavesB, hgossip', hnodes₁, hopen,
    hinit, hnodes, hflight₂⟩ :=
    Network.exists_opening (u := u) hab hflight hrepA.sound.coherent hrepB.sound.coherent
  cases hgossip.symm.trans hgossip'
  have hnodeB₁ : net₁.nodes b = net.nodes b := by rw [hnodes₁, Function.update_of_ne hab.symm]
  have hplainB : (net.nodes b).store.zstd.dict = none := by
    rw [← hnodeB₁]
    exact hplain.dict
  have hrepA' : Represents x ((net.nodes a).withTree tA).store theirs :=
    ⟨hrepA.here, hrepA.only, hrepA.sound.settle hsettledA hleavesA⟩
  have hrepB' : Represents x ((net.nodes b).withTree tB).store mine :=
    ⟨hrepB.here, hrepB.only, hrepB.sound.settle hsettledB hleavesB⟩
  have hsender : Sender x ((net.nodes a).withTree tA) theirs :=
    ⟨hidleA, hrepA', hwrittenA, hsettledA, hplainA⟩
  have hnodeB : net₂.nodes b = (net.nodes b).withTree tB := by
    rw [hnodes, Function.update_self]
  refine ⟨net₂, (net.nodes a).withTree tA, theirs, mine, users, hsender, ⟨tA, rfl, hleavesA⟩, hrepB,
    hplainB, husers, hcover, ⟨_, hopen⟩, hinit, ?_, ?_, ?_, ?_, ?_, hplain.step hinit⟩
  · rw [hflight₂, ← hleavesB]
    exact (start_flight rfl rfl ..).symm
  · rw [hnodes, Function.update_of_ne hab, Function.update_self]
  · rw [hnodeB]
    exact hidleB
  · rw [hnodeB]
    have hempty : taken theirs mine ∅ = mine := by
      funext key
      simp [taken]
    rw [show (pull x hsender.represents.sound theirs mine (net.nodes b).store.merkle.leaves
      users).start.state = ∅ from rfl, hempty]
    exact hrepB'
  · rw [hnodeB, ← hleavesB]
    exact hsettledB.frozen

section

variable {net₂ net' : Network} {e : Engine} {theirs mine : Bytes → Option Entry}
  {users : Finset Bytes}

theorem Opened.run (hx : x.Lawful) (hab : a ≠ b)
    (h : Opened x u a b net net₁ net₂ e theirs mine users) {events : List Network.Event}
    (hevents : EveryStep (Network.step x u) net₁ events (Network.Delivers fun _ => True))
    (hrun : events.foldlM (Network.step x u) net₁ = some net') (hend : net'.flight = []) :
    ∃ q, Pool.Reaches (pull x h.sender.represents.sound theirs mine
        (net.nodes b).store.merkle.leaves users).handle (fun _ => True)
        (pull x h.sender.represents.sound theirs mine
          (net.nodes b).store.merkle.leaves users).start q ∧ q.flight = [] ∧
      Pulling x u a b e theirs mine (net.nodes b).store.merkle.leaves q.state net' := by
  obtain ⟨m, hsingle⟩ := h.single
  rcases Network.run_from_single hsingle h.first hevents hrun with ⟨-, rfl⟩ | ⟨rest, hrest, hrun⟩
  · rw [hsingle] at hend
    cases hend
  · obtain ⟨q, hreach, hshows⟩ := h.shows.run
      (pull_simulated hx hab h.sender h.user h.cover) TreePull.start_inside
      (fun _ _ => trivial) hrest hrun
    refine ⟨q, hreach, ?_, hshows.state⟩
    simpa using hshows.flight.symm.trans hend

/-- Every finished pull is a run. -/
theorem Opened.exists_run (hx : x.Lawful) (hab : a ≠ b)
    (h : Opened x u a b net net₁ net₂ e theirs mine users) {q : Pool (Finset Bytes) (TreePull.Msg Bytes)}
    (hreach : Pool.Reaches (pull x h.sender.represents.sound theirs mine
      (net.nodes b).store.merkle.leaves users).handle (fun _ => True)
      (pull x h.sender.represents.sound theirs mine
        (net.nodes b).store.merkle.leaves users).start q) (hend : q.flight = []) :
    ∃ events net', EveryStep (Network.step x u) net₁ events (Network.Delivers fun _ => True) ∧
      events.foldlM (Network.step x u) net₁ = some net' ∧ net'.flight = [] ∧
      Pulling x u a b e theirs mine (net.nodes b).store.merkle.leaves q.state net' := by
  obtain ⟨m, hsingle⟩ := h.single
  obtain ⟨rest, net', hrest, hrun, hshows⟩ := h.shows.exists_run (fun _ => True)
    (pull_simulated hx hab h.sender h.user h.cover) TreePull.start_inside (fun _ _ => trivial) hreach
  obtain ⟨events, hevents, hrun⟩ :=
    Network.exists_run_from_single hsingle trivial h.first hrest hrun
  refine ⟨events, net', hevents, hrun, ?_, hshows.state⟩
  rw [hshows.flight, hend]
  rfl

end

private theorem pull_taken {st : Store} {hsound : st.Sound x} {theirs mine : Bytes → Option Entry}
    (hrep : Represents x st theirs) {leaves : Fin 65536 → UInt64} {users : Finset Bytes}
    {q : Pool (Finset Bytes) (TreePull.Msg Bytes)}
    (h : Pool.Reaches (pull x hsound theirs mine leaves users).handle (fun _ => True)
      (pull x hsound theirs mine leaves users).start q) :
    ∀ key ∈ q.state, UserKey key ∧ ∃ r, theirs key = some r ∧
      registerStamp Entry.stamp Timestamp.zero (mine key) < r.stamp.throughDouble := by
  intro key hkey
  obtain ⟨haccepts, hoffered, -⟩ := TreePull.taken_static h hkey
  have hlisted : key ∈ listedKeys x st (bucketOf x.xxh3 key) := by
    simpa [pull, hashPull] using hoffered.1
  obtain ⟨huser, r, hr⟩ := hrep.listed hlisted
  refine ⟨huser, r, hr, ?_⟩
  simp only [pull, hashPull, hr, Option.any_some] at haccepts
  exact of_decide_eq_true haccepts

theorem exists_finished (hx : x.Lawful) (hab : a ≠ b) (hflight : net.flight = [])
    (hA : (net.nodes a).WrittenByUsers x) (hB : (net.nodes b).WrittenByUsers x)
    (hplainA : (net.nodes a).store.zstd.dict = none)
    (hgossip : net.step x u (.gossip a b) = some net₁) (hplain : net₁.StaysPlain x u b) :
    ∃ events net', EveryStep (Network.step x u) net₁ events (Network.Delivers fun _ => True) ∧
      events.foldlM (Network.step x u) net₁ = some net' ∧ net'.flight = [] := by
  obtain ⟨net₂, e, theirs, mine, users, ho⟩ :=
    exists_opened hx hab hflight hA hB hplainA hgossip hplain
  obtain ⟨q, hreach, hend⟩ := TreePull.exists_completion (t := pull x ho.sender.represents.sound
    theirs mine (net.nodes b).store.merkle.leaves users) (TreePull.start _)
  obtain ⟨events, net', hevents, hrun, hend', -⟩ := ho.exists_run hx hab hreach hend
  exact ⟨events, net', hevents, hrun, hend'⟩

private theorem unoffered_unchanged (hx : x.Lawful) (hab : a ≠ b) (hflight : net.flight = [])
    (hA : (net.nodes a).WrittenByUsers x) (hB : (net.nodes b).WrittenByUsers x)
    (hplainA : (net.nodes a).store.zstd.dict = none)
    (hno : NoCoincidence x (net.nodes a).store (net.nodes b).store)
    (hgossip : net.step x u (.gossip a b) = some net₁) (hplain : net₁.StaysPlain x u b)
    {events : List Network.Event} {net' : Network}
    (hevents : EveryStep (Network.step x u) net₁ events (Network.Delivers fun _ => True))
    (hrun : events.foldlM (Network.step x u) net₁ = some net') (hend : net'.flight = [])
    {key : Bytes} (hkey : UserKey key)
    (hoffers : ¬ Offers x (net.nodes a).store (net.nodes b).store key) :
    (net'.nodes b).store.stateOf x key = (net.nodes b).store.stateOf x key := by
  obtain ⟨net₂, e, theirs, mine, users, ho⟩ :=
    exists_opened hx hab hflight hA hB hplainA hgossip hplain
  obtain ⟨t, rfl, hleaves⟩ := ho.tree
  have hno' := hno.withTree hleaves
  obtain ⟨q, hreach, -, hpulling⟩ := ho.run hx hab hevents hrun hend
  have hout : key ∉ q.state := by
    intro hmem
    obtain ⟨-, r, hr, -⟩ := pull_taken ho.sender.represents hreach key hmem
    obtain ⟨-, hoffered, -⟩ := TreePull.taken_static hreach hmem
    refine hoffers ((pull_offered_iff ho.sender.represents.sound ho.sender.represents ho.receiver
      ho.sender.plain ho.plain hno' hkey (by simp [hr])).mp hoffered)
  rw [(hpulling.represents.here key hkey).state_plain hx hpulling.plain.dict,
    (ho.receiver.here key hkey).state_plain hx ho.plain, taken, if_neg hout]

/-- Whatever the order of delivery, a pull leaves the receiver with the newer versions of the
sender and changes nothing else, if and only if the two stores meet the condition. -/
theorem pulls_outdated_iff (hx : x.Lawful) (hab : a ≠ b) (hflight : net.flight = [])
    (hA : (net.nodes a).WrittenByUsers x) (hB : (net.nodes b).WrittenByUsers x)
    (hplainA : (net.nodes a).store.zstd.dict = none)
    (hno : NoCoincidence x (net.nodes a).store (net.nodes b).store)
    (hgossip : net.step x u (.gossip a b) = some net₁) (hplain : net₁.StaysPlain x u b) :
    (∀ events net', EveryStep (Network.step x u) net₁ events (Network.Delivers fun _ => True) →
      events.foldlM (Network.step x u) net₁ = some net' → net'.flight = [] →
      Pulled x (net.nodes a).store (net.nodes b).store (net'.nodes b).store) ↔
    PullCondition x (net.nodes a).store (net.nodes b).store := by
  obtain ⟨net₂, e, theirs, mine, users, ho⟩ :=
    exists_opened hx hab hflight hA hB hplainA hgossip hplain
  obtain ⟨t, rfl, hleaves⟩ := ho.tree
  have hno' := hno.withTree hleaves
  have htree : PullCondition x ((net.nodes a).withTree t).store (net.nodes b).store ↔
      PullCondition x (net.nodes a).store (net.nodes b).store :=
    ⟨fun h => h.withTree hleaves.symm, fun h => h.withTree hleaves⟩
  have hrep := ho.sender.represents
  have hiff {q : Pool (Finset Bytes) (TreePull.Msg Bytes)}
      (hreach : Pool.Reaches (pull x hrep.sound theirs mine (net.nodes b).store.merkle.leaves
        users).handle (fun _ => True) (pull x hrep.sound theirs mine
          (net.nodes b).store.merkle.leaves users).start q) {net' : Network}
      (hpulling : Pulling x u a b ((net.nodes a).withTree t) theirs mine
        (net.nodes b).store.merkle.leaves q.state net') :=
    pulled_iff_taken hx hrep ho.receiver ho.sender.plain ho.plain hpulling.represents
      hpulling.plain.dict (pull_taken hrep hreach)
  have hcomplete := pull_complete_iff hx hrep.sound hrep ho.receiver ho.sender.plain ho.plain
    ho.user ho.cover hno'
  constructor
  · intro hall
    have hpulled {q : Pool (Finset Bytes) (TreePull.Msg Bytes)}
        (hreach : Pool.Reaches (pull x hrep.sound theirs mine (net.nodes b).store.merkle.leaves
          users).handle (fun _ => True) (pull x hrep.sound theirs mine
            (net.nodes b).store.merkle.leaves users).start q) (hend : q.flight = []) :
        (∀ key, key ∈ q.state ↔ Outdated x (net.nodes a).store (net.nodes b).store key) ∧
          StampsSurvive x (net.nodes a).store (net.nodes b).store := by
      obtain ⟨events, net', hevents, hrun, hend', hpulling⟩ := ho.exists_run hx hab hreach hend
      exact (hiff hreach hpulling).mp (hall events net' hevents hrun hend')
    obtain ⟨q, hreach, hend⟩ := TreePull.exists_completion (t := pull x hrep.sound theirs mine
      (net.nodes b).store.merkle.leaves users) (TreePull.start _)
    refine htree.mp ((hcomplete (hpulled hreach hend).2).mp (TreePull.pulls_iff.mp ?_))
    exact fun q hreach hend key => (hpulled hreach hend).1 key
  · intro hcond events net' hevents hrun hend
    have hcond' := htree.mpr hcond
    obtain ⟨q, hreach, hq, hpulling⟩ := ho.run hx hab hevents hrun hend
    have hpulls := TreePull.pulls_iff.mpr ((hcomplete hcond'.exact).mpr hcond')
    exact (hiff hreach hpulling).mpr ⟨fun key => hpulls q hreach hq key, hcond'.exact⟩

end

private def metaOf (wall : Int64) : Bytes :=
  (metaObject Lite3.reference ⟨wall, 0, 1⟩ false).getD []

/-- The strings that are hashed when one node holds `k` at time 2 and the other at time 1. -/
private def pullStrings : List Bytes :=
  [ascii "k", ascii "k:meta", ascii "v", metaOf 2, metaOf 1,
    spikeBytes 0 0, spikeBytes 12 0, spikeBytes 20 0,
    spikeBytes 32 32, spikeBytes 64 32, spikeBytes 128 32,
    spikeBytes 256 256, spikeBytes 512 256, spikeBytes 1024 256,
    spikeBytes 2048 2048, spikeBytes 4096 2048, spikeBytes 8192 2048]

/-- A power of two for each of them. -/
private def pullHash (s : Bytes) : UInt64 :=
  if s ∈ pullStrings then 1 <<< UInt64.ofNat (pullStrings.idxOf s) else 0

private theorem pullHash_independent : XorIndependent pullHash { s | s ∈ pullStrings } := by
  have hbits : ∀ s ∈ pullStrings, (pullHash s).toNat = 2 ^ pullStrings.idxOf s := by decide +kernel
  refine XorIndependent.of_bits (e := pullStrings.idxOf) ?_ hbits
  intro s hs t _ heq
  exact (List.idxOf_inj hs).mp heq

private theorem pullHash_blocks : ∀ leaf ∈ [0, 12, 20],
    ∀ s ∈ spikeBlocks pullHash 4 leaf 0, s ∈ pullStrings := by
  intro leaf hleaf
  simp only [List.mem_cons, List.not_mem_nil, or_false] at hleaf
  rcases hleaf with rfl | rfl | rfl <;> decide +kernel

private def pullExternal : External := External.reference pullHash

/-- The registers of a node that holds `k` at this time only. -/
private def heldAt (wall : Int64) : Bytes → Option Entry :=
  Function.update (fun _ => none) (ascii "k") (some ⟨⟨wall, 0, 1⟩, ascii "v", false⟩)

private theorem heldAt_eq_some {wall : Int64} {key : Bytes} {r : Entry}
    (h : heldAt wall key = some r) : key = ascii "k" ∧ r = ⟨⟨wall, 0, 1⟩, ascii "v", false⟩ := by
  by_cases hkey : key = ascii "k"
  · subst hkey
    rw [heldAt, Function.update_self] at h
    exact ⟨rfl, (Option.some.inj h).symm⟩
  · rw [heldAt, Function.update_of_ne hkey] at h
    cases h

private theorem pullExternal_lawful : pullExternal.Lawful := External.reference_lawful pullHash

private theorem exists_heldAt (node : UInt32) {wall : Int64}
    (hpos : Timestamp.zero < ⟨wall, 0, 1⟩) :
    ∃ e, (Engine.openOn pullExternal node []).runCalls pullExternal (fun _ _ => 0)
        [.applyMutation ⟨⟨wall, 0, 1⟩, ascii "k", ascii "v", false⟩] = some e ∧
      Represents pullExternal e.store (heldAt wall) ∧ e.store.zstd.dict = none :=
  exists_applied pullExternal_lawful (fun _ _ => rfl) node
    (m := ⟨⟨wall, 0, 1⟩, ascii "k", ascii "v", false⟩) (by decide : UserKey (ascii "k")) hpos fun _ _ => 0

private theorem heldAt_leaves {st : Store} {wall : Int64}
    (h : Represents pullExternal st (heldAt wall))
    (hdict : st.zstd.dict = none) :
    st.merkle.leaves = spike (pullHash (ascii "v") ^^^ pullHash (metaOf wall)) 0 := by
  have hbuckets : bucketOf pullHash (ascii "k") = 0 ∧
      bucketOf pullHash (metaKey (ascii "k")) = 0 := by decide +kernel
  obtain ⟨metaVal, hmeta, -⟩ := metaObject_reads pullExternal_lawful.lite3 ⟨wall, 0, 1⟩ false
  have hmetaOf : metaOf wall = metaVal := by
    rw [metaOf, show metaObject Lite3.reference ⟨wall, 0, 1⟩ false = some metaVal from hmeta]
    rfl
  funext b
  rw [h.leaf_single hdict (by decide), hmetaOf]
  simp only [contribution, valueHash, sidecarHash, hmeta, Option.elim_some, spike]
  rw [show pullExternal.xxh3 = pullHash from rfl, hbuckets.1, hbuckets.2]
  by_cases hb : b = 0
  · subst hb
    rfl
  · have hval : (b : Nat) ≠ 0 := fun hzero => hb (Fin.ext hzero)
    rw [if_neg (Ne.symm hb), if_neg (Ne.symm hb), if_neg hval, UInt64.xor_self]

/-- Everything that is hashed in the store has its own power of two. -/
private structure Tabled (st : Store) : Prop where
  keys : ∀ key, st.find pullExternal key ≠ none → key ∈ pullStrings
  buffers : ∀ s ∈ st.buffers pullExternal, s ∈ pullStrings
  blocks : ∀ s ∈ treeBlocks pullHash st.merkle.leaves, s ∈ pullStrings

private theorem Tabled.independent {st st' : Store} (h : Tabled st) (h' : Tabled st') :
    XorIndependent pullHash (Involved pullExternal st st') := by
  refine pullHash_independent.mono fun s hs => ?_
  rcases hs with (hs | hs | hs) | hs | hs
  · exact hs.elim (h.keys s) (h'.keys s)
  · exact h.buffers s hs
  · exact h'.buffers s hs
  · exact h.blocks s hs
  · exact h'.blocks s hs

private theorem fresh_leaves (node : UInt32) :
    (Engine.openOn pullExternal node []).store.merkle.leaves = spike 0 0 := by
  funext b
  simp only [spike, ite_self]
  rfl

private theorem tabled_fresh (node : UInt32) :
    Tabled (Engine.openOn pullExternal node []).store := by
  have hnone (key : Bytes) : (Engine.openOn pullExternal node []).store.find pullExternal key = none :=
    rfl
  refine ⟨fun key hkey => absurd (hnone key) hkey, ?_, ?_⟩
  · rintro s ⟨key, b, hfind, -⟩
    cases (hnone key).symm.trans hfind
  · rw [fresh_leaves]
    exact fun s hs => pullHash_blocks 0 (by decide) s (treeBlocks_spike hs)

private theorem tabled_heldAt {st : Store} {wall : Int64} (hwall : wall = 1 ∨ wall = 2)
    (h : Represents pullExternal st (heldAt wall)) (hdict : st.zstd.dict = none) : Tabled st := by
  have hmeta : metaOf wall ∈ pullStrings := by
    rcases hwall with rfl | rfl <;> decide +kernel
  have hstored {key : Bytes} {b : Blob} (hfind : st.find pullExternal key = some b) :
      key ∈ pullStrings ∧ b.buf ∈ pullStrings := by
    rcases h.stored_single hdict hfind with ⟨rfl, hbuf⟩ | ⟨rfl, hbuf⟩
    · rw [hbuf]
      exact ⟨by decide +kernel, (by decide +kernel : ascii "v" ∈ pullStrings)⟩
    · refine ⟨by decide +kernel, ?_⟩
      have hbuf' : metaOf wall = b.buf := by
        rw [metaOf, show metaObject Lite3.reference ⟨wall, 0, 1⟩ false = some b.buf from hbuf]
        rfl
      rw [← hbuf']
      exact hmeta
  constructor
  · intro key hkey
    obtain ⟨b, hb⟩ := Option.ne_none_iff_exists'.mp hkey
    exact (hstored hb).1
  · rintro s ⟨key, b, hfind, rfl⟩
    exact (hstored hfind).2
  · rw [heldAt_leaves h hdict]
    have hleaf : pullHash (ascii "v") ^^^ pullHash (metaOf wall) ∈ [0, 12, 20] := by
      rcases hwall with rfl | rfl <;> decide +kernel
    exact fun s hs => pullHash_blocks _ hleaf s (treeBlocks_spike hs)

private theorem heldAt_state {st : Store} {wall : Int64}
    (h : Represents pullExternal st (heldAt wall))
    (hdict : st.zstd.dict = none) :
    st.stateOf pullExternal (ascii "k") = (ascii "v", some ⟨wall, 0, 1⟩, false) := by
  rw [(h.here (ascii "k") (by decide)).state_plain pullExternal_lawful hdict, heldAt,
    Function.update_self]
  rfl

private theorem writtenByUsers_heldAt {node : UInt32} {wall : Int64} {e : Engine}
    (hrun : (Engine.openOn pullExternal node []).runCalls pullExternal (fun _ _ => 0)
      [.applyMutation ⟨⟨wall, 0, 1⟩, ascii "k", ascii "v", false⟩] = some e) :
    e.WrittenByUsers pullExternal := by
  refine ⟨fun _ _ => 0, node, _, ?_, hrun⟩
  intro call hcall
  rw [List.mem_singleton.mp hcall]
  exact .mutation (by decide : UserKey (ascii "k"))

private def twoNodes (e e' : Engine) : Network := ⟨fun node => if node = 1 then e else e', []⟩

private theorem exists_gossip {e e' : Engine} (h : e.store.Sound pullExternal)
    (h' : e'.store.Sound pullExternal) (hdict : e.store.zstd.dict = none)
    (hdict' : e'.store.zstd.dict = none) :
    ∃ net₁, (twoNodes e e').step pullExternal (fun _ _ => 0) (.gossip 1 2) = some net₁ ∧
      net₁.StaysPlain pullExternal (fun _ _ => 0) 2 := by
  have hne : (1 : NodeID) ≠ 2 := by decide
  have hflight : (twoNodes e e').flight = [] := rfl
  obtain ⟨tA, -, net₁, -, -, -, -, -, hgossip, hnodes, -⟩ :=
    Network.exists_opening (x := pullExternal) (u := fun _ _ => 0) hne hflight h.coherent h'.coherent
  refine ⟨net₁, hgossip, Network.staysPlain_of_untrained (fun _ _ => rfl) (fun node => ?_) 2⟩
  rw [hnodes]
  by_cases hnode : node = 1
  · subst hnode
    rw [Function.update_self]
    exact hdict
  · have hother : (twoNodes e e').nodes node = e' := if_neg hnode
    rw [Function.update_of_ne hnode, hother]
    exact hdict'

/-- A newer version with the same value is not pulled: the timestamp of the second node stays. -/
theorem pull_same_value : ∃ (e e' : Engine) (net₁ net' : Network) (events : List Network.Event),
    (Engine.openOn pullExternal 1 []).runCalls pullExternal (fun _ _ => 0)
      [.applyMutation ⟨⟨2, 0, 1⟩, ascii "k", ascii "v", false⟩] = some e ∧
    (Engine.openOn pullExternal 2 []).runCalls pullExternal (fun _ _ => 0)
      [.applyMutation ⟨⟨1, 0, 1⟩, ascii "k", ascii "v", false⟩] = some e' ∧
    XorIndependent pullHash (Involved pullExternal e.store e'.store) ∧
    (twoNodes e e').step pullExternal (fun _ _ => 0) (.gossip 1 2) = some net₁ ∧
    net₁.StaysPlain pullExternal (fun _ _ => 0) 2 ∧
    EveryStep (Network.step pullExternal fun _ _ => 0) net₁ events (Network.Delivers fun _ => True) ∧
    events.foldlM (Network.step pullExternal fun _ _ => 0) net₁ = some net' ∧ net'.flight = [] ∧
    Outdated pullExternal e.store e'.store (ascii "k") ∧
    e.store.stateOf pullExternal (ascii "k") = (ascii "v", some ⟨2, 0, 1⟩, false) ∧
    (net'.nodes 2).store.stateOf pullExternal (ascii "k") =
      (ascii "v", some ⟨1, 0, 1⟩, false) := by
  have hne : (1 : NodeID) ≠ 2 := by decide
  have hkey : UserKey (ascii "k") := by decide
  obtain ⟨e, hrun, hrep, hdict⟩ := exists_heldAt 1 (by decide : Timestamp.zero < ⟨2, 0, 1⟩)
  obtain ⟨e', hrun', hrep', hdict'⟩ := exists_heldAt 2 (by decide : Timestamp.zero < ⟨1, 0, 1⟩)
  have hindependent := (tabled_heldAt (Or.inr rfl) hrep hdict).independent
    (tabled_heldAt (Or.inl rfl) hrep' hdict')
  obtain ⟨net₁, hgossip, hplain⟩ := exists_gossip hrep.sound hrep'.sound hdict hdict'
  have hA := writtenByUsers_heldAt hrun
  have hB := writtenByUsers_heldAt hrun'
  obtain ⟨events, net', hevents, hdelivered, hend⟩ :=
    @exists_finished pullExternal (fun _ _ => 0) 1 2 (twoNodes e e') net₁ pullExternal_lawful hne rfl
      hA hB hdict hgossip hplain
  refine ⟨e, e', net₁, net', events, hrun, hrun', hindependent, hgossip, hplain, hevents, hdelivered,
    hend, ?_, heldAt_state hrep hdict, ?_⟩
  · refine (outdated_iff pullExternal_lawful hrep hrep').mpr ⟨hkey, _, Function.update_self .., ?_⟩
    rw [heldAt, Function.update_self]
    decide
  · rw [← heldAt_state hrep' hdict']
    refine @unoffered_unchanged pullExternal (fun _ _ => 0) 1 2 (twoNodes e e') net₁
      pullExternal_lawful hne rfl hA hB hdict (.of_independent hindependent) hgossip hplain events net'
      hevents hdelivered hend (ascii "k") hkey ?_
    rintro ⟨-, hasked⟩
    have hget : e.store.get pullExternal (ascii "k") adminUid = ascii "v" :=
      congrArg Prod.fst (heldAt_state hrep hdict)
    have hget' : e'.store.get pullExternal (ascii "k") adminUid = ascii "v" :=
      congrArg Prod.fst (heldAt_state hrep' hdict')
    rcases hasked with hempty | hdiffers
    · exact absurd (hget'.symm.trans hempty) (by decide)
    · exact hdiffers (hget'.trans hget.symm)

private theorem outdated_fresh {e : Engine} (hrep : Represents pullExternal e.store (heldAt 2))
    {key : Bytes} : Outdated pullExternal e.store (Engine.openOn pullExternal 2 []).store key ↔
      key = ascii "k" := by
  rw [outdated_iff pullExternal_lawful hrep (represents_fresh _ 2)]
  constructor
  · rintro ⟨-, r, hr, -⟩
    exact (heldAt_eq_some hr).1
  · rintro rfl
    exact ⟨by decide, _, Function.update_self .., by decide⟩

private theorem pullCondition_fresh {e : Engine}
    (hrun : (Engine.openOn pullExternal 1 []).runCalls pullExternal (fun _ _ => 0)
      [.applyMutation ⟨⟨2, 0, 1⟩, ascii "k", ascii "v", false⟩] = some e)
    (hrep : Represents pullExternal e.store (heldAt 2)) (hdict : e.store.zstd.dict = none) :
    PullCondition pullExternal e.store (Engine.openOn pullExternal 2 []).store := by
  have hlisted : ascii "k" ∈ listedKeys pullExternal e.store (bucketOf pullHash (ascii "k")) := by
    have hall : ((Engine.openOn pullExternal 1 []).runCalls pullExternal (fun _ _ => 0)
        [.applyMutation ⟨⟨2, 0, 1⟩, ascii "k", ascii "v", false⟩]).map
          (fun e => listedKeys pullExternal e.store (bucketOf pullHash (ascii "k"))) =
        some [ascii "k"] := by decide +kernel
    rw [hrun, Option.map_some] at hall
    rw [Option.some.inj hall]
    exact List.mem_singleton_self _
  have honly {key : Bytes} {S : Finset Bytes} (hkey : key = ascii "k")
      (hS : ∀ s ∈ S, Outdated pullExternal e.store (Engine.openOn pullExternal 2 []).store s)
      (hout : OutsideBlock pullExternal key S) : S = ∅ := by
    refine Finset.eq_empty_of_forall_notMem fun s hs => hout s hs ?_
    rw [hkey, (outdated_fresh hrep).mp (hS s hs)]
  refine ⟨?_, ?_, ?_, ?_⟩
  · intro key hkey t ht
    rw [(outdated_fresh hrep).mp hkey, stampOf_eq pullExternal_lawful hrep (by decide), heldAt,
      Function.update_self] at ht
    cases ht
    decide +kernel
  · intro key hkey
    rw [(outdated_fresh hrep).mp hkey]
    exact ⟨hlisted, Or.inl rfl⟩
  · intro key hkey S hS hout
    have heq := (outdated_fresh hrep).mp hkey
    rw [honly heq hS hout, heq, heldAt_leaves hrep hdict, leafWith, fresh_leaves,
      Finset.filter_empty, xorSum_empty]
    decide +kernel
  · intro key huser hcurrent _ hoffers
    obtain ⟨-, r, hr⟩ := hrep.listed hoffers.1
    exact absurd ((outdated_fresh hrep).mpr (heldAt_eq_some hr).1) hcurrent

/-- A key that only the first node holds is pulled in every order of delivery. -/
theorem pulls_outdated_iff_fresh : ∃ (e : Engine) (net₁ : Network),
    (Engine.openOn pullExternal 1 []).runCalls pullExternal (fun _ _ => 0)
      [.applyMutation ⟨⟨2, 0, 1⟩, ascii "k", ascii "v", false⟩] = some e ∧
    (twoNodes e (Engine.openOn pullExternal 2 [])).step pullExternal (fun _ _ => 0)
      (.gossip 1 2) = some net₁ ∧
    ∀ events net', EveryStep (Network.step pullExternal fun _ _ => 0) net₁ events
        (Network.Delivers fun _ => True) →
      events.foldlM (Network.step pullExternal fun _ _ => 0) net₁ = some net' → net'.flight = [] →
      (net'.nodes 2).store.stateOf pullExternal (ascii "k") =
        (ascii "v", some ⟨2, 0, 1⟩, false) := by
  have hne : (1 : NodeID) ≠ 2 := by decide
  obtain ⟨e, hrun, hrep, hdict⟩ := exists_heldAt 1 (by decide : Timestamp.zero < ⟨2, 0, 1⟩)
  obtain ⟨net₁, hgossip, hplain⟩ := exists_gossip hrep.sound (represents_fresh _ 2).sound hdict rfl
  have hindependent := (tabled_heldAt (Or.inr rfl) hrep hdict).independent (tabled_fresh 2)
  have hB : (Engine.openOn pullExternal 2 []).WrittenByUsers pullExternal :=
    ⟨fun _ _ => 0, 2, [], by simp, rfl⟩
  have hpulled := (@pulls_outdated_iff pullExternal (fun _ _ => 0) 1 2
    (twoNodes e (Engine.openOn pullExternal 2 [])) net₁ pullExternal_lawful hne rfl
    (writtenByUsers_heldAt hrun) hB hdict (.of_independent hindependent) hgossip hplain).mpr
    (pullCondition_fresh hrun hrep hdict)
  refine ⟨e, net₁, hrun, hgossip, fun events net' hevents hdelivered hend => ?_⟩
  rw [← heldAt_state hrep hdict]
  exact (hpulled events net' hevents hdelivered hend (ascii "k") (by decide)).1
    ((outdated_fresh hrep).mpr rfl)

end L3KV
