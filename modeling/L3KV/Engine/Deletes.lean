import L3KV.Engine.Sequential
import L3KV.Engine.UserOps

/-!
# Deleted keys stay empty

A delete leaves an empty value and a sidecar that says so. Puts replace both, but patches and the
entries of a `batch_put` that wait on their shards write the value alone. Along a sequential run in
which these respect what is deleted, a key whose sidecar says tombstone is empty.
-/

namespace L3KV

open Framework

def Store.Buried (x : External) (st : Store) (key : Bytes) : Prop :=
  tombstoneFlag x.lite3 (st.get x (metaKey key) adminUid) = true

instance (x : External) (st : Store) (key : Bytes) : Decidable (st.Buried x key) :=
  inferInstanceAs (Decidable (_ = true))

/-- The operation may leave a value under the key. -/
def ShardOp.Revives (key : Bytes) : ShardOp → Prop
  | .del _ => False
  | o => o.key = key

private theorem ShardOp.Revives.key_eq {key : Bytes} {o : ShardOp} (h : o.Revives key) :
    o.key = key := by
  cases o with
  | del => cases h
  | _ => exact h

/-- A store of user keys and their sidecars. -/
structure Store.Tidy (x : External) (st : Store) : Prop where
  readable : st.Readable x
  only : ∀ key, st.find x key ≠ none → ∃ user, UserKey user ∧ (key = user ∨ key = metaKey user)
  small : ∀ key, UserKey key → (st.get x (metaKey key) adminUid).length < 2 ^ 16

section

variable {x : External} {st st' : Store} {o : ShardOp} {fields : Bytes → Prop} {key : Bytes}

private theorem ShardOp.OfUsers.key_cases {l : Lite3} (h : o.OfUsers l fields) :
    ∃ user, UserKey user ∧ (o.key = user ∨ o.key = metaKey user) := by
  cases h with
  | value hkey => exact ⟨_, hkey, Or.inl rfl⟩
  | sidecar hkey => exact ⟨_, hkey, Or.inr rfl⟩
  | stamp hkey => exact ⟨_, hkey, Or.inr rfl⟩

private theorem get_put_sidecar (hx : x.Lawful) {ts : Timestamp} {tombstone : Bool}
    {metaVal : Bytes}
    (hmeta : metaObject x.lite3 ts tombstone = some metaVal)
    (happly : st.apply x (.put (metaKey key) metaVal) = some st') :
    st'.get x (metaKey key) adminUid = metaVal := by
  obtain ⟨st₁, happly₁, -, hholding, -⟩ :=
    st.apply_leaves (leaves_metaObject hx.lite3 hmeta (metaKey key))
  rw [happly] at happly₁
  cases happly₁
  exact hholding.get_eq hx.zstd (lt_trans (hx.smallMeta _ _ _ hmeta) (by decide))

private theorem get_del (happly : st.apply x (.del key) = some st') :
    st'.get x key adminUid = [] := by
  cases happly
  have hfind : (st.applyDel x key).find x key = some Blob.empty := by
    rw [Store.applyDel_find, if_pos rfl]
  rw [get_eq_read hfind]
  rfl

theorem sidecar_of_apply (hx : x.Lawful) (hpatch : x.Patchable) (hst : st.Readable x)
    (ho : o.OfUsers x.lite3 fields) (hfits : o.Fits x (2 ^ 16) st)
    (happly : st.apply x o = some st') (hkey : UserKey key) :
    st'.get x (metaKey key) adminUid = st.get x (metaKey key) adminUid ∨
      (∃ ts tombstone metaVal, o = .put (metaKey key) metaVal ∧
        metaObject x.lite3 ts tombstone = some metaVal ∧
        st'.get x (metaKey key) adminUid = metaVal) ∨
      ∃ field text buf, o = .patchStr (metaKey key) field text ∧
        x.lite3.setStr (st.patchBase x (metaKey key)) field text = some buf ∧
        buf.length < 2 ^ 16 ∧ st'.get x (metaKey key) adminUid = buf := by
  by_cases hother : metaKey key = o.key
  · right
    cases ho with
    | value ho => exact absurd hother (hkey.metaKey_ne ho)
    | @sidecar user ts tombstone metaVal huser hmeta =>
        obtain rfl : key = user := hkey.metaKey_inj huser hother
        exact Or.inl ⟨ts, tombstone, metaVal, rfl, hmeta, get_put_sidecar hx hmeta happly⟩
    | @stamp user field text huser _ =>
        obtain rfl : key = user := hkey.metaKey_inj huser hother
        obtain ⟨buf, hset, hholding⟩ :=
          Store.applyPatch_holding hpatch.zstd (hst (metaKey key)) happly
        have hlen : buf.length < 2 ^ 16 := hfits ⟨key, hkey.metaKey_eq.symm⟩ buf hset
        exact Or.inr ⟨field, text, buf, rfl, hset, hlen,
          hholding.get_eq hx.zstd (lt_trans hlen (by decide))⟩
  · exact Or.inl (hst.get_apply_ne happly hother)

theorem Store.Tidy.apply (hx : x.Lawful) (hpatch : x.Patchable) (h : st.Tidy x)
    (ho : o.OfUsers x.lite3 fields) (hfits : o.Fits x (2 ^ 16) st)
    (happly : st.apply x o = some st') : st'.Tidy x where
  readable := Store.keeps_readable x st o st' h.readable happly
  only := by
    intro key hfind
    by_cases heq : key = o.key
    · rw [heq]
      exact ho.key_cases
    · rw [Store.apply_find_ne happly heq] at hfind
      exact h.only key hfind
  small := by
    intro key hkey
    rcases sidecar_of_apply hx hpatch h.readable ho hfits happly hkey with
      heq | ⟨ts, tombstone, metaVal, -, hmeta, heq⟩ | ⟨field, text, buf, -, -, hlen, heq⟩
    · rw [heq]
      exact h.small key hkey
    · rw [heq]
      exact hx.smallMeta _ _ _ hmeta
    · rw [heq]
      exact hlen

private theorem tombstoneFlag_setStr {l : Lite3} (hl : l.SetsText) {buf field text buf' : Bytes}
    (hne : buf ≠ []) (hset : l.setStr buf field text = some buf')
    (h : tombstoneFlag l buf' = true) : tombstoneFlag l buf = true := by
  have hempty : buf.isEmpty = false := by simpa using hne
  unfold tombstoneFlag at h ⊢
  split at h
  · cases h
  · rw [hempty]
    by_cases hfield : ascii "tombstone" = field
    · rw [hfield, hl.setStr_read hset] at h
      cases h
    · obtain ⟨htype, -, hbool⟩ := hl.setStr_frame hset hfield
      rw [htype, hbool] at h
      exact h

private theorem buried_of_apply (hx : x.Lawful) (hpatch : x.Patchable) (hst : st.Readable x)
    (ho : o.OfUsers x.lite3 fields) (hfits : o.Fits x (2 ^ 16) st)
    (happly : st.apply x o = some st') (hkey : UserKey key) (h : st'.Buried x key) :
    st.Buried x key ∨ ∃ ts metaVal, o = .put (metaKey key) metaVal ∧
      metaObject x.lite3 ts true = some metaVal := by
  unfold Store.Buried at h
  rcases sidecar_of_apply hx hpatch hst ho hfits happly hkey with
    heq | ⟨ts, tombstone, metaVal, hop, hmeta, heq⟩ | ⟨field, text, buf, -, hset, -, heq⟩
  · left
    rwa [heq] at h
  · right
    rw [heq, tombstoneFlag_reads (ReadsMeta.of_metaObject hx.lite3 hmeta)] at h
    exact ⟨ts, metaVal, hop, h ▸ hmeta⟩
  · left
    rw [heq] at h
    unfold Store.patchBase at hset
    split at hset
    · -- A fresh object has no such flag.
      obtain ⟨t, ht, hbool⟩ := hx.lite3.initObject_missing (ascii "tombstone")
      have hne : x.lite3.initObject ≠ [] := by
        obtain ⟨rest, hrest | hrest⟩ := hx.lite3.initObject_container <;> simp [hrest]
      have hflag := tombstoneFlag_setStr hpatch.lite3 hne hset h
      simp [tombstoneFlag, ht, hbool] at hflag
    · rename_i hfull
      exact tombstoneFlag_setStr hpatch.lite3 (fun hnil => hfull (by rw [hnil]; rfl)) hset h

end

/-- An entry of a `batch_put`, or its sidecar. -/
inductive ShardOp.Fills (l : Lite3) : ShardOp → Prop
  | value {key value : Bytes} (hkey : UserKey key) : Fills l (.put key value)
  | sidecar {key : Bytes} {ts : Timestamp} {metaVal : Bytes} (hkey : UserKey key)
      (hmeta : metaObject l ts false = some metaVal) : Fills l (.put (metaKey key) metaVal)

/-- The call applies its operations itself or waits for them. -/
def Work.Single : Work → Prop
  | .async _ => False
  | _ => True

/-- The call is going to replace the sidecar of the key by one without the flag. -/
def Work.Resets (l : Lite3) (work : Work) (key : Bytes) : Prop :=
  work.Single ∧ ∃ ts metaVal, .put (metaKey key) metaVal ∈ work.ops ∧
    metaObject l ts false = some metaVal

namespace Sequential

/-- Nothing that is left behind brings the key back. -/
def Unrevived (v : Sequential) (key : Bytes) : Prop := ∀ s, ∀ o ∈ v.left s, ¬ o.Revives key

def Calm (x : External) (v : Sequential) (key : Bytes) : Prop :=
  v.store.Buried x key → v.store.get x key adminUid = [] ∧ v.Unrevived key

/-- What the call under way still has to do. -/
inductive Own (x : External) (v : Sequential) : Work → Prop
  | batch {tasks} (htasks : ∀ w ∈ tasks, ∀ o ∈ w.2, routingShard x.xxh3 o.key = w.1 ∧
      o.Fills x.lite3 ∧ ∀ key, o.Revives key → UserKey key → ¬ v.store.Buried x key) :
      Own x v (.async tasks)
  | write {work key ts metaVal} (hsingle : work.Single) (hkey : UserKey key)
      (hmeta : metaObject x.lite3 ts false = some metaVal)
      (hops : (∃ value, work.ops = [.put key value, .put (metaKey key) metaVal]) ∨
        work.ops = [.put (metaKey key) metaVal]) : Own x v work
  /-- The delete comes after everything that brings the key back. -/
  | delete {work key ts metaVal} (hsingle : work.Single) (hkey : UserKey key)
      (hmeta : metaObject x.lite3 ts true = some metaVal)
      (hops : work.ops = [.del key, .put (metaKey key) metaVal])
      (hlast : (∃ task, work = .wait (routingShard x.xxh3 key) task) ∨ v.Unrevived key) : Own x v work
  | bury {work key ts metaVal} (hsingle : work.Single) (hkey : UserKey key)
      (hmeta : metaObject x.lite3 ts true = some metaVal)
      (hops : work.ops = [.put (metaKey key) metaVal])
      (hempty : v.store.get x key adminUid = []) (hlast : v.Unrevived key) : Own x v work
  | patch {work o field text} (hsingle : work.Single) (hkey : UserKey o.key)
      (hops : work.ops = [o, .patchStr (metaKey o.key) field text] ∨
        work.ops = [.patchStr (metaKey o.key) field text])
      (hlive : ¬ v.store.Buried x o.key) : Own x v work
  | done {work} (hsingle : work.Single) (hops : work.ops = []) : Own x v work

/-- What holds along a run that respects what is deleted. -/
structure DeletesKept (x : External) (v : Sequential) : Prop where
  tidy : v.store.Tidy x
  left : ∀ s, ∀ o ∈ v.left s, routingShard x.xxh3 o.key = s ∧ o.Fills x.lite3
  own : ∀ work ∈ v.own, v.Own x work
  calm : ∀ key, UserKey key → (∀ work ∈ v.own, ¬ work.Resets x.lite3 key) → v.Calm x key

end Sequential

section

variable {x : External} {o : ShardOp} {key : Bytes} {work rest : Work}

theorem ShardOp.Fills.ofUsers {l : Lite3} (h : o.Fills l) : o.OfUsers l fun _ => True := by
  cases h with
  | value hkey => exact .value hkey
  | sidecar hkey hmeta => exact .sidecar hkey hmeta

theorem ShardOp.Fills.fits (h : o.Fills x.lite3) (limit : Nat) (st : Store) :
    o.Fits x limit st := by
  cases h <;> trivial

private theorem metaObject_flag {l : Lite3} (hl : l.Lawful) {ts ts' : Timestamp} {b b' : Bool}
    {metaVal : Bytes} (h : metaObject l ts b = some metaVal)
    (h' : metaObject l ts' b' = some metaVal) : b = b' := by
  rw [← tombstoneFlag_reads (ReadsMeta.of_metaObject hl h),
    tombstoneFlag_reads (ReadsMeta.of_metaObject hl h')]

private theorem ShardOp.Fills.not_bury {l : Lite3} (hl : l.Lawful) (h : o.Fills l)
    (hkey : UserKey key)
    {ts : Timestamp} {metaVal : Bytes} (hop : o = .put (metaKey key) metaVal) :
    metaObject l ts true ≠ some metaVal := by
  intro hmeta
  cases h with
  | value hkey' =>
      cases hop
      exact hkey.metaKey_ne hkey' rfl
  | sidecar _ hmeta' =>
      obtain ⟨-, rfl⟩ := ShardOp.put.inj hop
      cases metaObject_flag hl hmeta hmeta'

theorem Work.next_ops (h : work.next = some (o, rest)) :
    work.ops = o :: rest.ops ∧ work.Single ∧ rest.Single := by
  cases work with
  | wait s task =>
      cases task with
      | nil => cases h
      | cons first ops =>
          cases h
          exact ⟨rfl, trivial, trivial⟩
  | async tasks => cases h
  | direct ops =>
      cases ops with
      | nil => cases h
      | cons first ops =>
          cases h
          exact ⟨rfl, trivial, trivial⟩

end

namespace Sequential

section

variable {x : External} {v : Sequential} {st : Store} {o : ShardOp} {fields : Bytes → Prop}
  {key : Bytes} {left : Fin 8 → List ShardOp} {own : Option Work} {work : Work}

theorem Unrevived.mono (h : v.Unrevived key) (hleft : ∀ s, ∀ o ∈ left s, o ∈ v.left s) :
    Unrevived ⟨st, own, left⟩ key := by
  intro s o ho
  exact h s o (hleft s o ho)

theorem Calm.perform (hx : x.Lawful) (hpatch : x.Patchable) (hst : v.store.Readable x)
    (h : v.Calm x key) (ho : o.OfUsers x.lite3 fields) (hfits : o.Fits x (2 ^ 16) v.store)
    (happly : v.store.apply x o = some st) (hkey : UserKey key)
    (hbury : ∀ ts metaVal, o = .put (metaKey key) metaVal →
      metaObject x.lite3 ts true ≠ some metaVal)
    (hrevive : o.Revives key → ¬ v.store.Buried x key)
    (hleft : ∀ s, ∀ o ∈ left s, o ∈ v.left s) : Calm x ⟨st, own, left⟩ key := by
  intro hburied
  have hbefore : v.store.Buried x key := by
    rcases buried_of_apply hx hpatch hst ho hfits happly hkey hburied with
      hold | ⟨ts, metaVal, hop, hmeta⟩
    · exact hold
    · exact absurd hmeta (hbury ts metaVal hop)
  obtain ⟨hempty, hlast⟩ := h hbefore
  refine ⟨?_, hlast.mono hleft⟩
  by_cases heq : key = o.key
  · subst heq
    cases o with
    | del k => exact get_del happly
    | _ => exact absurd hbefore (hrevive rfl)
  · rw [← hempty]
    exact hst.get_apply_ne happly heq

private theorem calm_of_reset (hx : x.Lawful) {ts : Timestamp} {metaVal : Bytes}
    (hmeta : metaObject x.lite3 ts false = some metaVal)
    (happly : v.store.apply x (.put (metaKey key) metaVal) = some st) :
    Calm x ⟨st, own, left⟩ key := by
  intro hburied
  rw [Store.Buried, get_put_sidecar hx hmeta happly,
    tombstoneFlag_reads (ReadsMeta.of_metaObject hx.lite3 hmeta)] at hburied
  cases hburied

private theorem eq_of_sidecar_mem {user metaVal metaVal' : Bytes} {ops : List ShardOp}
    (hkey : UserKey key) (huser : UserKey user)
    (hops : (∃ value, ops = [.put user value, .put (metaKey user) metaVal]) ∨
      ops = [.put (metaKey user) metaVal])
    (hmem : .put (metaKey key) metaVal' ∈ ops) : key = user := by
  rcases hops with ⟨value, rfl⟩ | rfl
  · rcases List.mem_pair.mp hmem with heq | heq
    · exact absurd (ShardOp.put.inj heq).1 (hkey.metaKey_ne huser)
    · exact hkey.metaKey_inj huser (ShardOp.put.inj heq).1
  · exact hkey.metaKey_inj huser (ShardOp.put.inj (List.mem_singleton.mp hmem)).1

private theorem Own.of_resets (hl : x.lite3.Lawful) (h : v.Own x work) (hkey : UserKey key)
    (hresets : work.Resets x.lite3 key) :
    ∃ ts metaVal, metaObject x.lite3 ts false = some metaVal ∧
      ((∃ value, work.ops = [.put key value, .put (metaKey key) metaVal]) ∨
        work.ops = [.put (metaKey key) metaVal]) := by
  obtain ⟨hsingle, ts, metaVal, hmem, hmeta⟩ := hresets
  cases h with
  | batch => cases hsingle
  | @write _ user _ metaVal' _ huser hmeta' hops =>
      obtain rfl : key = user := eq_of_sidecar_mem hkey huser hops hmem
      exact ⟨_, metaVal', hmeta', hops⟩
  | @delete _ user _ metaVal' _ huser hmeta' hops =>
      rw [hops] at hmem
      rcases List.mem_pair.mp hmem with heq | heq
      · cases heq
      · obtain ⟨-, rfl⟩ := ShardOp.put.inj heq
        cases metaObject_flag hl hmeta hmeta'
  | @bury _ user _ metaVal' _ huser hmeta' hops =>
      rw [hops] at hmem
      obtain ⟨-, rfl⟩ := ShardOp.put.inj (List.mem_singleton.mp hmem)
      cases metaObject_flag hl hmeta hmeta'
  | @patch _ o field text _ huser hops =>
      rcases hops with hops | hops
      · rw [hops] at hmem
        rcases List.mem_pair.mp hmem with heq | heq
        · rw [← heq] at huser
          exact absurd rfl (hkey.metaKey_ne huser)
        · cases heq
      · rw [hops] at hmem
        cases List.mem_singleton.mp hmem
  | done _ hops =>
      rw [hops] at hmem
      cases hmem

namespace DeletesKept

theorem catchUp (hx : x.Lawful) (hpatch : x.Patchable) (h : v.DeletesKept x) {s : Fin 8}
    {ops : List ShardOp} (hleft : v.left s = o :: ops) (happly : v.store.apply x o = some st) :
    DeletesKept x { v with store := st, left := Function.update v.left s ops } := by
  have hmem : o ∈ v.left s := by simp [hleft]
  have hfills := (h.left s o hmem).2
  have hsub : ∀ s', ∀ o' ∈ Function.update v.left s ops s', o' ∈ v.left s' := by
    intro s' o' ho'
    rw [Function.update_apply] at ho'
    split at ho'
    · rename_i heq
      rw [heq, hleft]
      exact List.mem_cons_of_mem _ ho'
    · exact ho'
  have hlive (key : Bytes) (hkey : UserKey key) (hkept : ¬ v.store.Buried x key) :
      ¬ st.Buried x key := by
    intro hburied
    rcases buried_of_apply hx hpatch h.tidy.readable hfills.ofUsers (hfills.fits _ _) happly hkey
      hburied with hold | ⟨ts, metaVal, hop, hmeta⟩
    · exact hkept hold
    · exact hfills.not_bury hx.lite3 hkey hop hmeta
  refine ⟨h.tidy.apply hx hpatch hfills.ofUsers (hfills.fits _ _) happly,
    fun s' o' ho' => h.left s' o' (hsub s' o' ho'), ?_, ?_⟩
  · intro work hwork
    cases h.own work hwork with
    | batch htasks =>
        refine .batch fun w hw o' ho' => ?_
        obtain ⟨hroute, hfills', hkept⟩ := htasks w hw o' ho'
        exact ⟨hroute, hfills', fun key hrevives hkey => hlive key hkey (hkept key hrevives hkey)⟩
    | write hsingle hkey hmeta hops => exact .write hsingle hkey hmeta hops
    | delete hsingle hkey hmeta hops hlast =>
        exact .delete hsingle hkey hmeta hops (hlast.imp_right fun hnone => hnone.mono hsub)
    | @bury _ key _ _ hsingle hkey hmeta hops hempty hlast =>
        have hne : key ≠ o.key := by
          rintro rfl
          refine hlast s o hmem ?_
          cases hfills <;> rfl
        refine .bury hsingle hkey hmeta hops ?_ (hlast.mono hsub)
        rw [← hempty]
        exact h.tidy.readable.get_apply_ne happly hne
    | patch hsingle hkey hops hkept => exact .patch hsingle hkey hops (hlive _ hkey hkept)
    | done hsingle hops => exact .done hsingle hops
  · intro key hkey hresets
    have hcalm := h.calm key hkey hresets
    exact hcalm.perform hx hpatch h.tidy.readable hfills.ofUsers (hfills.fits _ _) happly hkey
      (fun ts metaVal hop => hfills.not_bury hx.lite3 hkey hop)
      (fun hrevives hburied => (hcalm hburied).2 s o hmem hrevives) hsub

theorem hand (h : v.DeletesKept x) {s : Fin 8} {ops : List ShardOp}
    {tasks : List (Fin 8 × List ShardOp)} (hown : v.own = some (.async ((s, ops) :: tasks))) :
    DeletesKept x { v with
      own := some (.async tasks)
      left := Function.update v.left s (v.left s ++ ops) } := by
  have hbatch := h.own _ hown
  have hcalm (key : Bytes) (hkey : UserKey key) : v.Calm x key := by
    refine h.calm key hkey fun work hwork hresets => ?_
    rw [hown] at hwork
    cases hwork
    exact hresets.1
  cases hbatch with
  | batch htasks =>
      have hcases (s' : Fin 8) (o : ShardOp)
          (ho : o ∈ Function.update v.left s (v.left s ++ ops) s') :
          o ∈ v.left s' ∨ (s' = s ∧ o ∈ ops) := by
        rw [Function.update_apply] at ho
        split at ho
        · rename_i heq
          subst heq
          exact (List.mem_append.mp ho).imp_right fun hnew => ⟨rfl, hnew⟩
        · exact Or.inl ho
      refine ⟨h.tidy, ?_, ?_, ?_⟩
      · intro s' o ho
        rcases hcases s' o ho with hold | ⟨rfl, hnew⟩
        · exact h.left s' o hold
        · obtain ⟨hroute, hfills, -⟩ := htasks (s', ops) List.mem_cons_self o hnew
          exact ⟨hroute, hfills⟩
      · intro work hwork
        cases hwork
        exact .batch fun w hw => htasks w (List.mem_cons_of_mem _ hw)
      · intro key hkey _ hburied
        obtain ⟨hempty, hlast⟩ := hcalm key hkey hburied
        refine ⟨hempty, fun s' o ho hrevives => ?_⟩
        rcases hcases s' o ho with hold | ⟨rfl, hnew⟩
        · exact hlast s' o hold hrevives
        · exact (htasks (s', ops) List.mem_cons_self o hnew).2.2 key hrevives hkey hburied
  | write hsingle => cases hsingle
  | delete hsingle => cases hsingle
  | bury hsingle => cases hsingle
  | patch hsingle => cases hsingle
  | done hsingle => cases hsingle

private theorem calm_others (hx : x.Lawful) (hpatch : x.Patchable) (h : v.DeletesKept x)
    (ho : o.OfUsers x.lite3 fields) (hfits : o.Fits x (2 ^ 16) v.store)
    (happly : v.store.apply x o = some st) {other : Bytes} (hkey : UserKey key)
    (hother : UserKey other) (hne : other ≠ key) (hon : o.key = key ∨ o.key = metaKey key)
    (hresets : ∀ work ∈ v.own, ¬ work.Resets x.lite3 other) :
    Calm x ⟨st, own, v.left⟩ other := by
  refine (h.calm other hother hresets).perform hx hpatch h.tidy.readable ho hfits happly hother
    ?_ ?_ fun _ _ => id
  · rintro ts metaVal rfl
    rcases hon with hon | hon
    · exact absurd hon (hother.metaKey_ne hkey)
    · exact absurd (hother.metaKey_inj hkey hon) hne
  · intro hrevives
    rcases hon with hon | hon
    · exact absurd (hrevives.key_eq.symm.trans hon) hne
    · exact absurd (hon.symm.trans hrevives.key_eq) (hkey.metaKey_ne hother)

private theorem of_perform (hx : x.Lawful) (hpatch : x.Patchable) (h : v.DeletesKept x)
    {rest : Work}
    (ho : o.OfUsers x.lite3 fields) (hfits : o.Fits x (2 ^ 16) v.store)
    (happly : v.store.apply x o = some st) (hnew : Own x { v with store := st, own := some rest } rest)
    (hcalm : ∀ key, UserKey key → ¬ rest.Resets x.lite3 key →
      Calm x { v with store := st, own := some rest } key) :
    DeletesKept x { v with store := st, own := some rest } where
  tidy := h.tidy.apply hx hpatch ho hfits happly
  left := h.left
  own := by
    intro work' hwork'
    cases hwork'
    exact hnew
  calm key hkey hresets := hcalm key hkey (hresets rest rfl)

private theorem resets_own (hown : v.own = some work) (hresets : ¬ work.Resets x.lite3 key) :
    ∀ work ∈ v.own, ¬ work.Resets x.lite3 key := by
  intro work' hwork'
  rw [hown] at hwork'
  cases hwork'
  exact hresets

private theorem perform_sidecar (hx : x.Lawful) (hpatch : x.Patchable) (h : v.DeletesKept x)
    {rest : Work} {ts : Timestamp} {tombstone : Bool} {metaVal : Bytes} (hown : v.own = some work)
    (hhead : work.ops = o :: rest.ops) (hrest : rest.Single) (hfits : o.Fits x (2 ^ 16) v.store)
    (happly : v.store.apply x o = some st) (hkey : UserKey key)
    (hmeta : metaObject x.lite3 ts tombstone = some metaVal)
    (hops : work.ops = [.put (metaKey key) metaVal])
    (hcalm : v.store.apply x (.put (metaKey key) metaVal) = some st →
      Calm x { v with store := st, own := some rest } key) :
    DeletesKept x { v with store := st, own := some rest } := by
  have hnone {other : Bytes} (hother : UserKey other) (hne : other ≠ key) :
      ∀ work ∈ v.own, ¬ work.Resets x.lite3 other := by
    refine resets_own hown ?_
    rintro ⟨-, _, metaVal', hmem, -⟩
    exact hne (eq_of_sidecar_mem hother hkey (Or.inr hops) hmem)
  rw [hhead] at hops
  obtain ⟨rfl, hnil⟩ := List.cons.inj hops
  have hof : (ShardOp.put (metaKey key) metaVal).OfUsers x.lite3 fun _ => True :=
    .sidecar hkey hmeta
  refine of_perform hx hpatch h hof hfits happly (.done hrest hnil) fun other hother _ => ?_
  by_cases heq : other = key
  · rw [heq]
    exact hcalm happly
  · exact calm_others hx hpatch h hof hfits happly hkey hother heq (Or.inr rfl) (hnone hother heq)

private theorem perform_write (hx : x.Lawful) (hpatch : x.Patchable) (h : v.DeletesKept x)
    {rest : Work} {ts : Timestamp} {metaVal : Bytes} (hown : v.own = some work)
    (hhead : work.ops = o :: rest.ops) (hrest : rest.Single) (hfits : o.Fits x (2 ^ 16) v.store)
    (happly : v.store.apply x o = some st) (hkey : UserKey key)
    (hmeta : metaObject x.lite3 ts false = some metaVal)
    (hops : (∃ value, work.ops = [.put key value, .put (metaKey key) metaVal]) ∨
      work.ops = [.put (metaKey key) metaVal]) :
    DeletesKept x { v with store := st, own := some rest } := by
  rcases hops with ⟨value, hops⟩ | hops
  · have hnone {other : Bytes} (hother : UserKey other) (hne : other ≠ key) :
        ∀ work ∈ v.own, ¬ work.Resets x.lite3 other := by
      refine resets_own hown ?_
      rintro ⟨-, _, metaVal', hmem, -⟩
      exact hne (eq_of_sidecar_mem hother hkey (Or.inl ⟨value, hops⟩) hmem)
    rw [hhead] at hops
    obtain ⟨rfl, hlast⟩ := List.cons.inj hops
    have hof : (ShardOp.put key value).OfUsers x.lite3 fun _ => True := .value hkey
    refine of_perform hx hpatch h hof hfits happly (.write hrest hkey hmeta (Or.inr hlast)) ?_
    intro other hother hresets
    have hne : other ≠ key := by
      rintro rfl
      exact hresets ⟨hrest, ts, metaVal, by simp [hlast], hmeta⟩
    exact calm_others hx hpatch h hof hfits happly hkey hother hne (Or.inl rfl) (hnone hother hne)
  · exact perform_sidecar hx hpatch h hown hhead hrest hfits happly hkey hmeta hops
      (calm_of_reset hx hmeta)

private theorem perform_delete (hx : x.Lawful) (hpatch : x.Patchable) (h : v.DeletesKept x)
    {rest : Work} {ts : Timestamp} {metaVal : Bytes} (hown : v.own = some work)
    (hhead : work.ops = o :: rest.ops) (hrest : rest.Single)
    (hready : ∀ s task, work = .wait s task → v.left s = []) (hfits : o.Fits x (2 ^ 16) v.store)
    (happly : v.store.apply x o = some st) (hkey : UserKey key)
    (hmeta : metaObject x.lite3 ts true = some metaVal)
    (hops : work.ops = [.del key, .put (metaKey key) metaVal])
    (hlast : (∃ task, work = .wait (routingShard x.xxh3 key) task) ∨ v.Unrevived key) :
    DeletesKept x { v with store := st, own := some rest } := by
  have hnone {other : Bytes} (hother : UserKey other) : ∀ work ∈ v.own, ¬ work.Resets x.lite3 other := by
    refine resets_own hown fun hresets => ?_
    obtain ⟨_, _, -, ⟨value, hshape⟩ | hshape⟩ :=
      (h.own work hown).of_resets hx.lite3 hother hresets
    · rw [hops] at hshape
      cases hshape
    · rw [hops] at hshape
      cases hshape
  rw [hhead] at hops
  obtain ⟨rfl, hsidecar⟩ := List.cons.inj hops
  have hof : (ShardOp.del key).OfUsers x.lite3 fun _ => True := .value hkey
  have hunrevived : v.Unrevived key := by
    rcases hlast with ⟨task, rfl⟩ | hlast
    · -- Everything that brings the key back was on the shard the call has waited for.
      intro s o' ho' hrevives
      have hroute := (h.left s o' ho').1
      rw [hrevives.key_eq] at hroute
      rw [← hroute, hready _ task rfl] at ho'
      cases ho'
    · exact hlast
  refine of_perform hx hpatch h hof hfits happly
    (.bury hrest hkey hmeta hsidecar (get_del happly) hunrevived) fun other hother _ => ?_
  exact (h.calm other hother (hnone hother)).perform hx hpatch h.tidy.readable hof hfits happly
    hother (fun ts metaVal hop => by cases hop) (fun hrevives => by cases hrevives) fun _ _ => id

private theorem perform_bury (hx : x.Lawful) (hpatch : x.Patchable) (h : v.DeletesKept x)
    {rest : Work} {ts : Timestamp} {metaVal : Bytes} (hown : v.own = some work)
    (hhead : work.ops = o :: rest.ops) (hrest : rest.Single) (hfits : o.Fits x (2 ^ 16) v.store)
    (happly : v.store.apply x o = some st) (hkey : UserKey key)
    (hmeta : metaObject x.lite3 ts true = some metaVal)
    (hops : work.ops = [.put (metaKey key) metaVal]) (hempty : v.store.get x key adminUid = [])
    (hlast : v.Unrevived key) : DeletesKept x { v with store := st, own := some rest } := by
  refine perform_sidecar hx hpatch h hown hhead hrest hfits happly hkey hmeta hops ?_
  intro hput _
  refine ⟨?_, hlast⟩
  rw [← hempty]
  exact h.tidy.readable.get_apply_ne hput (Ne.symm (metaKey_ne key))

private theorem patch_calm (hx : x.Lawful) (hpatch : x.Patchable) (h : v.DeletesKept x)
    (ho : o.OfUsers x.lite3 fields) (hfits : o.Fits x (2 ^ 16) v.store)
    (happly : v.store.apply x o = some st) (hkey : UserKey key) (hkept : ¬ v.store.Buried x key)
    (hon : o.key = key ∨ o.key = metaKey key) (hput : ∀ metaVal, o ≠ .put (metaKey key) metaVal)
    (hnone : ∀ other, UserKey other → ∀ work ∈ v.own, ¬ work.Resets x.lite3 other) :
    ¬ st.Buried x key ∧ ∀ other, UserKey other → Calm x ⟨st, own, v.left⟩ other := by
  have hlive : ¬ st.Buried x key := by
    intro hburied
    rcases buried_of_apply hx hpatch h.tidy.readable ho hfits happly hkey hburied with
      hold | ⟨_, metaVal, hop, -⟩
    · exact hkept hold
    · exact hput metaVal hop
  refine ⟨hlive, fun other hother => ?_⟩
  by_cases heq : other = key
  · rw [heq]
    exact fun hburied => absurd hburied hlive
  · exact calm_others hx hpatch h ho hfits happly hkey hother heq hon (hnone other hother)

private theorem perform_patch (hx : x.Lawful) (hpatch : x.Patchable) (h : v.DeletesKept x)
    {rest : Work} {first : ShardOp} {field text : Bytes} (hown : v.own = some work)
    (hhead : work.ops = o :: rest.ops) (hrest : rest.Single) (hfits : o.Fits x (2 ^ 16) v.store)
    (happly : v.store.apply x o = some st) (hkey : UserKey first.key)
    (hops : work.ops = [first, .patchStr (metaKey first.key) field text] ∨
      work.ops = [.patchStr (metaKey first.key) field text])
    (hkept : ¬ v.store.Buried x first.key) :
    DeletesKept x { v with store := st, own := some rest } := by
  have hnone : ∀ other, UserKey other → ∀ work ∈ v.own, ¬ work.Resets x.lite3 other := by
    intro other hother
    refine resets_own hown ?_
    rintro ⟨-, _, metaVal, hmem, -⟩
    rcases hops with hops | hops
    · rw [hops] at hmem
      rcases List.mem_pair.mp hmem with heq | heq
      · rw [← heq] at hkey
        exact hother.metaKey_ne hkey rfl
      · cases heq
    · rw [hops] at hmem
      cases List.mem_singleton.mp hmem
  rcases hops with hops | hops
  · rw [hhead] at hops
    obtain ⟨rfl, hlast⟩ := List.cons.inj hops
    have hof : o.OfUsers x.lite3 fun _ => True := .value hkey
    have hput : ∀ metaVal, o ≠ .put (metaKey o.key) metaVal := by
      intro metaVal hop
      have hself : o.key = metaKey o.key := congrArg ShardOp.key hop
      exact metaKey_ne o.key hself.symm
    obtain ⟨hlive, hcalm⟩ := patch_calm hx hpatch h hof hfits happly hkey hkept (Or.inl rfl) hput hnone
    exact of_perform hx hpatch h hof hfits happly (.patch hrest hkey (Or.inr hlast) hlive)
      fun other hother _ => hcalm other hother
  · rw [hhead] at hops
    obtain ⟨rfl, hlast⟩ := List.cons.inj hops
    have hof : (ShardOp.patchStr (metaKey first.key) field text).OfUsers x.lite3 fun _ => True :=
      .stamp hkey trivial
    have hput : ∀ metaVal, ShardOp.patchStr (metaKey first.key) field text ≠
        .put (metaKey first.key) metaVal := fun _ hop => ShardOp.noConfusion hop
    obtain ⟨-, hcalm⟩ := patch_calm hx hpatch h hof hfits happly hkey hkept (Or.inr rfl) hput hnone
    exact of_perform hx hpatch h hof hfits happly (.done hrest hlast) fun other hother _ =>
      hcalm other hother

theorem perform (hx : x.Lawful) (hpatch : x.Patchable) (h : v.DeletesKept x) {rest : Work}
    (hown : v.own = some work) (hnext : work.next = some (o, rest))
    (hready : ∀ s task, work = .wait s task → v.left s = [])
    (hfits : o.Fits x (2 ^ 16) v.store) (happly : v.store.apply x o = some st) :
    DeletesKept x { v with store := st, own := some rest } := by
  obtain ⟨hhead, -, hrest⟩ := Work.next_ops hnext
  cases h.own work hown with
  | batch => cases hnext
  | write _ hkey hmeta hops =>
      exact perform_write hx hpatch h hown hhead hrest hfits happly hkey hmeta hops
  | delete _ hkey hmeta hops hlast =>
      exact perform_delete hx hpatch h hown hhead hrest hready hfits happly hkey hmeta hops hlast
  | bury _ hkey hmeta hops hempty hlast =>
      exact perform_bury hx hpatch h hown hhead hrest hfits happly hkey hmeta hops hempty hlast
  | patch _ hkey hops hkept =>
      exact perform_patch hx hpatch h hown hhead hrest hfits happly hkey hops hkept
  | done _ hops =>
      rw [hhead] at hops
      cases hops

theorem stop (hx : x.Lawful) (h : v.DeletesKept x) (hown : v.own = some work)
    (hstop : work.ops = [] ∨ ∃ o rest, work.next = some (o, rest) ∧ v.store.apply x o = none) :
    DeletesKept x { v with own := none } := by
  refine ⟨h.tidy, h.left, ?_, fun key hkey _ => ?_⟩
  · intro work' hwork'
    cases hwork'
  refine h.calm key hkey fun work' hwork' hresets => ?_
  rw [hown] at hwork'
  cases hwork'
  -- A write has operations and none of them throws.
  obtain ⟨_, metaVal, -, hshape⟩ := (h.own work hown).of_resets hx.lite3 hkey hresets
  rcases hstop with hnil | ⟨o, rest, hnext, hthrows⟩
  · rcases hshape with ⟨value, hshape⟩ | hshape
    · rw [hnil] at hshape
      cases hshape
    · rw [hnil] at hshape
      cases hshape
  · obtain ⟨hhead, -⟩ := Work.next_ops hnext
    rcases hshape with ⟨value, hshape⟩ | hshape
    · rw [hhead] at hshape
      obtain ⟨rfl, -⟩ := List.cons.inj hshape
      cases hthrows
    · rw [hhead] at hshape
      obtain ⟨rfl, -⟩ := List.cons.inj hshape
      cases hthrows

theorem step (hx : x.Lawful) (hpatch : x.Patchable) (h : v.DeletesKept x) {v' : Sequential}
    {performed : Option ShardOp} (hstep : v.Step x performed v')
    (hfits : ∀ o ∈ performed, o.Fits x (2 ^ 16) v.store) : v'.DeletesKept x := by
  cases hstep with
  | stay => exact h
  | hand hown => exact h.hand hown
  | perform hown hnext hready happly => exact h.perform hx hpatch hown hnext hready (hfits _ rfl) happly
  | stop hown hstop => exact h.stop hx hown hstop
  | catchUp hleft happly => exact h.catchUp hx hpatch hleft happly
  | @drop s o ops rest hleft happly =>
      -- What is left are puts.
      cases (h.left s o (by simp [hleft])).2 <;> cases happly

theorem begin (h : v.DeletesKept x) (hown : v.own = none) (hnew : v.Own x work) :
    DeletesKept x { v with own := some work } := by
  refine ⟨h.tidy, h.left, ?_, fun key hkey _ => ?_⟩
  · intro work' hwork'
    cases hwork'
    cases hnew with
    | batch htasks => exact .batch htasks
    | write hsingle hkey hmeta hops => exact .write hsingle hkey hmeta hops
    | delete hsingle hkey hmeta hops hlast => exact .delete hsingle hkey hmeta hops hlast
    | bury hsingle hkey hmeta hops hempty hlast => exact .bury hsingle hkey hmeta hops hempty hlast
    | patch hsingle hkey hops hkept => exact .patch hsingle hkey hops hkept
    | done hsingle hops => exact .done hsingle hops
  · refine h.calm key hkey fun work' hwork' => ?_
    rw [hown] at hwork'
    cases hwork'

end DeletesKept

end

end Sequential

/-- Patches and the entries of a `batch_put` leave deleted keys alone, and a mutation deletes a key
only when no entry of it waits on a shard. -/
def Call.RespectsDeletes (x : External) (m : Machine) : Call → Prop
  | .patchInt key _ _ _ => ¬ m.store.Buried x key
  | .patchStr key _ _ _ => ¬ m.store.Buried x key
  | .batchPut batch _ _ => ∀ key ∈ x.lite3.keys batch,
      batchValue x.lite3 batch key ≠ some none → ¬ m.store.Buried x key
  | .applyMutation mutation => mutation.isDelete = true →
      ∀ s, ∀ o ∈ m.queuedOps s, ¬ o.Revives mutation.key
  | _ => True

instance (key : Bytes) (o : ShardOp) : Decidable (o.Revives key) :=
  match o with
  | .del _ => isFalse id
  | .put k _ => inferInstanceAs (Decidable (k = key))
  | .patchInt k _ _ => inferInstanceAs (Decidable (k = key))
  | .patchStr k _ _ => inferInstanceAs (Decidable (k = key))

instance (x : External) (m : Machine) (call : Call) : Decidable (call.RespectsDeletes x m) :=
  match call with
  | .put .. => isTrue trivial
  | .del .. => isTrue trivial
  | .patchInt .. => inferInstanceAs (Decidable (¬ _))
  | .patchStr .. => inferInstanceAs (Decidable (¬ _))
  | .batchPut batch _ _ => inferInstanceAs (Decidable (∀ key ∈ x.lite3.keys batch, _ → _))
  | .applyMutation mutation => inferInstanceAs (Decidable (mutation.isDelete = true →
      ∀ s, ∀ o ∈ m.queuedOps s, ¬ o.Revives mutation.key))

def Event.call? : Event → Option Call
  | .start _ call => some call
  | _ => none

/-- A call that begins writes user keys and respects what is deleted, and patched sidecars stay
short enough for a message. -/
def Event.RespectsDeletes (x : External) (m : Machine) (event : Event) : Prop :=
  (∀ call ∈ event.call?,
    (∀ key ∈ call.keys x.lite3, UserKey key) ∧ call.RespectsDeletes x m) ∧
  ∀ o ∈ m.performs x event, o.Fits x (2 ^ 16) m.store

instance (x : External) (m : Machine) (event : Event) : Decidable (event.RespectsDeletes x m) :=
  inferInstanceAs (Decidable ((∀ call ∈ event.call?, _) ∧ ∀ o ∈ m.performs x event, _))

section

variable {x : External} {u : Nat → Nat → UInt8} {m : Machine} {v : Sequential}

private theorem own_of_prepare {call : Call} {clock : HybridLogicalClock} {plan : Plan}
    (hstore : v.store = m.store) (hleft : v.left = m.queuedOps)
    (hkeys : ∀ key ∈ call.keys x.lite3, UserKey key) (hrespects : call.RespectsDeletes x m)
    (h : m.engine.prepare x u call = some (clock, .accepted plan)) : v.Own x plan.work := by
  cases Engine.prepare_sound h with
  | put key body _ _ _ _ hmeta hwork =>
      have hkey : UserKey key := hkeys key (by simp [Call.keys])
      rw [hwork]
      exact .write trivial hkey hmeta (Or.inl ⟨body, rfl⟩)
  | del key _ _ _ _ hmeta hwork =>
      have hkey : UserKey key := hkeys key (by simp [Call.keys])
      rw [hwork]
      exact .delete trivial hkey hmeta rfl (Or.inl ⟨_, rfl⟩)
  | patchInt key field value =>
      have hkey : UserKey key := hkeys key (by simp [Call.keys])
      exact .patch (o := .patchInt key field value) trivial hkey (Or.inl rfl) (hstore ▸ hrespects)
  | patchStr key field value =>
      have hkey : UserKey key := hkeys key (by simp [Call.keys])
      exact .patch (o := .patchStr key field value) trivial hkey (Or.inl rfl) (hstore ▸ hrespects)
  | batchPut _ _ _ s hloop =>
      refine .batch fun w hw o ho => ?_
      obtain ⟨i, -, rfl⟩ := List.mem_map.mp (List.mem_filter.mp hw).1
      obtain ⟨hroute, hof⟩ := batch_works hloop i o ho
      refine ⟨hroute, ?_, ?_⟩
      · cases hof with
        | value hkey => exact .value (hkeys _ hkey)
        | sidecar hkey hmeta => exact .sidecar (hkeys _ hkey) hmeta
      · intro key hrevives hkey
        rw [hstore]
        cases hof with
        | @value key' value hkey' hvalue =>
            obtain rfl : key' = key := hrevives
            exact hrespects key' hkey' (by simp [hvalue])
        | @sidecar user ts metaVal huser _ =>
            have heq : metaKey user = key := hrevives
            exact absurd heq ((hkeys user huser).metaKey_ne hkey)
  | applyMutation mutation _ _ hplan =>
      have hkey : UserKey mutation.key := hkeys mutation.key (by simp [Call.keys])
      obtain ⟨metaVal, hmeta, hwork, -⟩ := mutationPlan_spec hplan
      rw [hwork]
      cases hdel : mutation.isDelete with
      | true =>
          rw [hdel] at hmeta
          refine .delete trivial hkey hmeta (by simp [Work.ops, Mutation.shardOp, hdel]) (Or.inr ?_)
          intro s o ho
          rw [hleft] at ho
          exact hrespects hdel s o ho
      | false =>
          rw [hdel] at hmeta
          exact .write trivial hkey hmeta
            (Or.inl ⟨mutation.value, by simp [Work.ops, Mutation.shardOp, hdel]⟩)

theorem Represents.tidy (hx : x.Lawful) {entries : Bytes → Option Entry} {st : Store}
    (h : Represents x st entries) : st.Tidy x where
  readable := by
    intro key b hfind
    obtain ⟨user, huser, heq⟩ := h.only key (by simp [hfind])
    have hreg := h.here user huser
    cases hentry : entries user with
    | none =>
        rw [hentry] at hreg
        rcases heq with rfl | rfl
        · cases hreg.1.symm.trans hfind
        · cases hreg.2.symm.trans hfind
    | some r =>
        rw [hentry] at hreg
        obtain ⟨⟨b₁, hb₁, hvalue⟩, metaVal, -, b₂, hb₂, hmeta⟩ := hreg
        rcases heq with rfl | rfl
        · cases hb₁.symm.trans hfind
          exact ⟨_, hvalue⟩
        · cases hb₂.symm.trans hfind
          exact ⟨_, hmeta⟩
  only := h.only
  small := by
    intro key hkey
    have hreg := h.here key hkey
    cases hentry : entries key with
    | none =>
        rw [hentry] at hreg
        rw [get_eq_nil hreg.2]
        decide
    | some r =>
        rw [hentry] at hreg
        exact hx.smallMeta _ _ _ (hreg.get_meta hx.zstd hx.smallMeta)

/-- Along such a run the deletes are kept. -/
theorem deletesKept_of_run (hx : x.Lawful) (hpatch : x.Patchable) {nodeId : UInt32}
    {events : List Event}
    (hseq : EveryStep (Machine.step x u) (.ofEngine (Engine.openOn x nodeId [])) events
      fun m event => event.OneByOne m)
    (hrespects : EveryStep (Machine.step x u) (.ofEngine (Engine.openOn x nodeId [])) events
      fun m event => event.RespectsDeletes x m)
    (hrun : (Machine.ofEngine (Engine.openOn x nodeId [])).run x u events = some m) :
    ∃ v, m.SeenAs v ∧ v.DeletesKept x := by
  refine run_invariant (fun _ m => ∃ v, m.SeenAs v ∧ v.DeletesKept x)
    (P := fun m event => event.OneByOne m ∧ event.RespectsDeletes x m) ?_ ?_
    (fun before event after hsplit m hm =>
      ⟨hseq before event after hsplit m hm, hrespects before event after hsplit m hm⟩) hrun
  · refine ⟨_, Machine.seenAs_ofEngine, represents_init.tidy hx, ?_, ?_, ?_⟩
    · intro s o ho
      have hnone : o ∈ ([] : List ShardOp) := ho
      cases hnone
    · intro work hwork
      cases hwork
    · intro key _ _ hburied
      have hnone : (Store.init x).find x (metaKey key) = none := by simp [Store.find, Store.init]
      have hflag : tombstoneFlag x.lite3 ((Store.init x).get x (metaKey key) adminUid) = true := hburied
      rw [get_eq_nil hnone] at hflag
      cases hflag
  · rintro _ m₁ event m₂ ⟨v, hseen, hkept⟩ ⟨hone, hcalls, hfits⟩ hnext
    obtain ⟨v', hseen', hstep | ⟨t, call, clock, plan, rfl, hprep, rfl⟩⟩ :=
      hseen.step (Machine.step_sound hnext) hone
    · refine ⟨v', hseen', hkept.step hx hpatch hstep ?_⟩
      rw [hseen.store_eq]
      exact hfits
    · obtain ⟨hown, hleft, -⟩ := hseen.own_eq_none hone.1
      obtain ⟨hkeys, hcall⟩ := hcalls call rfl
      exact ⟨_, hseen', hkept.begin hown (own_of_prepare hseen.store_eq hleft hkeys hcall hprep)⟩

end

end L3KV
