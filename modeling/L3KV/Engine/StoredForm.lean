import L3KV.Engine.Compression

/-!
# What is stored is stored again unchanged

A replica stores the bytes that its peer reads back. Text that converts is stored as an object or an
array, whose first byte keeps it from being taken for text a second time. So every node on the way
of a value stores what the first one did.
-/

namespace L3KV

open Framework

namespace Blob

variable {l : Lite3} {z : Zstd} {m : ZstdManager} {data : Bytes}

private theorem overwrite_inactive (h : (overwrite l z m data).2.active = false) :
    (overwrite l z m data).1 = ⟨storedForm l data, false, 0⟩ := by
  unfold overwrite at h ⊢
  dsimp only at h ⊢
  split at h
  · rename_i hempty
    rw [if_pos hempty, List.isEmpty_iff.mp hempty, storedForm_nil]
    rfl
  · rename_i hdata
    rw [if_neg hdata, compress, if_pos (Bool.or_eq_true_iff.mpr (Or.inr (by rw [h]; rfl)))]
    rfl

private theorem overwrite_active (h : m.active = true) :
    overwrite l z m data = (compress z m { empty with buf := storedForm l data }, m) := by
  cases data with
  | nil => simp [overwrite, h, storedForm_nil, empty, compress]
  | cons b data => simp [overwrite, h]

end Blob

/-- A value on its way: each node stores what it is handed and hands on what it reads back. The list
is that of the nodes afterwards. -/
def Store.relay (x : External) (key : Bytes) : Bytes → List Store → List Store
  | _, [] => []
  | body, st :: nodes =>
      let st := st.applyPut x key body
      st :: relay x key (st.get x key adminUid) nodes

namespace Store

variable {x : External} {st : Store} {key body : Bytes}

private theorem applyPut_inactive (h : (st.applyPut x key body).zstd.active = false) :
    (st.applyPut x key body).find x key = some ⟨storedForm x.lite3 body, false, 0⟩ := by
  rw [applyPut_find, if_pos rfl, Blob.overwrite_inactive h]

private theorem applyPut_inactive_get (h : (st.applyPut x key body).zstd.active = false) :
    (st.applyPut x key body).get x key adminUid = storedForm x.lite3 body :=
  get_eq_read (applyPut_inactive h)

private theorem relay_find
    (hcontainer : ∀ {text buf}, x.lite3.fromJsonString text = some buf → Lite3.IsContainer buf)
    {nodes : List Store} (hinactive : ∀ st ∈ relay x key body nodes, st.zstd.active = false) :
    ∀ st ∈ relay x key body nodes, st.find x key = some ⟨storedForm x.lite3 body, false, 0⟩ := by
  induction nodes generalizing body with
  | nil =>
      intro st hst
      cases hst
  | cons first nodes ih =>
      rw [relay] at hinactive ⊢
      obtain ⟨hfirst, hnodes⟩ := List.forall_mem_cons.mp hinactive
      rw [applyPut_inactive_get hfirst] at hnodes ⊢
      refine List.forall_mem_cons.mpr ⟨applyPut_inactive hfirst, ?_⟩
      have hlater := ih hnodes
      rw [storedForm_idem hcontainer body] at hlater
      exact hlater

end Store

/-- What is read back is stored as it was: by a node whose manager is not active either, by any
number of them, and under the very manager if that is active. -/
theorem stored_form_fixed {x : External}
    (hcontainer : ∀ text buf, x.lite3.fromJsonString text = some buf → Lite3.IsContainer buf)
    (body : Bytes) :
    (∀ m m' stored again, Blob.overwrite x.lite3 x.zstd m body = stored →
      Blob.overwrite x.lite3 x.zstd m' (stored.1.read x.zstd stored.2) = again →
      stored.2.active = false → again.2.active = false →
        again.1 = stored.1 ∧ Store.hashOf x (some again.1) = Store.hashOf x (some stored.1)) ∧
    (∀ key nodes, (∀ st ∈ Store.relay x key body nodes, st.zstd.active = false) →
      ∀ st ∈ Store.relay x key body nodes,
        st.find x key = some ⟨storedForm x.lite3 body, false, 0⟩ ∧
        st.get x key adminUid = storedForm x.lite3 body ∧
        st.keyHash x key = x.xxh3 (storedForm x.lite3 body)) ∧
    (x.zstd.Lossless → (storedForm x.lite3 body).length < 2 ^ 32 →
      ∀ m stored, m.active = true → Blob.overwrite x.lite3 x.zstd m body = stored →
        Blob.overwrite x.lite3 x.zstd m (stored.1.read x.zstd stored.2) = stored) := by
  have hidem := storedForm_idem (hcontainer _ _) body
  refine ⟨?_, fun key nodes hinactive st hst => ?_, ?_⟩
  · rintro m m' _ _ rfl rfl hstored hagain
    rw [Blob.overwrite_inactive hagain, Blob.overwrite_inactive hstored]
    have hread : (⟨storedForm x.lite3 body, false, 0⟩ : Blob).read x.zstd
        (Blob.overwrite x.lite3 x.zstd m body).2 = storedForm x.lite3 body := rfl
    rw [hread, hidem]
    exact ⟨rfl, rfl⟩
  · have hfind := Store.relay_find (hcontainer _ _) hinactive st hst
    refine ⟨hfind, get_eq_read hfind, ?_⟩
    rw [Store.keyHash, hfind]
    rfl
  · rintro hz hlen m _ hactive rfl
    have hread := (Blob.overwrite_holds x.lite3 x.zstd m body).read hz hlen
    rw [hread, Blob.overwrite_active hactive, Blob.overwrite_active hactive, hidem]

/-- Libraries that convert every text to the same empty array. -/
def External.converting : External where
  lite3 := { Lite3.reference with fromJsonString := fun _ => some [0x07] }
  zstd := Zstd.plain
  xxh3 := fun _ => 0
  sortRules := id
  movedFrom := id

/-- A text that converts, handed on twice. -/
theorem stored_form_fixed_text :
    let x := External.converting
    let nodes := [Store.init x, Store.init x, Store.init x]
    (Store.relay x (ascii "k") (ascii "[]") nodes).length = 3 ∧
      ∀ st ∈ Store.relay x (ascii "k") (ascii "[]") nodes,
        st.get x (ascii "k") adminUid = [0x07] := by
  intro x nodes
  have hcontainer : ∀ text buf, x.lite3.fromJsonString text = some buf → Lite3.IsContainer buf := by
    rintro text _ ⟨⟩
    exact ⟨[], Or.inr rfl⟩
  have hinactive : ∀ st ∈ Store.relay x (ascii "k") (ascii "[]") nodes, st.zstd.active = false := by
    decide +kernel
  have hform : storedForm x.lite3 (ascii "[]") = [0x07] := by decide
  refine ⟨rfl, fun st hst => ?_⟩
  rw [← hform]
  exact ((stored_form_fixed hcontainer (ascii "[]")).2.1 (ascii "k") nodes hinactive st hst).2.1

end L3KV
