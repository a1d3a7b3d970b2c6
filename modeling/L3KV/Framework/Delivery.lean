import Mathlib.Data.Multiset.DershowitzManna
import Mathlib.Data.Nat.Find
import L3KV.Framework.Runs

/-!
# Messages delivered in any order

A handler takes a message in a state and answers with further messages. The messages in flight are
delivered one at a time in any order, each exactly once.
-/

namespace Framework

section

variable {μ : Type*} {rank : μ → Nat}

def Replaced (rank : μ → Nat) (flight flight' : List μ) : Prop :=
  ∃ before m after replies, flight = before ++ m :: after ∧ flight' = before ++ after ++ replies ∧
    ∀ reply ∈ replies, rank reply < rank m

theorem Replaced.ranks_lt {flight flight' : List μ} (h : Replaced rank flight flight') :
    Multiset.IsDershowitzMannaLT (flight'.map rank : Multiset Nat) (flight.map rank) := by
  obtain ⟨before, m, after, replies, rfl, rfl, hlower⟩ := h
  refine ⟨((before ++ after).map rank : List Nat), (replies.map rank : List Nat), {rank m},
    by simp, ?_, ?_, ?_⟩
  · simp
  · rw [← Multiset.coe_singleton, Multiset.coe_add, Multiset.coe_eq_coe]
    simp only [List.map_append, List.map_cons]
    exact List.perm_middle.trans (List.perm_append_singleton _ _).symm
  · intro n hn
    obtain ⟨reply, hreply, rfl⟩ := List.mem_map.mp (Multiset.mem_coe.mp hn)
    exact ⟨rank m, Multiset.mem_singleton_self _, hlower reply hreply⟩

/-- A flight that is left alone otherwise has messages replaced only finitely often. -/
theorem finitely_replaced {flights : Nat → List μ} {replaces : Nat → Prop}
    (hreplaces : ∀ n, replaces n → Replaced rank (flights n) (flights (n + 1)))
    (hother : ∀ n, ¬ replaces n → flights (n + 1) = flights n) :
    ∃ last, ∀ n, last ≤ n → ¬ replaces n := by
  by_contra hforever
  simp only [not_exists, not_forall, not_not] at hforever
  -- The next replacement after any moment finds the flight of that moment.
  have hnext (start : Nat) : ∃ n, Replaced rank (flights start) (flights n) := by
    classical
    have hexists : ∃ k, replaces (start + k) := by
      obtain ⟨n, hn, hrep⟩ := hforever start
      exact ⟨n - start, by rwa [Nat.add_sub_cancel' hn]⟩
    have hsame (k : Nat) (hk : k ≤ Nat.find hexists) : flights (start + k) = flights start := by
      induction k with
      | zero => rfl
      | succ k ih =>
          rw [← ih (Nat.le_of_succ_le hk)]
          exact hother (start + k) (Nat.find_min hexists hk)
    have hrep := hreplaces _ (Nat.find_spec hexists)
    rw [hsame _ (le_refl _)] at hrep
    exact ⟨_, hrep⟩
  have hnone (ranks : Multiset Nat) : ∀ n, (flights n).map rank ≠ ranks := by
    induction ranks using (Multiset.wellFounded_isDershowitzMannaLT (α := Nat)).induction with
    | h ranks ih =>
        intro n hn
        obtain ⟨n', hrep⟩ := hnext n
        exact ih _ (hn ▸ hrep.ranks_lt) n' rfl
  exact hnone _ 0 rfl

end

structure Pool (σ μ : Type*) where
  state : σ
  flight : List μ

namespace Pool

variable {σ μ : Type*}

/-- Deliver the message at this place of the flight. -/
def deliver (handle : σ → μ → σ × List μ) (p : Pool σ μ) (i : Nat) : Option (Pool σ μ) :=
  p.flight[i]?.map fun m =>
    ⟨(handle p.state m).1, p.flight.eraseIdx i ++ (handle p.state m).2⟩

/-- Pools reached by delivering messages that are allowed. -/
inductive Reaches (handle : σ → μ → σ × List μ) (allowed : μ → Prop) :
    Pool σ μ → Pool σ μ → Prop
  | refl (p : Pool σ μ) : Reaches handle allowed p p
  | tail {p : Pool σ μ} {s : σ} {before after : List μ} {m : μ}
      (h : Reaches handle allowed p ⟨s, before ++ m :: after⟩) (hm : allowed m) :
      Reaches handle allowed p ⟨(handle s m).1, before ++ after ++ (handle s m).2⟩

variable {handle : σ → μ → σ × List μ} {allowed : μ → Prop} {p q r : Pool σ μ}

theorem Reaches.trans (hpq : Reaches handle allowed p q) (hqr : Reaches handle allowed q r) :
    Reaches handle allowed p r := by
  induction hqr with
  | refl => exact hpq
  | tail _ hm ih => exact .tail ih hm

theorem Reaches.mono {allowed' : μ → Prop} (hsub : ∀ m, allowed m → allowed' m)
    (h : Reaches handle allowed p q) : Reaches handle allowed' p q := by
  induction h with
  | refl => exact .refl _
  | tail _ hm ih => exact .tail ih (hsub _ hm)

theorem getElem?_split {l : List μ} {i : Nat} {m : μ} (h : l[i]? = some m) :
    ∃ before after, l = before ++ m :: after ∧ l.eraseIdx i = before ++ after := by
  obtain ⟨hi, rfl⟩ := List.getElem?_eq_some_iff.mp h
  refine ⟨l.take i, l.drop (i + 1), ?_, List.eraseIdx_eq_take_drop_succ l i⟩
  rw [List.cons_getElem_drop_succ, List.take_append_drop]

theorem reaches_of_deliver {i : Nat} (h : p.deliver handle i = some q)
    (hallowed : ∀ m ∈ p.flight[i]?, allowed m) : Reaches handle allowed p q := by
  obtain ⟨m, hm, rfl⟩ := Option.map_eq_some_iff.mp h
  obtain ⟨before, after, hflight, herase⟩ := getElem?_split hm
  have hp : p = ⟨p.state, before ++ m :: after⟩ := by rw [← hflight]
  rw [herase]
  exact .tail (hp ▸ .refl p) (hallowed m hm)

theorem Reaches.flight_mem {kind : μ → Prop} (hp : ∀ m ∈ p.flight, kind m)
    (hkind : ∀ s m, kind m → ∀ m' ∈ (handle s m).2, kind m') (h : Reaches handle allowed p q) :
    ∀ m ∈ q.flight, kind m := by
  induction h with
  | refl => exact hp
  | @tail s before after m _ _ ih =>
      intro m' hm'
      have hold : ∀ m'' ∈ before ++ m :: after, kind m'' := ih
      rcases List.mem_append.mp hm' with h | h
      · exact hold m' (by
          rcases List.mem_append.mp h with h | h
          · exact List.mem_append_left _ h
          · exact List.mem_append_right _ (List.mem_cons_of_mem _ h))
      · exact hkind s m (hold m (by simp)) m' h

theorem Reaches.along {kind Q : μ → Prop} (hkind : ∀ s m m', m' ∈ (handle s m).2 → kind m' → kind m)
    (hp : ∀ m ∈ p.flight, kind m → Q m)
    (hstep : ∀ s before after m, Reaches handle allowed p ⟨s, before ++ m :: after⟩ → allowed m →
      kind m → Q m → ∀ m' ∈ (handle s m).2, kind m' → Q m')
    (h : Reaches handle allowed p q) : ∀ m ∈ q.flight, kind m → Q m := by
  induction h with
  | refl => exact hp
  | @tail s before after m hreach hm ih =>
      intro m' hm' hk
      have hold : ∀ m'' ∈ before ++ m :: after, kind m'' → Q m'' := ih
      rcases List.mem_append.mp hm' with hm' | hm'
      · apply hold m' _ hk
        rcases List.mem_append.mp hm' with h | h
        · exact List.mem_append_left _ h
        · exact List.mem_append_right _ (List.mem_cons_of_mem _ h)
      · have hfrom := hkind s m m' hm' hk
        exact hstep s before after m hreach hm hfrom (hold m (by simp) hfrom) m' hm' hk

theorem Reaches.extinct {kind : μ → Prop} (hkind : ∀ s m m', m' ∈ (handle s m).2 → kind m' → kind m)
    (h : Reaches handle allowed p q) (hp : ∀ m ∈ p.flight, ¬ kind m) :
    ∀ m ∈ q.flight, ¬ kind m :=
  h.along hkind hp fun _ _ _ _ _ _ _ hnone => hnone.elim

theorem Reaches.progress (stage : μ → Prop) (done : σ → Prop)
    (hdone : ∀ s m, done s → done (handle s m).1)
    (hstep : ∀ s before after m, Reaches handle allowed p ⟨s, before ++ m :: after⟩ → allowed m →
      stage m → done (handle s m).1 ∨ ∃ m' ∈ (handle s m).2, stage m')
    (h : Reaches handle allowed p q) (hp : done p.state ∨ ∃ m ∈ p.flight, stage m) :
    done q.state ∨ ∃ m ∈ q.flight, stage m := by
  induction h with
  | refl => exact hp
  | @tail s before after m hreach hm ih =>
      rcases ih with hold | ⟨m', hm', hstage⟩
      · exact Or.inl (hdone s m hold)
      · by_cases heq : m' = m
        · subst heq
          rcases hstep s before after m' hreach hm hstage with hnew | ⟨m'', hm'', hstage'⟩
          · exact Or.inl hnew
          · exact Or.inr ⟨m'', List.mem_append_right _ hm'', hstage'⟩
        · have hm'' : m' ∈ before ++ m :: after := hm'
          refine Or.inr ⟨m', List.mem_append_left _ ?_, hstage⟩
          simpa [heq] using hm''

theorem Reaches.unique (kind : μ → Prop) [DecidablePred kind] (spent : σ → Prop)
    (hkind : ∀ s m m', m' ∈ (handle s m).2 → kind m' → kind m)
    (hsingle : ∀ s m, (handle s m).2.countP kind ≤ 1)
    (hspent : ∀ s m, spent (handle s m).1 → ¬ spent s →
      kind m ∧ ∀ m' ∈ (handle s m).2, ¬ kind m')
    (h : Reaches handle allowed p q) (hcount : p.flight.countP kind ≤ 1)
    (hp : spent p.state → p.flight.countP kind = 0) :
    q.flight.countP kind ≤ 1 ∧ (spent q.state → q.flight.countP kind = 0) := by
  induction h with
  | refl => exact ⟨hcount, hp⟩
  | @tail s before after m _ _ ih =>
      have hzero (hnone : ∀ m' ∈ (handle s m).2, ¬ kind m') : (handle s m).2.countP kind = 0 :=
        List.countP_eq_zero.mpr fun m' hm' => by simpa using hnone m' hm'
      simp only [List.countP_append, List.countP_cons] at ih ⊢
      by_cases hk : kind m
      · simp only [hk, decide_true, if_true] at ih
        have hone := hsingle s m
        refine ⟨by omega, fun hs => ?_⟩
        by_cases hold : spent s
        · have := ih.2 hold
          omega
        · have := hzero (hspent s m hs hold).2
          omega
      · have hnew := hzero fun m' hm' hk' => hk (hkind s m m' hm' hk')
        simp only [hk, decide_false, Bool.false_eq_true, if_false] at ih
        refine ⟨by omega, fun hs => ?_⟩
        by_cases hold : spent s
        · have := ih.2 hold
          omega
        · exact absurd (hspent s m hs hold).1 hk

/-- When every answer has a lower rank than the message it answers, everything but the messages
that are held back can be delivered. -/
theorem exists_drained (rank : μ → Nat)
    (hrank : ∀ s m, ∀ m' ∈ (handle s m).2, rank m' < rank m) (held : μ → Prop) (p : Pool σ μ) :
    ∃ q, Reaches handle (fun m => ¬ held m) p q ∧ ∀ m ∈ q.flight, held m := by
  induction hranks : (p.flight.map rank : Multiset Nat) using
    (Multiset.wellFounded_isDershowitzMannaLT (α := Nat)).induction generalizing p with
  | h ranks ih =>
  by_cases hall : ∀ m ∈ p.flight, held m
  · exact ⟨p, .refl p, hall⟩
  · simp only [not_forall] at hall
    obtain ⟨m, hm, hfree⟩ := hall
    obtain ⟨before, after, hflight⟩ := List.append_of_mem hm
    have hp : p = ⟨p.state, before ++ m :: after⟩ := by rw [← hflight]
    let next : Pool σ μ := ⟨(handle p.state m).1, before ++ after ++ (handle p.state m).2⟩
    have hstep : Reaches handle (fun m => ¬ held m) p next := .tail (hp ▸ .refl p) hfree
    have hless : Replaced rank p.flight next.flight :=
      ⟨before, m, after, (handle p.state m).2, hflight, rfl, hrank p.state m⟩
    obtain ⟨q, hq, hdone⟩ := ih _ (hranks ▸ hless.ranks_lt) next rfl
    exact ⟨q, hstep.trans hq, hdone⟩

end Pool

end Framework
