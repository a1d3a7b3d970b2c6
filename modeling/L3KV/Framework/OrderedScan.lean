import Mathlib.Data.List.TakeWhile
import Std.Data.ExtTreeMap.Lemmas

/-!
# Scanning an ordered map

A cursor is put at the first key that is not below a bound and goes on while the keys lie in some
range. If the range has no gaps above the bound, the scan meets exactly its elements. The keys that
start with a given word form such a range in lexicographic order.
-/

namespace Framework

section Split

variable {α : Type*} {p : α → Bool} {l : List α}

private theorem takeWhile_eq_filter (h : l.Pairwise fun a b => p b → p a) :
    l.takeWhile p = l.filter p := by
  induction l with
  | nil => rfl
  | cons a l ih =>
      obtain ⟨ha, hl⟩ := List.pairwise_cons.mp h
      by_cases hp : p a
      · rw [List.takeWhile_cons_of_pos hp, List.filter_cons_of_pos hp, ih hl]
      · rw [List.takeWhile_cons_of_neg hp, List.filter_cons_of_neg hp, eq_comm, List.filter_eq_nil_iff]
        exact fun b hb hpb => hp (ha b hb hpb)

private theorem dropWhile_eq_filter (h : l.Pairwise fun a b => p b → p a) :
    l.dropWhile p = l.filter fun a => !p a := by
  induction l with
  | nil => rfl
  | cons a l ih =>
      obtain ⟨ha, hl⟩ := List.pairwise_cons.mp h
      by_cases hp : p a
      · rw [List.dropWhile_cons_of_pos hp, List.filter_cons_of_neg (by simp [hp]), ih hl]
      · rw [List.dropWhile_cons_of_neg hp, eq_comm, List.filter_eq_self]
        intro b hb
        rcases List.mem_cons.mp hb with rfl | hb
        · simp [hp]
        · simpa using fun hpb => hp (ha b hb hpb)

end Split

section Range

variable {α β : Type*} [Ord α] [Std.TransOrd α] {entries : List (α × β)} {lo : α}

/-- The keys rise. -/
def Rising (entries : List (α × β)) : Prop := entries.Pairwise fun e f => compare e.1 f.1 = .lt

theorem Rising.ext {entries' : List (α × β)} (h : Rising entries) (h' : Rising entries')
    (hmem : ∀ e, e ∈ entries ↔ e ∈ entries') : entries = entries' := by
  have hirrefl {e f : α × β} (hlt : compare e.1 f.1 = .lt) : e ≠ f := by
    rintro rfl
    rw [Std.ReflOrd.compare_self] at hlt
    cases hlt
  have hperm : entries.Perm entries' :=
    (List.perm_ext_iff_of_nodup (h.imp hirrefl) (h'.imp hirrefl)).mpr hmem
  refine hperm.eq_of_pairwise (fun e f _ _ hef hfe => ?_) h h'
  rw [Std.OrientedOrd.eq_swap (a := f.1), hef] at hfe
  cases hfe

/-- The entries from `lower_bound` on. -/
def lowerBound (lo : α) (entries : List (α × β)) : List (α × β) :=
  entries.dropWhile fun e => compare e.1 lo = .lt

theorem lowerBound_eq_filter (h : Rising entries) (lo : α) :
    lowerBound lo entries = entries.filter fun e => (compare lo e.1).isLE := by
  rw [lowerBound, dropWhile_eq_filter]
  · apply List.filter_congr
    intro e _
    rw [Std.OrientedOrd.eq_swap (a := lo)]
    cases compare e.1 lo <;> rfl
  · refine h.imp fun {e f} hlt hf => ?_
    simp only [decide_eq_true_eq] at hf ⊢
    exact Std.TransCmp.lt_trans hlt hf

theorem takeWhile_lowerBound (h : Rising entries) (inRange : α → Bool)
    (hgap : ∀ a b, (compare lo a).isLE → (compare a b).isLE → inRange b → inRange a) :
    (lowerBound lo entries).takeWhile (fun e => inRange e.1) =
      entries.filter fun e => inRange e.1 && (compare lo e.1).isLE := by
  rw [lowerBound_eq_filter h, takeWhile_eq_filter, List.filter_filter]
  refine (h.filter _).imp_of_mem fun {e f} he _ hlt hf => ?_
  exact hgap e.1 f.1 (List.mem_filter.mp he).2 (by rw [hlt]; rfl) hf

theorem Rising.filter_above {before after : List (α × β)} {last : α × β}
    (h : Rising (before ++ last :: after)) :
    (before ++ last :: after).filter (fun e => compare last.1 e.1 = .lt) = after := by
  obtain ⟨-, hlast, hbefore⟩ := List.pairwise_append.mp h
  have hnone : before.filter (fun e => compare last.1 e.1 = .lt) = [] := by
    rw [List.filter_eq_nil_iff]
    intro e he
    rw [Std.OrientedOrd.eq_swap (a := last.1), hbefore e he last List.mem_cons_self]
    decide
  have hall : after.filter (fun e => compare last.1 e.1 = .lt) = after := by
    rw [List.filter_eq_self]
    intro e he
    exact decide_eq_true ((List.pairwise_cons.mp hlast).1 e he)
  rw [List.filter_append, hnone, List.nil_append, List.filter_cons, Std.ReflOrd.compare_self,
    if_neg (by decide), hall]

end Range

section Words

variable {α : Type*} [Ord α] [Std.LawfulEqOrd α]

theorem isLE_of_prefix {p k : List α} (h : p <+: k) : (compare p k).isLE := by
  induction p generalizing k with
  | nil => cases k <;> rfl
  | cons a p ih =>
      obtain ⟨b, rest, rfl⟩ : ∃ b rest, k = b :: rest := by
        cases k with
        | nil => simp at h
        | cons b rest => exact ⟨b, rest, rfl⟩
      obtain ⟨rfl, hrest⟩ := List.cons_prefix_cons.mp h
      rw [List.compare_cons_cons, Std.ReflOrd.compare_self]
      exact ih hrest

theorem prefix_of_isLE [Std.OrientedOrd α] {p a b : List α} (hpa : (compare p a).isLE)
    (hab : (compare a b).isLE)
    (hb : p <+: b) : p <+: a := by
  induction p generalizing a b with
  | nil => exact List.nil_prefix
  | cons c p ih =>
      obtain ⟨rest, rfl⟩ := hb
      cases a with
      | nil => cases hpa
      | cons d a =>
          rw [List.cons_append, List.compare_cons_cons, Std.OrientedOrd.eq_swap (a := d)] at hab
          rw [List.compare_cons_cons] at hpa
          cases hcd : compare c d with
          | lt =>
              rw [hcd] at hab
              cases hab
          | eq =>
              rw [hcd] at hpa hab
              obtain rfl := Std.LawfulEqOrd.eq_of_compare hcd
              exact List.cons_prefix_cons.mpr ⟨rfl, ih hpa hab (List.prefix_append p rest)⟩
          | gt =>
              rw [hcd] at hpa
              cases hpa

/-- A word followed by the least letter is the next word in lexicographic order. -/
theorem isLE_append_least {least : α} (hleast : ∀ a, (compare least a).isLE) {k key : List α} :
    (compare (k ++ [least]) key).isLE ↔ compare k key = .lt := by
  induction k generalizing key with
  | nil =>
      cases key with
      | nil => simp [List.compare_cons_nil]
      | cons a key =>
          rw [List.nil_append, List.compare_cons_cons]
          have hnil : (compare ([] : List α) key).isLE := by cases key <;> rfl
          refine iff_of_true ?_ rfl
          cases hcmp : compare least a with
          | lt => rfl
          | eq => exact hnil
          | gt => exact absurd (hleast a) (by simp [hcmp])
  | cons c k ih =>
      cases key with
      | nil => simp [List.compare_cons_nil]
      | cons d key =>
          rw [List.cons_append, List.compare_cons_cons, List.compare_cons_cons]
          cases compare c d with
          | lt => exact iff_of_true rfl rfl
          | eq => exact ih
          | gt => simp [Ordering.then]

end Words

section Collect

variable {ε δ : Type*} {inRange : ε → Bool} {keep : List δ → ε → Bool} {out : ε → δ} {limit : Nat}

/-- The loop of a bounded scan: it ends at the first entry out of range, or when the chunk has
reached the limit. Whether an entry is kept may depend on what is in the chunk already. -/
def collectWhile (inRange : ε → Bool) (keep : List δ → ε → Bool) (out : ε → δ) (limit : Nat) :
    List ε → List δ → List δ
  | [], chunk => chunk
  | e :: rest, chunk =>
      if inRange e then
        if keep chunk e then
          let chunk := chunk ++ [out e]
          if limit ≤ chunk.length then chunk else collectWhile inRange keep out limit rest chunk
        else collectWhile inRange keep out limit rest chunk
      else chunk

private theorem collectWhile_congr {keep' : List δ → ε → Bool} {l : List ε}
    (h : ∀ e ∈ l, ∀ chunk, keep chunk e = keep' chunk e) (chunk : List δ) :
    collectWhile inRange keep out limit l chunk = collectWhile inRange keep' out limit l chunk := by
  induction l generalizing chunk with
  | nil => rfl
  | cons e l ih =>
      simp only [collectWhile, h e List.mem_cons_self, ih fun f hf => h f (List.mem_cons_of_mem e hf)]

private theorem collectWhile_append {test : ε → Bool} {l : List ε} {chunk : List δ}
    (hroom : chunk.length < max 1 limit) :
    collectWhile inRange (fun _ => test) out limit l chunk =
      (chunk ++ ((l.takeWhile inRange).filter test).map out).take (max 1 limit) := by
  induction l generalizing chunk with
  | nil =>
      rw [collectWhile, List.takeWhile_nil, List.filter_nil, List.map_nil, List.append_nil,
        List.take_of_length_le (Nat.le_of_lt hroom)]
  | cons e l ih =>
      rw [collectWhile]
      by_cases hin : inRange e
      · rw [if_pos hin, List.takeWhile_cons_of_pos hin]
        by_cases htest : test e
        · have hlen : (chunk ++ [out e]).length = chunk.length + 1 := by simp
          have hsplit := List.append_cons chunk (out e) (((l.takeWhile inRange).filter test).map out)
          rw [if_pos htest, List.filter_cons_of_pos htest, List.map_cons, hsplit]
          dsimp only
          split
          · rw [List.take_left' (by omega)]
          · exact ih (by omega)
        · rw [if_neg htest, List.filter_cons_of_neg htest]
          exact ih hroom
      · rw [if_neg hin, List.takeWhile_cons_of_neg hin, List.filter_nil, List.map_nil,
          List.append_nil, List.take_of_length_le (Nat.le_of_lt hroom)]

theorem collectWhile_eq {test : ε → Bool} {l : List ε} (hhead : ∀ e ∈ l.head?, keep [] e = test e)
    (htail : ∀ e ∈ l.tail, ∀ chunk, keep chunk e = test e) :
    collectWhile inRange keep out limit l [] =
      (((l.takeWhile inRange).filter test).map out).take (max 1 limit) := by
  have hsame : collectWhile inRange keep out limit l [] =
      collectWhile inRange (fun _ => test) out limit l [] := by
    cases l with
    | nil => rfl
    | cons e l =>
        have hrest (chunk : List δ) : collectWhile inRange keep out limit l chunk =
            collectWhile inRange (fun _ => test) out limit l chunk := collectWhile_congr htail chunk
        simp only [collectWhile, hhead e rfl, hrest]
  have hroom : ([] : List δ).length < max 1 limit := by
    rw [List.length_nil]
    omega
  rw [hsame, collectWhile_append hroom, List.nil_append]

end Collect

section Pages

variable {κ δ : Type*} {page : κ → List δ} {next : δ → κ} {rest : κ → List δ} {limit : Nat}

/-- One page after the other, each from where the last element of the page before says, until one
is empty; `none` if that has not happened after so many pages. -/
def readPages (page : κ → List δ) (next : δ → κ) : Nat → κ → Option (List δ)
  | 0, _ => none
  | pages + 1, start =>
      match (page start).getLast? with
      | none => some []
      | some last => (readPages page next pages (next last)).map (page start ++ ·)

/-- Pages that are the beginnings of what is left list all of it, if behind each element the rest
goes on with what follows it. -/
theorem readPages_eq (hlimit : 1 ≤ limit) (hpage : ∀ start, page start = (rest start).take limit)
    (hnext : ∀ start before last after,
      rest start = before ++ last :: after → rest (next last) = after)
    {pages : Nat} {start : κ} (hpages : (rest start).length < pages) :
    readPages page next pages start = some (rest start) := by
  induction pages generalizing start with
  | zero => omega
  | succ pages ih =>
      rw [readPages, hpage]
      cases hlast : ((rest start).take limit).getLast? with
      | none =>
          rw [List.getLast?_eq_none_iff, List.take_eq_nil_iff] at hlast
          rw [hlast.resolve_left (by omega)]
      | some last =>
          -- the page ends in `last`, and the next one begins behind it
          obtain ⟨before, hbefore⟩ := List.getLast?_eq_some_iff.mp hlast
          have hsplit : rest start = before ++ last :: (rest start).drop limit := by
            rw [List.append_cons, ← hbefore, List.take_append_drop]
          have hrest := hnext start before last _ hsplit
          have hshorter : (rest (next last)).length < pages := by
            have hlength := congrArg List.length hsplit
            simp only [List.length_append, List.length_cons] at hlength
            rw [hrest]
            omega
          simp only [ih hshorter, hrest, Option.map_some, List.take_append_drop]

end Pages

end Framework
