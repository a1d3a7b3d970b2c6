import Mathlib.Data.List.Induction

/-!
# Runs of a partial step function

A system is a step function that says, for a state and an event, what the next state is, or that
the event cannot happen there. A run is a list of events, and its result `List.foldlM` of the step.
-/

namespace Framework

variable {σ ι : Type*} {step : σ → ι → Option σ}

/-- What holds of every step of a run. The condition looks at the state before the step. -/
def EveryStep (step : σ → ι → Option σ) (s : σ) (events : List ι) (P : σ → ι → Prop) : Prop :=
  ∀ before event after, events = before ++ event :: after →
    ∀ s', before.foldlM step s = some s' → P s' event

theorem EveryStep.front {s : σ} {events more : List ι} {P : σ → ι → Prop}
    (h : EveryStep step s (events ++ more) P) : EveryStep step s events P := by
  intro before event after hsplit
  apply h before event (after ++ more)
  rw [hsplit]
  simp

theorem EveryStep.last {s s' : σ} {events : List ι} {event : ι} {P : σ → ι → Prop}
    (h : EveryStep step s (events ++ [event]) P) (hrun : events.foldlM step s = some s') :
    P s' event :=
  h events event [] rfl s' hrun

theorem EveryStep.drop {s s' : σ} {events more : List ι} {P : σ → ι → Prop}
    (h : EveryStep step s (events ++ more) P) (hrun : events.foldlM step s = some s') :
    EveryStep step s' more P := by
  intro before event after hsplit s'' hbefore
  apply h (events ++ before) event after
  · rw [hsplit, List.append_assoc]
  · rw [List.foldlM_append, hrun]
    exact hbefore

theorem EveryStep.head {s : σ} {event : ι} {events : List ι} {P : σ → ι → Prop}
    (h : EveryStep step s (event :: events) P) : P s event :=
  h [] event events rfl s rfl

theorem EveryStep.tail {s s' : σ} {event : ι} {events : List ι} {P : σ → ι → Prop}
    (h : EveryStep step s (event :: events) P) (hstep : step s event = some s') :
    EveryStep step s' events P := by
  intro before event' after hsplit s'' hbefore
  refine h (event :: before) event' after ?_ s'' ?_
  · rw [hsplit, List.cons_append]
  · rw [List.foldlM_cons, hstep]
    exact hbefore

theorem EveryStep.concat {s : σ} {events : List ι} {event : ι} {P : σ → ι → Prop}
    (h : EveryStep step s events P)
    (hlast : ∀ s', events.foldlM step s = some s' → P s' event) :
    EveryStep step s (events ++ [event]) P := by
  intro before event' after hsplit s' hrun
  rcases List.eq_nil_or_concat after with rfl | ⟨after, last, rfl⟩
  · obtain ⟨rfl, heq⟩ := List.append_inj' hsplit rfl
    cases heq
    exact hlast s' hrun
  · rw [List.concat_eq_append, ← List.cons_append, ← List.append_assoc] at hsplit
    obtain ⟨rfl, -⟩ := List.append_inj' hsplit rfl
    exact h before event' after rfl s' hrun

theorem everyStep_nil {s : σ} {P : σ → ι → Prop} : EveryStep step s [] P := by
  intro before event after h
  simp at h

theorem everyStep_cons {s : σ} {event : ι} {events : List ι} {P : σ → ι → Prop}
    (hfirst : P s event)
    (hrest : ∀ s', step s event = some s' → EveryStep step s' events P) :
    EveryStep step s (event :: events) P := by
  intro before event' after hsplit s' hrun
  cases before with
  | nil =>
      cases hsplit
      cases hrun
      exact hfirst
  | cons first before =>
      obtain ⟨rfl, htail⟩ := List.cons.inj hsplit
      rw [List.foldlM_cons] at hrun
      obtain ⟨s₁, hstep, hrun⟩ := Option.bind_eq_some_iff.mp hrun
      exact hrest s₁ hstep before event' after htail s' hrun

theorem EveryStep.of_map {κ : Type*} (f : κ → ι) {s : σ} {events : List κ} {P : σ → ι → Prop}
    (h : EveryStep step s (events.map f) P) :
    EveryStep (fun s event => step s (f event)) s events fun s event => P s (f event) := by
  intro before event after hsplit s' hrun
  refine h (before.map f) (f event) (after.map f) ?_ s' ?_
  · rw [hsplit, List.map_append, List.map_cons]
  · rw [List.foldlM_map]
    exact hrun

/-- A check of every step of a run that can be evaluated. -/
def allSteps (step : σ → ι → Option σ) (check : σ → ι → Bool) : σ → List ι → Bool
  | _, [] => true
  | s, event :: events =>
      check s event && (step s event).elim true fun s' => allSteps step check s' events

theorem everyStep_of_allSteps {check : σ → ι → Bool} {s : σ} {events : List ι}
    (h : allSteps step check s events = true) :
    EveryStep step s events fun s event => check s event = true := by
  induction events generalizing s with
  | nil => exact everyStep_nil
  | cons event events ih =>
      rw [allSteps, Bool.and_eq_true] at h
      refine everyStep_cons ?_ fun s' hstep => ih ?_
      · exact h.1
      · simpa [hstep] using h.2

/-- What holds of every element of a list together with the elements before it. -/
def EachAfter {α : Type*} (R : List α → α → Prop) (l : List α) : Prop :=
  ∀ before a after, l = before ++ a :: after → R before a

theorem eachAfter_nil {α : Type*} {R : List α → α → Prop} : EachAfter R [] := by
  intro before a after h
  simp at h

theorem eachAfter_concat {α : Type*} {R : List α → α → Prop} {l : List α} {a : α} :
    EachAfter R (l ++ [a]) ↔ EachAfter R l ∧ R l a := by
  constructor
  · intro h
    refine ⟨fun before b after hsplit => h before b (after ++ [a]) ?_, h l a [] rfl⟩
    rw [hsplit, List.append_assoc, List.cons_append]
  · rintro ⟨h, hlast⟩ before b after hsplit
    rcases List.eq_nil_or_concat after with rfl | ⟨after, c, rfl⟩
    · obtain ⟨rfl, heq⟩ := List.append_inj' hsplit rfl
      cases heq
      exact hlast
    · rw [List.concat_eq_append, ← List.cons_append, ← List.append_assoc] at hsplit
      obtain ⟨rfl, -⟩ := List.append_inj' hsplit rfl
      exact h before b after rfl

theorem foldlM_concat {s s' : σ} {events : List ι} {event : ι} :
    (events ++ [event]).foldlM step s = some s' ↔
      ∃ s₁, events.foldlM step s = some s₁ ∧ step s₁ event = some s' := by
  rw [List.foldlM_append]
  simp [Option.bind_eq_some_iff]

/-- The invariant rule: what holds at the start, and is kept by every step that is allowed in a
state where it holds, holds along the run. The invariant may mention the events so far. -/
theorem run_invariant (Inv : List ι → σ → Prop) {s : σ} {P : σ → ι → Prop} (hinit : Inv [] s)
    (hstep : ∀ events s₁ event s₂, Inv events s₁ → P s₁ event → step s₁ event = some s₂ →
      Inv (events ++ [event]) s₂)
    {events : List ι} {s' : σ} (hP : EveryStep step s events P)
    (hrun : events.foldlM step s = some s') : Inv events s' := by
  induction events using List.reverseRec generalizing s' with
  | nil =>
      cases hrun
      exact hinit
  | append_singleton events event ih =>
      obtain ⟨s₁, hfront, hlast⟩ := foldlM_concat.mp hrun
      exact hstep events s₁ event s' (ih hP.front hfront) (hP.last hfront) hlast

theorem run_invariant_always (Inv : List ι → σ → Prop) {s : σ} (hinit : Inv [] s)
    (hstep : ∀ events s₁ event s₂, Inv events s₁ → step s₁ event = some s₂ →
      Inv (events ++ [event]) s₂)
    {events : List ι} {s' : σ} (hrun : events.foldlM step s = some s') : Inv events s' :=
  run_invariant Inv (P := fun _ _ => True) hinit
    (fun events s₁ event s₂ hinv _ => hstep events s₁ event s₂ hinv) (fun _ _ _ _ _ _ => trivial) hrun

theorem run_related {τ : Type*} {step' : τ → ι → Option τ} {R : σ → τ → Prop} {P : τ → ι → Prop}
    (hstep : ∀ s t event, R s t → P t event → Option.Rel R (step s event) (step' t event))
    {s : σ} {t : τ} {events : List ι} (hstart : R s t) (hP : EveryStep step' t events P) :
    Option.Rel R (events.foldlM step s) (events.foldlM step' t) := by
  induction events generalizing s t with
  | nil => exact .some hstart
  | cons event events ih =>
      rw [List.foldlM_cons, List.foldlM_cons]
      have hfirst := hstep s t event hstart hP.head
      generalize hs : step s event = next at hfirst
      generalize ht : step' t event = next' at hfirst
      cases hfirst with
      | none => exact .none
      | some hrel => exact ih hrel (hP.tail ht)

theorem run_part {τ κ : Type*} {step' : τ → κ → Option τ} (part : σ → τ) (event? : ι → Option κ)
    (hstep : ∀ s event s', step s event = some s' → (event? event = none ∧ part s' = part s) ∨
      ∃ e, event? event = some e ∧ step' (part s) e = some (part s'))
    {s s' : σ} {events : List ι} (hrun : events.foldlM step s = some s') :
    (events.filterMap event?).foldlM step' (part s) = some (part s') := by
  induction events generalizing s with
  | nil =>
      cases hrun
      rfl
  | cons event events ih =>
      rw [List.foldlM_cons] at hrun
      obtain ⟨s₁, hfirst, hrun⟩ := Option.bind_eq_some_iff.mp hrun
      rcases hstep s event s₁ hfirst with ⟨hevent, hsame⟩ | ⟨e, hevent, hpart⟩
      · rw [List.filterMap_cons_none hevent, ← hsame]
        exact ih hrun
      · rw [List.filterMap_cons_some hevent, List.foldlM_cons, hpart]
        exact ih hrun

theorem run_followed {τ κ β : Type*} {step' : τ → κ → Option τ} {R : σ → τ → Prop}
    {P : σ → ι → Prop}
    (shows : ι → List β) (shows' : κ → List β)
    (hstep : ∀ s t event s', R s t → P s event → step s event = some s' →
      ∃ (events' : List κ) (t' : τ), events'.foldlM step' t = some t' ∧ R s' t' ∧
        events'.flatMap shows' = shows event)
    {s s' : σ} {t : τ} {events : List ι} (hstart : R s t) (hP : EveryStep step s events P)
    (hrun : events.foldlM step s = some s') :
    ∃ (events' : List κ) (t' : τ), events'.foldlM step' t = some t' ∧ R s' t' ∧
      events'.flatMap shows' = events.flatMap shows := by
  induction events generalizing s t with
  | nil =>
      cases hrun
      exact ⟨[], t, rfl, hstart, rfl⟩
  | cons event events ih =>
      rw [List.foldlM_cons] at hrun
      obtain ⟨s₁, hfirst, hrun⟩ := Option.bind_eq_some_iff.mp hrun
      obtain ⟨front, t₁, hfront, hrel, hshown⟩ := hstep s t event s₁ hstart hP.head hfirst
      obtain ⟨rest, t', hrest, hend, hmore⟩ := ih hrel (hP.tail hfirst) hrun
      refine ⟨front ++ rest, t', ?_, hend, ?_⟩
      · rw [List.foldlM_append, hfront]
        exact hrest
      · rw [List.flatMap_append, hshown, hmore, List.flatMap_cons]

/-- What the steps of a run show, in order. -/
def collect {β : Type*} (step : σ → ι → Option σ) (f : σ → ι → Option β) : σ → List ι → List β
  | _, [] => []
  | s, event :: events =>
      (f s event).toList ++ (step s event).elim [] fun s' => collect step f s' events

theorem collect_concat {β : Type*} (f : σ → ι → Option β) {s s' : σ} {events : List ι}
    (hrun : events.foldlM step s = some s') (event : ι) :
    collect step f s (events ++ [event]) = collect step f s events ++ (f s' event).toList := by
  induction events generalizing s with
  | nil =>
      cases hrun
      cases hstep : step s' event <;> simp [collect, hstep]
  | cons first events ih =>
      rw [List.foldlM_cons] at hrun
      obtain ⟨s₁, hstep, hrun⟩ := Option.bind_eq_some_iff.mp hrun
      simp [collect, hstep, ih hrun]

/-- The invariant rule for what the steps show. -/
theorem collect_invariant {β : Type*} {f : σ → ι → Option β} (Inv : List β → σ → Prop) {s : σ}
    {P : σ → ι → Prop} (hinit : Inv [] s)
    (hstep : ∀ shown s₁ event s₂, Inv shown s₁ → P s₁ event → step s₁ event = some s₂ →
      Inv (shown ++ (f s₁ event).toList) s₂)
    {events : List ι} {s' : σ} (hP : EveryStep step s events P)
    (hrun : events.foldlM step s = some s') : Inv (collect step f s events) s' := by
  have hinv := run_invariant (fun events s' => events.foldlM step s = some s' ∧
    Inv (collect step f s events) s') ⟨rfl, hinit⟩ ?_ hP hrun
  · exact hinv.2
  · rintro events s₁ event s₂ ⟨hrun₁, hinv⟩ hok hnext
    refine ⟨foldlM_concat.mpr ⟨s₁, hrun₁, hnext⟩, ?_⟩
    rw [collect_concat f hrun₁]
    exact hstep _ s₁ event s₂ hinv hok hnext

theorem collect_subset {β : Type*} {f g : σ → ι → Option β}
    (hfg : ∀ s event b, f s event = some b → g s event = some b) {s : σ} {events : List ι} {b : β}
    (h : b ∈ collect step f s events) : b ∈ collect step g s events := by
  induction events generalizing s with
  | nil => exact h
  | cons first events ih =>
      rw [collect, List.mem_append] at h ⊢
      rcases h with h | h
      · left
        simpa using hfg s first b (by simpa using h)
      · right
        cases hstep : step s first with
        | none => simp [hstep] at h
        | some s₁ => exact ih (by simpa [hstep] using h)

end Framework
