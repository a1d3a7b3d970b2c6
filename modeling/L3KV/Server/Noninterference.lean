import L3KV.Server.Confinement
import L3KV.Server.Observing
import L3KV.Server.Sessions

/-!
# What a client learns of the others

Some identities are observers, and some keys are those the observers read. What the other identities
do goes through the same loop, clock, log and queues. The server is compared with one that never gets
the messages of the others: every run has a counterpart in which the observers are answered the same.
-/

namespace L3KV

open Framework

/-- The turn is for an identity that is not an observer. -/
def Turn.Hidden (observer : Bytes → Prop) (turn : Turn) : Prop :=
  ∃ identity ∈ turn.identity?, ¬ observer identity

/-- An observer waits for a value under a shown key, or for a writing call. -/
def Turn.Observing (shown : Bytes → Prop) : Turn → Prop
  | .receiving => True
  | .reading _ key => shown key
  | .calling _ => True
  | _ => False

/-- Where two loops stand: at the same point for the same observer, or the first is at work for
somebody else and the second has nothing to do. -/
inductive LoopLike (observer shown : Bytes → Prop) (turn : Turn) (phase : Phase) (turn' : Turn)
    (phase' : Phase) : Prop
  | hidden (hidden : turn.Hidden observer)
      (reads : (∃ identity, turn = .calling identity) ∨ phase = .idle)
      (unseen : ∀ o ∈ phase.ops, o.Unseen shown) (receiving : turn' = .receiving)
      (idle : phase' = .idle)
  | same (visible : ¬ turn.Hidden observer) (observing : turn.Observing shown)
      (reads : (∃ identity, turn = .calling identity) ∨ phase = .idle) (same : turn' = turn)
      (like : phase.Like shown phase')

/-- The second server has got the messages of the observers only. -/
structure Service.Shadows (x : External) (observer : Bytes → Prop) [DecidablePred observer]
    (shown : Bytes → Prop) (s s' : Service) : Prop where
  sessions : ∀ identity, observer identity → ZmqServer.SameFor identity s.server s'.server
  secret : s'.server.serverSecret = s.server.serverSecret
  store : s.machine.store.Agrees x shown s'.machine.store
  clock : s'.machine.clock.current.ticks ≤ s.machine.clock.current.ticks
  queues : ∀ i, Purged shown loopThread (s.turn.Hidden observer) (s.machine.queues i)
    (s'.machine.queues i)
  loop : LoopLike observer shown s.turn (s.machine.phase loopThread) s'.turn
    (s'.machine.phase loopThread)
  sent : s'.sent = s.sent.filter fun r => decide (observer r.1)

/-- What the observers and the others keep to. -/
def ServiceEvent.Discreet (x : External) (observer shown : Bytes → Prop) (s : Service) :
    ServiceEvent → Prop
  | .receive msg readings => Sorted readings ∧
      ∀ request principal, (s.server.handle msg).2 = .call request principal →
        (observer (ZmqServer.identityOf msg) → request.Observes x.lite3 shown) ∧
          (¬ observer (ZmqServer.identityOf msg) →
            request.Avoids x.lite3 shown s.machine.store.credentials principal)
  | _ => s.machine.store.ValuesShort x

/-- The message that is taken. -/
def ServiceEvent.received : ServiceEvent → List (List Bytes)
  | .receive msg _ => [msg]
  | _ => []

section

variable {observer shown : Bytes → Prop}

private theorem Turn.receiving_visible : ¬ Turn.receiving.Hidden observer := by
  rintro ⟨identity, hidentity, -⟩
  cases hidentity

private theorem Turn.hidden_iff {turn : Turn} {identity : Bytes}
    (h : turn.identity? = some identity) :
    turn.Hidden observer ↔ ¬ observer identity := by
  simp [Hidden, h]

private theorem Turn.observer_of_visible {turn : Turn} (hvisible : ¬ turn.Hidden observer)
    {identity : Bytes}
    (h : turn.identity? = some identity) : observer identity :=
  not_not.mp fun hnot => hvisible ((hidden_iff h).mpr hnot)

private theorem Phase.Like.idle_of {phase : Phase} (h : Phase.idle.Like shown phase) :
    phase = .idle := by
  cases h
  rfl

private theorem Machine.Owned.of_idle {m : Machine} (h : m.Owned) {thread : Nat}
    (hidle : m.phase thread = .idle) (i : Fin 8) :
    ∀ task ∈ m.queues i, task.owner ≠ some thread := by
  intro task htask howner
  have hwaiting := h.waiting i thread (List.mem_filterMap.mpr ⟨task, htask, howner⟩)
  rw [hidle] at hwaiting
  cases hwaiting

private theorem Machine.wake_phase (m : Machine) (owner : Option Nat) (thread : Nat) :
    (m.wake owner).phase thread = if owner = some thread then .idle else m.phase thread := by
  cases owner with
  | none => simp [Machine.wake]
  | some other =>
      by_cases h : thread = other
      · subst h
        simp [Machine.wake, Machine.setPhase]
      · rw [Machine.wake, setPhase_of_ne m h, if_neg (by simpa using Ne.symm h)]

namespace LoopLike

variable {turn turn' : Turn} {phase phase' : Phase}

private theorem wake (h : LoopLike observer shown turn phase turn' phase') {owner : Option Nat}
    (howner : owner = some loopThread → turn.Hidden observer) :
    LoopLike observer shown turn (if owner = some loopThread then .idle else phase) turn' phase' := by
  split
  · rename_i heq
    cases h with
    | hidden hhidden _ _ hreceiving hidle =>
        exact .hidden hhidden (Or.inr rfl) (by simp [Phase.ops, Phase.parts]) hreceiving hidle
    | same hvisible => exact absurd (howner heq) hvisible
  · exact h

private theorem wake_both (h : LoopLike observer shown turn phase turn' phase')
    (owner : Option Nat) :
    LoopLike observer shown turn (if owner = some loopThread then .idle else phase) turn'
      (if owner = some loopThread then .idle else phase') := by
  split
  · cases h with
    | hidden hhidden _ _ hreceiving _ =>
        exact .hidden hhidden (Or.inr rfl) (by simp [Phase.ops, Phase.parts]) hreceiving rfl
    | same hvisible hobserving _ hturn _ => exact .same hvisible hobserving (Or.inr rfl) hturn .idle
  · exact h

end LoopLike

namespace Purged

variable {busy : Prop} {m m' : Machine} {queues' : Fin 8 → List Task}

private theorem enqueue_drop (h : ∀ i, Purged shown loopThread busy (m.queues i) (queues' i))
    {task : Task}
    (hunseen : ∀ o ∈ task.ops, o.Unseen shown) (howner : task.owner = some loopThread → busy)
    (shard i : Fin 8) : Purged shown loopThread busy ((m.enqueue shard task).queues i) (queues' i) := by
  by_cases hi : i = shard
  · subst hi
    simp only [Machine.enqueue, Function.update_self]
    exact (h i).concat_drop hunseen howner
  · simp only [Machine.enqueue, Function.update_of_ne hi]
    exact h i

private theorem enqueue_keep (h : ∀ i, Purged shown loopThread busy (m.queues i) (m'.queues i))
    (producer : Nat) (owner : Option Nat) {ops ops' : List ShardOp}
    (hops : List.Forall₂ (ShardOp.Like shown) ops ops') (shard i : Fin 8) :
    Purged shown loopThread busy ((m.enqueue shard ⟨producer, owner, ops, false⟩).queues i)
      ((m'.enqueue shard ⟨producer, owner, ops', false⟩).queues i) := by
  by_cases hi : i = shard
  · subst hi
    simp only [Machine.enqueue, Function.update_self]
    exact (h i).concat_keep rfl hops
  · simp only [Machine.enqueue, Function.update_of_ne hi]
    exact h i

private theorem setQueue_drop (h : ∀ i, Purged shown loopThread busy (m.queues i) (queues' i))
    {shard : Fin 8} {tasks : List Task} (htasks : Purged shown loopThread busy tasks (queues' shard))
    (i : Fin 8) : Purged shown loopThread busy ((m.setQueue shard tasks).queues i) (queues' i) := by
  by_cases hi : i = shard
  · subst hi
    simp only [Machine.setQueue, Function.update_self]
    exact htasks
  · simp only [Machine.setQueue, Function.update_of_ne hi]
    exact h i

private theorem setQueue_keep (m m' : Machine)
    (h : ∀ i, Purged shown loopThread busy (m.queues i) (m'.queues i))
    {shard : Fin 8} {tasks tasks' : List Task} (htasks : Purged shown loopThread busy tasks tasks')
    (i : Fin 8) :
    Purged shown loopThread busy ((m.setQueue shard tasks).queues i)
      ((m'.setQueue shard tasks').queues i) := by
  by_cases hi : i = shard
  · subst hi
    simp only [Machine.setQueue, Function.update_self]
    exact htasks
  · simp only [Machine.setQueue, Function.update_of_ne hi]
    exact h i

end Purged

end

namespace Service.Shadows

variable {x : External} {u : Nat → Nat → UInt8} {observer : Bytes → Prop} [DecidablePred observer]
  {shown : Bytes → Prop} {s s' t : Service}

private theorem reply_hidden (h : s.Shadows x observer shown s') (howned : s.machine.Owned)
    {identity : Bytes}
    (hidentity : ¬ observer identity) (hturn : s'.turn = .receiving)
    (hidle : s.machine.phase loopThread = .idle) (hidle' : s'.machine.phase loopThread = .idle)
    (r : Reply) : (s.reply identity r).Shadows x observer shown s' where
  sessions := h.sessions
  secret := h.secret
  store := h.store
  clock := h.clock
  queues i := (h.queues i).leave (howned.of_idle hidle i)
  loop := by
    rw [reply_machine, hidle, hidle']
    exact .same Turn.receiving_visible trivial (Or.inr rfl) hturn .idle
  sent := by
    rw [h.sent, reply, List.filter_append, List.filter_cons_of_neg (by simpa using hidentity),
      List.filter_nil, List.append_nil]

private theorem reply_both (h : s.Shadows x observer shown s') (hvisible : ¬ s.turn.Hidden observer)
    {identity : Bytes} (hidentity : observer identity) (hidle : s.machine.phase loopThread = .idle)
    (hidle' : s'.machine.phase loopThread = .idle) (r : Reply) :
    (s.reply identity r).Shadows x observer shown (s'.reply identity r) where
  sessions := h.sessions
  secret := h.secret
  store := h.store
  clock := h.clock
  queues i := (h.queues i).mono fun hhidden => absurd hhidden hvisible
  loop := by
    rw [reply_machine, reply_machine, hidle, hidle']
    exact .same Turn.receiving_visible trivial (Or.inr rfl) rfl .idle
  sent := by
    rw [reply, reply, h.sent, List.filter_append, List.filter_cons_of_pos (by simpa using hidentity),
      List.filter_nil]

private theorem machines (h : s.Shadows x observer shown s') (m m' : Machine)
    (hstore : m.store.Agrees x shown m'.store)
    (hclock : m'.clock.current.ticks ≤ m.clock.current.ticks)
    (hqueues : ∀ i, Purged shown loopThread (s.turn.Hidden observer) (m.queues i) (m'.queues i))
    (hloop : LoopLike observer shown s.turn (m.phase loopThread) s'.turn (m'.phase loopThread)) :
    Service.Shadows x observer shown { s with machine := m } { s' with machine := m' } :=
  ⟨h.sessions, h.secret, hstore, hclock, hqueues, hloop, h.sent⟩

private theorem append (h : s.Shadows x observer shown s') (hstep : s.step x u .append = some t) :
    t.Shadows x observer shown s' ∨
      ∃ t', s'.step x u .append = some t' ∧ t.Shadows x observer shown t' := by
  obtain ⟨m, hm, rfl⟩ := Option.map_eq_some_iff.mp hstep
  cases Machine.step_sound hm with
  | @append _ plan hphase =>
      have hloop := h.loop
      rw [hphase] at hloop
      cases hloop with
      | hidden hhidden hreads hunseen hturn hidle =>
          left
          refine h.machines _ _ h.store h.clock h.queues ?_
          simp only [Machine.setPhase, Function.update_self]
          exact .hidden hhidden (Or.inl (hreads.resolve_right (by simp))) hunseen hturn hidle
      | same hvisible hobserving hreads hturn hlike =>
          right
          generalize hphase' : s'.machine.phase loopThread = phase' at hlike
          cases hlike with
          | planned hwork =>
              refine ⟨_, congrArg (Option.map _) (Machine.Step.append hphase').taken, ?_⟩
              refine h.machines _ _ h.store h.clock h.queues ?_
              simp only [Machine.setPhase, Function.update_self]
              exact .same hvisible hobserving (Or.inl (hreads.resolve_right (by simp))) hturn
                (.logged hwork)

private theorem work_hidden (h : s.Shadows x observer shown s') {work : Work}
    (hhidden : s.turn.Hidden observer) (hcalling : ∃ identity, s.turn = .calling identity)
    (hunseen : ∀ o ∈ work.ops, o.Unseen shown) (hturn : s'.turn = .receiving)
    (hidle : s'.machine.phase loopThread = .idle) :
    Service.Shadows x observer shown { s with machine := s.machine.workStep x loopThread work } s' := by
  have hnext {phase : Phase} (hops : ∀ o ∈ phase.ops, o.Unseen shown) :
      LoopLike observer shown s.turn phase s'.turn (s'.machine.phase loopThread) :=
    .hidden hhidden (Or.inl hcalling) hops hturn hidle
  have hidlePhase : ∀ o ∈ Phase.idle.ops, o.Unseen shown := by simp [Phase.ops, Phase.parts]
  cases work with
  | wait shard task =>
      refine h.machines _ _ h.store h.clock ?_ ?_
      · exact Purged.enqueue_drop h.queues hunseen (fun _ => hhidden) shard
      · simp only [Machine.workStep, Machine.setPhase, Function.update_self]
        exact hnext (by simp [Phase.ops, Phase.parts])
  | async tasks =>
      cases tasks with
      | nil =>
          refine h.machines _ _ h.store h.clock h.queues ?_
          simp only [Machine.workStep, Machine.setPhase, Function.update_self]
          exact hnext hidlePhase
      | cons w tasks =>
          refine h.machines _ _ h.store h.clock ?_ ?_
          · refine Purged.enqueue_drop h.queues (fun o ho => hunseen o ?_) (by simp) w.1
            exact List.mem_flatMap.mpr ⟨w, List.mem_cons_self, ho⟩
          · simp only [Machine.workStep, Machine.setPhase, Function.update_self]
            refine hnext fun o ho => hunseen o ?_
            rw [Phase.ops, Phase.parts, ← Work.ops_eq] at ho
            obtain ⟨w', hw', ho⟩ := List.mem_flatMap.mp ho
            exact List.mem_flatMap.mpr ⟨w', List.mem_cons_of_mem _ hw', ho⟩
  | direct ops =>
      cases ops with
      | nil =>
          refine h.machines _ _ h.store h.clock h.queues ?_
          simp only [Machine.workStep, Machine.setPhase, Function.update_self]
          exact hnext hidlePhase
      | cons o ops =>
          cases happly : s.machine.store.apply x o with
          | none =>
              simp only [Machine.workStep, happly]
              refine h.machines _ _ h.store h.clock h.queues ?_
              simp only [Machine.setPhase, Function.update_self]
              exact hnext hidlePhase
          | some st =>
              simp only [Machine.workStep, happly]
              refine h.machines _ _ (h.store.unseen (hunseen o List.mem_cons_self) happly) h.clock h.queues ?_
              simp only [Machine.setPhase, Function.update_self]
              refine hnext fun o' ho' => hunseen o' ?_
              rw [Phase.ops, Phase.parts, ← Work.ops_eq] at ho'
              exact List.mem_cons_of_mem _ ho'

private theorem work (h : s.Shadows x observer shown s') (hstep : s.step x u .work = some t) :
    t.Shadows x observer shown s' ∨
      ∃ t', s'.step x u .work = some t' ∧ t.Shadows x observer shown t' := by
  obtain ⟨m, hm, rfl⟩ := Option.map_eq_some_iff.mp hstep
  cases Machine.step_sound hm with
  | @work _ work hphase =>
      have hloop := h.loop
      rw [hphase] at hloop
      cases hloop with
      | hidden hhidden hreads hunseen hturn hidle =>
          left
          rw [Phase.ops, Phase.parts, ← Work.ops_eq] at hunseen
          exact h.work_hidden hhidden (hreads.resolve_right (by simp)) hunseen hturn hidle
      | same hvisible hobserving hreads hturn hlike =>
          right
          generalize hphase' : s'.machine.phase loopThread = phase' at hlike
          cases hlike with
          | logged hwork =>
              refine ⟨_, congrArg (Option.map _) (Machine.Step.work hphase').taken, ?_⟩
              have hnext {phase phase' : Phase} (hlike : phase.Like shown phase') :
                  LoopLike observer shown s.turn phase s'.turn phase' :=
                .same hvisible hobserving (Or.inl (hreads.resolve_right (by simp))) hturn hlike
              cases hwork with
              | @wait shard _ _ hops =>
                  refine h.machines _ _ h.store h.clock ?_ ?_
                  · exact Purged.enqueue_keep h.queues _ _ hops shard
                  · simp only [Machine.workStep, Machine.setPhase, Function.update_self]
                    exact hnext .waiting
              | async htasks =>
                  cases htasks with
                  | nil =>
                      refine h.machines _ _ h.store h.clock h.queues ?_
                      simp only [Machine.workStep, Machine.setPhase, Function.update_self]
                      exact hnext .idle
                  | @cons w w' _ _ hw htasks =>
                      obtain ⟨shard, ops⟩ := w
                      obtain ⟨shard', ops'⟩ := w'
                      obtain ⟨hshard, hops⟩ := hw
                      dsimp only at hshard
                      subst hshard
                      refine h.machines _ _ h.store h.clock ?_ ?_
                      · exact Purged.enqueue_keep h.queues _ _ hops shard'
                      · simp only [Machine.workStep, Machine.setPhase, Function.update_self]
                        exact hnext (.logged (.async htasks))

private theorem shard_hidden (h : s.Shadows x observer shown s') {i : Fin 8} {task : Task}
    {rest : List Task}
    (hunseen : ∀ o ∈ task.ops, o.Unseen shown)
    (howner : task.owner = some loopThread → s.turn.Hidden observer)
    (hrest : Purged shown loopThread (s.turn.Hidden observer) rest (s'.machine.queues i)) :
    Service.Shadows x observer shown { s with machine := s.machine.shardStep x i task rest } s' := by
  have hend : Service.Shadows x observer shown
      { s with machine := (s.machine.setQueue i rest).wake task.owner } s' := by
    refine h.machines _ _ ?_ ?_ ?_ ?_
    · rw [Machine.wake_store]
      exact h.store
    · rw [Machine.wake_clock]
      exact h.clock
    · rw [Machine.wake_queues]
      exact Purged.setQueue_drop h.queues hrest
    · rw [Machine.wake_phase]
      exact h.loop.wake howner
  cases hops : task.ops with
  | nil =>
      simp only [Machine.shardStep, hops]
      exact hend
  | cons o ops =>
      rw [hops] at hunseen
      cases happly : s.machine.store.apply x o with
      | none =>
          simp only [Machine.shardStep, hops, happly]
          exact hend
      | some st =>
          rw [Machine.shardStep_applies hops happly]
          refine h.machines _ _ (h.store.unseen (hunseen o List.mem_cons_self) happly) h.clock ?_ h.loop
          refine Purged.setQueue_drop (m := { s.machine with store := st }) h.queues ?_
          exact .drop (fun o' ho' => hunseen o' (List.mem_cons_of_mem _ ho')) howner hrest

private theorem shard (h : s.Shadows x observer shown s') {i : Fin 8}
    (hstep : s.step x u (.shard i) = some t) :
    t.Shadows x observer shown s' ∨
      ∃ t', s'.step x u (.shard i) = some t' ∧ t.Shadows x observer shown t' := by
  obtain ⟨m, hm, rfl⟩ := Option.map_eq_some_iff.mp hstep
  cases Machine.step_sound hm with
  | @shard _ task rest hqueue =>
      have hpurged := h.queues i
      rw [hqueue] at hpurged
      generalize hqueue' : s'.machine.queues i = queue' at hpurged
      cases hpurged with
      | drop hunseen howner hrest =>
          left
          rw [← hqueue'] at hrest
          exact h.shard_hidden hunseen howner hrest
      | @keep _ task' _ rest' howner hops hrest =>
          right
          refine ⟨_, congrArg (Option.map _) (Machine.Step.shard hqueue').taken, ?_⟩
          generalize hlist : task.ops = ops at hops
          generalize hlist' : task'.ops = ops' at hops
          cases hops with
          | nil =>
              simp only [Machine.shardStep, hlist, hlist', howner]
              refine h.machines _ _ ?_ ?_ ?_ ?_
              · simp only [Machine.wake_store]
                exact h.store
              · simp only [Machine.wake_clock]
                exact h.clock
              · simp only [Machine.wake_queues]
                exact Purged.setQueue_keep _ _ h.queues hrest
              · simp only [Machine.wake_phase]
                exact h.loop.wake_both task.owner
          | @cons o o' _ _ ho hops =>
              cases happly : s.machine.store.apply x o with
              | none => exact absurd (Store.apply_patches happly) ho.write
              | some st =>
                  obtain ⟨st', happly', hagrees⟩ := h.store.both ho happly
                  rw [Machine.shardStep_applies hlist happly, Machine.shardStep_applies hlist' happly']
                  refine h.machines _ _ hagrees h.clock ?_ h.loop
                  exact Purged.setQueue_keep { s.machine with store := st }
                    { s'.machine with store := st' } h.queues (.keep howner hops hrest)

private theorem answer (h : s.Shadows x observer shown s') (howned : s.machine.Owned)
    (hstep : s.step x u .answer = some t) :
    t.Shadows x observer shown s' ∨
      ∃ t', s'.step x u .answer = some t' ∧ t.Shadows x observer shown t' := by
  simp only [step] at hstep
  split at hstep
  · rename_i identity hcalling hphase
    cases hstep
    have hloop := h.loop
    rw [hphase] at hloop
    have hturn : s.turn.identity? = some identity := by rw [hcalling]; rfl
    cases hloop with
    | hidden hhidden _ _ hreceiving hidle =>
        left
        exact h.reply_hidden howned ((Turn.hidden_iff hturn).mp hhidden) hreceiving hphase hidle _
    | same hvisible _ _ hsame hlike =>
        right
        generalize hphase' : s'.machine.phase loopThread = phase' at hlike
        cases hlike
        refine ⟨_, by simp only [step, hsame, hcalling, hphase']; rfl, ?_⟩
        exact h.reply_both hvisible (Turn.observer_of_visible hvisible hturn) hphase hphase' _
  · cases hstep

private theorem read (h : s.Shadows x observer shown s') (howned : s.machine.Owned)
    (hz : x.zstd.Lossless)
    (hshort : s.machine.store.ValuesShort x) (hstep : s.step x u .read = some t) :
    t.Shadows x observer shown s' ∨
      ∃ t', s'.step x u .read = some t' ∧ t.Shadows x observer shown t' := by
  cases h.loop with
  | hidden hhidden hreads _ hreceiving hidle' =>
      left
      have hidle (hcalls : ∀ identity, s.turn ≠ .calling identity) :
          s.machine.phase loopThread = .idle :=
        hreads.resolve_left fun ⟨identity, hcalling⟩ => hcalls identity hcalling
      -- The turn goes on for the same identity.
      have hgoes {turn : Turn} (hturn : turn.identity? = s.turn.identity?)
          (hcalls : ∀ identity, s.turn ≠ .calling identity) :
          Service.Shadows x observer shown { s with turn := turn } s' := by
        have hstill : turn.Hidden observer ↔ s.turn.Hidden observer := by
          rw [Turn.Hidden, hturn]
          rfl
        refine ⟨h.sessions, h.secret, h.store, h.clock, fun i => (h.queues i).mono hstill.mpr, ?_, h.sent⟩
        refine .hidden (hstill.mpr hhidden) (Or.inr (hidle hcalls)) ?_ hreceiving hidle'
        rw [hidle hcalls]
        simp [Phase.ops, Phase.parts]
      simp only [step, Service.read] at hstep
      split at hstep
      · rename_i identity key hturn
        cases hstep
        have hcalls : ∀ identity, s.turn ≠ .calling identity := by simp [hturn]
        exact h.reply_hidden howned ((Turn.hidden_iff (by rw [hturn]; rfl)).mp hhidden) hreceiving
          (hidle hcalls) hidle' _
      · rename_i identity principal fields hturn
        cases hstep
        have hcalls : ∀ identity, s.turn ≠ .calling identity := by simp [hturn]
        exact h.reply_hidden howned ((Turn.hidden_iff (by rw [hturn]; rfl)).mp hhidden) hreceiving
          (hidle hcalls) hidle' _
      · rename_i identity principal key keys fields hturn
        split at hstep <;> cases hstep <;> exact hgoes (by rw [hturn]; rfl) (by simp [hturn])
      · rename_i identity principal key keys fields hturn
        cases hstep
        exact hgoes (by rw [hturn]; rfl) (by simp [hturn])
      · cases hstep
  | same hvisible hobserving hreads hsame hlike =>
      right
      simp only [step, Service.read] at hstep
      split at hstep
      · rename_i identity key hturn
        cases hstep
        rw [hturn] at hobserving hreads
        have hidle : s.machine.phase loopThread = .idle := hreads.resolve_left (by simp)
        rw [hidle] at hlike
        refine ⟨_, by simp only [step, Service.read, hsame, hturn]; rfl, ?_⟩
        rw [h.store.get_eq hz hshort hobserving]
        exact h.reply_both hvisible (Turn.observer_of_visible hvisible (by rw [hturn]; rfl)) hidle
          hlike.idle_of _
      · rename_i hturn
        rw [hturn] at hobserving
        exact hobserving.elim
      · rename_i hturn
        rw [hturn] at hobserving
        exact hobserving.elim
      · rename_i hturn
        rw [hturn] at hobserving
        exact hobserving.elim
      · cases hstep

private theorem handle_hidden (h : s.Shadows x observer shown s') {msg : List Bytes}
    (hsender : ¬ observer (ZmqServer.identityOf msg)) :
    Service.Shadows x observer shown { s with server := (s.server.handle msg).1 } s' := by
  have hleaves := @ZmqServer.handle_leaves s.server msg
  refine ⟨fun identity hidentity => ?_, h.secret.trans hleaves.1.symm, h.store, h.clock, h.queues,
    h.loop, h.sent⟩
  have hne : identity ≠ ZmqServer.identityOf msg := fun heq => hsender (heq ▸ hidentity)
  obtain ⟨hsecret, hsession⟩ := h.sessions identity hidentity
  exact ⟨hsecret.trans hleaves.1.symm, hsession.trans (hleaves.2 identity hne).symm⟩

private theorem handle_both (h : s.Shadows x observer shown s') {msg : List Bytes}
    (hsender : observer (ZmqServer.identityOf msg)) :
    (s'.server.handle msg).2 = (s.server.handle msg).2 ∧
      Service.Shadows x observer shown { s with server := (s.server.handle msg).1 }
        { s' with server := (s'.server.handle msg).1 } := by
  have hsame := (h.sessions _ hsender).handle
  have hleaves := @ZmqServer.handle_leaves s.server msg
  have hleaves' := @ZmqServer.handle_leaves s'.server msg
  refine ⟨hsame.1, fun identity hidentity => ?_, hsame.2.1, h.store, h.clock, h.queues, h.loop, h.sent⟩
  refine ⟨hsame.2.1, ?_⟩
  by_cases heq : identity = ZmqServer.identityOf msg
  · rw [heq]
    exact hsame.2.2
  · exact (hleaves'.2 identity heq).trans
      ((h.sessions identity hidentity).2.trans (hleaves.2 identity heq).symm)

private theorem receiving (h : s.Shadows x observer shown s') (hturn : s.turn = .receiving) :
    s'.turn = .receiving ∧ s.machine.phase loopThread = .idle ∧
      s'.machine.phase loopThread = .idle := by
  have hloop := h.loop
  rw [hturn] at hloop
  cases hloop with
  | hidden hhidden => exact absurd hhidden Turn.receiving_visible
  | same _ _ hreads hsame hlike =>
      have hidle : s.machine.phase loopThread = .idle := hreads.resolve_left (by simp)
      rw [hidle] at hlike
      exact ⟨hsame, hidle, hlike.idle_of⟩

private theorem begin_hidden (h : s.Shadows x observer shown s') (hturn : s.turn = .receiving)
    {turn : Turn}
    {identity : Bytes} (hidentity : turn.identity? = some identity) (hnot : ¬ observer identity)
    {m : Machine} (hstore : m.store = s.machine.store) (hqueues : m.queues = s.machine.queues)
    (hclock : s.machine.clock.current.ticks ≤ m.clock.current.ticks)
    (hreads : (∃ identity, turn = .calling identity) ∨ m.phase loopThread = .idle)
    (hunseen : ∀ o ∈ (m.phase loopThread).ops, o.Unseen shown) :
    Service.Shadows x observer shown { s with machine := m, turn := turn } s' := by
  obtain ⟨hturn', -, hidle'⟩ := h.receiving hturn
  have hhidden : turn.Hidden observer := (Turn.hidden_iff hidentity).mpr hnot
  refine ⟨h.sessions, h.secret, ?_, h.clock.trans hclock, fun i => ?_,
    .hidden hhidden hreads hunseen hturn' hidle', h.sent⟩
  · dsimp only
    rw [hstore]
    exact h.store
  · dsimp only
    rw [hqueues]
    exact (h.queues i).mono fun _ => hhidden

private theorem write_hidden (h : s.Shadows x observer shown s') (howned : s.machine.Owned)
    (hturn : s.turn = .receiving) {request : Request} {principal : UInt32}
    {readings : List (List Int64)} {call : Call} (hcall : request.call? principal readings = some call)
    (hsorted : Sorted readings) {identity : Bytes} (hsender : ¬ observer identity)
    (havoids : request.Avoids x.lite3 shown s.machine.store.credentials principal)
    (hstep : s.write x u identity call = some t) : t.Shadows x observer shown s' := by
  obtain ⟨hturn', hidle, hidle'⟩ := h.receiving hturn
  rcases write_cases hstep with ⟨_, _, -, hm, hs⟩ | ⟨_, result, -, hm, hs⟩
  · rw [hs]
    generalize t.machine = m at hm ⊢
    cases Machine.step_sound hm with
    | @start _ _ clock plan _ hprep =>
        have hclock := Request.clock_le hcall hsorted hprep
        refine h.begin_hidden hturn rfl hsender rfl rfl hclock (Or.inl ⟨identity, rfl⟩) ?_
        intro o ho
        simp only [Machine.setPhase, Function.update_self] at ho
        rw [Phase.ops, Phase.parts, ← Work.ops_eq] at ho
        obtain ⟨key, hwritten, hcan, hkey⟩ := Request.planned_keys hcall hprep ho
        obtain ⟨hvalue, hsidecar⟩ := havoids key hwritten hcan
        rcases hkey with hkey | hkey
        · rwa [ShardOp.Unseen, hkey]
        · rwa [ShardOp.Unseen, hkey]
  · rw [hs]
    generalize t.machine = m at hm ⊢
    cases Machine.step_sound hm with
    | @refuse _ _ clock _ _ hprep =>
        have hclock := Request.clock_le hcall hsorted hprep
        have h' := h.machines { s.machine with clock := clock } s'.machine h.store
          (h.clock.trans hclock) h.queues h.loop
        cases Call.refusal call result with
        | none => exact h'
        | some text => exact h'.reply_hidden (howned.step hm) hsender hturn' hidle hidle' _

private theorem receive_hidden (h : s.Shadows x observer shown s') (howned : s.machine.Owned)
    (hturn : s.turn = .receiving) {msg : List Bytes} {readings : List (List Int64)}
    (hsorted : Sorted readings) (hsender : ¬ observer (ZmqServer.identityOf msg))
    (havoids : ∀ request principal, (s.server.handle msg).2 = .call request principal →
      request.Avoids x.lite3 shown s.machine.store.credentials principal)
    (hstep : s.receive x u msg readings = some t) : t.Shadows x observer shown s' := by
  have h₁ := h.handle_hidden hsender
  obtain ⟨hturn', hidle, hidle'⟩ := h.receiving hturn
  unfold receive at hstep
  dsimp only at hstep
  split at hstep
  · cases hstep
    exact h₁
  · cases hstep
    exact h₁.reply_hidden howned hsender hturn' hidle hidle' _
  · rename_i request principal haction
    unfold serve at hstep
    split at hstep
    · rename_i call hcall
      exact h₁.write_hidden howned hturn hcall hsorted hsender (havoids request principal haction) hstep
    · split at hstep
      · split at hstep
        · cases hstep
          exact h₁.begin_hidden hturn rfl hsender rfl rfl (le_refl _) (Or.inr hidle) (by
            rw [hidle]; simp [Phase.ops, Phase.parts])
        · cases hstep
          exact h₁.reply_hidden howned hsender hturn' hidle hidle' _
      · cases hstep
        exact h₁.begin_hidden hturn rfl hsender rfl rfl (le_refl _) (Or.inr hidle) (by
          rw [hidle]; simp [Phase.ops, Phase.parts])
      · cases hstep
  · cases hstep

private theorem begin_both (h : s.Shadows x observer shown s') (hturn : s.turn = .receiving)
    {turn : Turn}
    {identity : Bytes} (hidentity : turn.identity? = some identity) (hobserver : observer identity)
    (hobserving : turn.Observing shown) {m m' : Machine} (hstore : m.store = s.machine.store)
    (hstore' : m'.store = s'.machine.store) (hqueues : m.queues = s.machine.queues)
    (hqueues' : m'.queues = s'.machine.queues)
    (hclock : m'.clock.current.ticks ≤ m.clock.current.ticks)
    (hreads : (∃ identity, turn = .calling identity) ∨ m.phase loopThread = .idle)
    (hlike : (m.phase loopThread).Like shown (m'.phase loopThread)) :
    Service.Shadows x observer shown { s with machine := m, turn := turn }
      { s' with machine := m', turn := turn } := by
  have hvisible : ¬ turn.Hidden observer := fun hhidden => (Turn.hidden_iff hidentity).mp hhidden hobserver
  refine ⟨h.sessions, h.secret, ?_, hclock, fun i => ?_, .same hvisible hobserving hreads rfl hlike,
    h.sent⟩
  · dsimp only
    rw [hstore, hstore']
    exact h.store
  · dsimp only
    rw [hqueues, hqueues']
    refine (h.queues i).mono fun hhidden => ?_
    rw [hturn] at hhidden
    exact absurd hhidden Turn.receiving_visible

private theorem write_both (h : s.Shadows x observer shown s') (hl : x.lite3.Lawful)
    (hturn : s.turn = .receiving) {request : Request} {principal : UInt32}
    {readings : List (List Int64)} {call : Call} (hcall : request.call? principal readings = some call)
    (hsorted : Sorted readings) {identity : Bytes} (hsender : observer identity)
    (hobs : request.Observes x.lite3 shown) (hstep : s.write x u identity call = some t) :
    ∃ readings' call' t', request.call? principal readings' = some call' ∧
      s'.write x u identity call' = some t' ∧ t.Shadows x observer shown t' := by
  obtain ⟨hturn', hidle, hidle'⟩ := h.receiving hturn
  rcases write_cases hstep with ⟨_, _, -, hm, hs⟩ | ⟨_, result, hprep, hm, hs⟩
  · rw [hs]
    generalize t.machine = m at hm ⊢
    cases Machine.step_sound hm with
    | @start _ _ clock plan _ hprep =>
        obtain ⟨readings', call', r', hcall', hprep', hlike⟩ := prepare_like s.machine.engine
          s'.machine.engine hl h.store.rules h.clock hcall hsorted hobs hprep
        cases hlike with
        | accepted hbehind hwork =>
            have hm' := (Machine.Step.start (u := u) hidle' hprep').taken
            refine ⟨readings', call', _, hcall', by simp only [write, hprep', hm']; rfl, ?_⟩
            have hidentity : (Turn.calling identity).identity? = some identity := rfl
            refine h.begin_both hturn hidentity hsender trivial rfl rfl rfl rfl hbehind
              (Or.inl ⟨_, rfl⟩) ?_
            simp only [Machine.setPhase, Function.update_self]
            exact .planned hwork
  · rw [hs]
    generalize t.machine = m at hm ⊢
    cases Machine.step_sound hm with
    | @refuse _ _ clock result' _ hprep' =>
        have hresult : result' = result := by
          rw [hprep] at hprep'
          cases hprep'
          rfl
        subst hresult
        obtain ⟨readings', call', r', hcall', hprep'', hlike⟩ := prepare_like s.machine.engine
          s'.machine.engine hl h.store.rules h.clock hcall hsorted hobs hprep'
        cases hlike with
        | @refused _ clock' _ hbehind =>
            have hm' := (Machine.Step.refuse (u := u) hidle' hprep'').taken
            have h' := h.machines { s.machine with clock := clock } { s'.machine with clock := clock' }
              h.store hbehind h.queues h.loop
            have hrefusal := Request.refusal_eq hcall hcall' result'
            cases htext : Call.refusal call result' with
            | none =>
                rw [htext] at hrefusal
                exact ⟨readings', call', _, hcall', by
                  simp only [write, hprep'', hm', hrefusal, Option.map_some], h'⟩
            | some text =>
                rw [htext] at hrefusal
                refine ⟨readings', call', _, hcall', by
                  simp only [write, hprep'', hm', hrefusal, Option.map_some]; rfl, ?_⟩
                refine h'.reply_both ?_ hsender hidle hidle' _
                rw [hturn]
                exact Turn.receiving_visible

private theorem receive_both (h : s.Shadows x observer shown s') (hl : x.lite3.Lawful)
    (hturn : s.turn = .receiving) {msg : List Bytes} {readings : List (List Int64)}
    (hsorted : Sorted readings) (hsender : observer (ZmqServer.identityOf msg))
    (hobs : ∀ request principal, (s.server.handle msg).2 = .call request principal →
      request.Observes x.lite3 shown)
    (hstep : s.receive x u msg readings = some t) :
    ∃ readings' t', s'.receive x u msg readings' = some t' ∧ t.Shadows x observer shown t' := by
  obtain ⟨haction', h₁⟩ := h.handle_both hsender
  obtain ⟨-, hidle, hidle'⟩ := h.receiving hturn
  have hvisible : ¬ s.turn.Hidden observer := by
    rw [hturn]
    exact Turn.receiving_visible
  unfold receive at hstep ⊢
  dsimp only at hstep ⊢
  rw [haction']
  split at hstep
  · cases hstep
    exact ⟨[], _, rfl, h₁⟩
  · cases hstep
    exact ⟨[], _, rfl, h₁.reply_both hvisible hsender hidle hidle' _⟩
  · rename_i request principal haction
    have hrequest := hobs request principal haction
    unfold serve at hstep ⊢
    split at hstep
    · rename_i call hcall
      obtain ⟨readings', call', t', hcall', hwrite, hshadows⟩ :=
        h₁.write_both hl hturn hcall hsorted hsender hrequest hstep
      exact ⟨readings', t', by simp only [hcall', hwrite], hshadows⟩
    · cases request with
      | get key =>
          have hrules : s'.machine.store.credentials = s.machine.store.credentials := h.store.rules
          simp only [Request.call?] at hstep ⊢
          rw [hrules]
          split at hstep
          · rename_i hcan
            cases hstep
            refine ⟨[], _, by rw [if_pos hcan], ?_⟩
            have hidentity : (Turn.reading (ZmqServer.identityOf msg) key).identity? =
                some (ZmqServer.identityOf msg) := rfl
            refine h₁.begin_both hturn hidentity hsender hrequest rfl rfl rfl rfl h.clock
              (Or.inr hidle) ?_
            rw [hidle, hidle']
            exact .idle
          · rename_i hcan
            cases hstep
            exact ⟨[], _, by rw [if_neg hcan], h₁.reply_both hvisible hsender hidle hidle' _⟩
      | batchGet keys => exact hrequest.elim
      | _ => cases hstep
  · cases hstep

theorem step (h : s.Shadows x observer shown s') (howned : s.machine.Owned) (hl : x.lite3.Lawful)
    (hz : x.zstd.Lossless) {event : ServiceEvent} (hdiscreet : event.Discreet x observer shown s)
    (hstep : s.step x u event = some t) :
    ∃ events' t', s'.run x u events' = some t' ∧ t.Shadows x observer shown t' ∧
      events'.flatMap ServiceEvent.received =
        event.received.filter fun msg => decide (observer (ZmqServer.identityOf msg)) := by
  have hfollow {event' : ServiceEvent} (hreceived : event'.received = [])
      (hcase : t.Shadows x observer shown s' ∨
        ∃ t', s'.step x u event' = some t' ∧ t.Shadows x observer shown t') :
      ∃ events' t', s'.run x u events' = some t' ∧ t.Shadows x observer shown t' ∧
        events'.flatMap ServiceEvent.received = [] := by
    rcases hcase with hhidden | ⟨t', hstep', hboth⟩
    · exact ⟨[], s', rfl, hhidden, rfl⟩
    · exact ⟨[event'], t', by simp [run, hstep'], hboth, by simp [hreceived]⟩
  cases event with
  | receive msg readings =>
      obtain ⟨hsorted, hrequests⟩ := hdiscreet
      simp only [Service.step] at hstep
      split at hstep
      · rename_i hturn
        by_cases hsender : observer (ZmqServer.identityOf msg)
        · obtain ⟨readings', t', hreceive, hboth⟩ := h.receive_both hl hturn hsorted hsender
            (fun request principal hcall => (hrequests request principal hcall).1 hsender) hstep
          refine ⟨[.receive msg readings'], t', ?_, hboth, ?_⟩
          · simp [run, Service.step, (h.receiving hturn).1, hreceive]
          · simp [ServiceEvent.received, hsender]
        · refine ⟨[], s', rfl, ?_, by simp [ServiceEvent.received, hsender]⟩
          exact h.receive_hidden howned hturn hsorted hsender
            (fun request principal hcall => (hrequests request principal hcall).2 hsender) hstep
      · cases hstep
  | read => exact hfollow rfl (h.read howned hz hdiscreet hstep)
  | append => exact hfollow rfl (h.append hstep)
  | work => exact hfollow rfl (h.work hstep)
  | shard i => exact hfollow rfl (h.shard hstep)
  | answer => exact hfollow rfl (h.answer howned hstep)

end Service.Shadows

open Service in
/-- A server is started on an engine on which nothing is queued. The observers get and write keys and
read only shown ones, none of which is a sidecar of what they write; the others may do anything but
write a shown key, an access rule or a user. Then every run has a counterpart on a server that is sent
the messages of the observers alone, in the same order, and the observers are sent the same answers
there. -/
theorem others_unnoticed (x : External) (hl : x.lite3.Lawful) (hz : x.zstd.Lossless)
    (u : Nat → Nat → UInt8) (secret : Bytes) (e : Engine) (hread : e.store.Readable x)
    (hqueues : ∀ shard, e.queues shard = []) (observer : Bytes → Prop) [DecidablePred observer]
    (shown : Bytes → Prop) (events : List ServiceEvent)
    (hdiscreet : EveryStep (step x u) (init secret e) events fun s event =>
      event.Discreet x observer shown s)
    (s : Service) (hrun : (init secret e).run x u events = some s) :
    ∃ events' s', (init secret e).run x u events' = some s' ∧
      events'.flatMap ServiceEvent.received = (events.flatMap ServiceEvent.received).filter
        (fun msg => decide (observer (ZmqServer.identityOf msg))) ∧
      s'.sent = s.sent.filter fun r => decide (observer r.1) := by
  have hinit : (init secret e).Shadows x observer shown (init secret e) := by
    refine ⟨fun _ _ => ⟨rfl, rfl⟩, rfl, .refl shown hread, le_refl _, fun i => ?_,
      .same Turn.receiving_visible trivial (Or.inr rfl) rfl .idle, rfl⟩
    simp only [init, Machine.ofEngine, hqueues, List.map_nil]
    exact .nil
  obtain ⟨events', s', hrun', ⟨hend, -⟩, hreceived⟩ := run_followed
    (R := fun s s' => s.Shadows x observer shown s' ∧ s.machine.Owned)
    (fun event => event.received.filter fun msg => decide (observer (ZmqServer.identityOf msg)))
    ServiceEvent.received (by
      rintro s s' event t ⟨h, howned⟩ hok hstep
      obtain ⟨events', t', hrun', hshadows, hsame⟩ := h.step howned hl hz hok hstep
      exact ⟨events', t', hrun', ⟨hshadows, step_owned howned hstep⟩, hsame⟩)
    ⟨hinit, Machine.ofEngine_owned e⟩ hdiscreet hrun
  refine ⟨events', s', hrun', ?_, hend.sent⟩
  rw [hreceived, List.filter_flatMap]

section

private theorem ruledEngine_readable : ruledEngine.store.Readable ruledX :=
  Store.Reachable.readable ⟨[.apply (.put (ascii "sys:acl:7:a") (ascii "WRITE"))], rfl⟩

/-- The observer `o` reads a key before and while somebody else writes. -/
private def unnoticedRun : List ServiceEvent :=
  [sentBy "o" "A" [ascii "0", ascii "s"], sentBy "c" "A" [ascii "7", ascii "s"],
    sentBy "c" "P" [ascii "a1", ascii "v"], .append, .work, .shard firstShard, .shard firstShard,
    .shard firstShard, .answer, sentBy "o" "G" [ascii "b"], .read]

/-- A check of `Discreet` that can be evaluated. -/
private def discreet (s : Service) : ServiceEvent → Bool
  | .receive msg readings =>
      decide (∀ rs ∈ readings, rs.Pairwise (· ≤ ·)) &&
        match (s.server.handle msg).2 with
        | .call request principal =>
            if ZmqServer.identityOf msg = ascii "o" then
              decide (request.Observes ruledX.lite3 (· = ascii "b"))
            else decide (request.Avoids ruledX.lite3 (· = ascii "b") s.machine.store.credentials principal)
        | _ => true
  | _ => s.machine.store.plain

private theorem discreet_sound {s : Service} {event : ServiceEvent} (h : discreet s event = true) :
    event.Discreet ruledX (· = ascii "o") (· = ascii "b") s := by
  cases event with
  | receive msg readings =>
      rw [discreet, Bool.and_eq_true, decide_eq_true_eq] at h
      refine ⟨h.1, fun request principal hcall => ?_⟩
      rw [hcall] at h
      by_cases hsender : ZmqServer.identityOf msg = ascii "o"
      · simp only [if_pos hsender, decide_eq_true_eq] at h
        exact ⟨fun _ => h.2, fun hnot => absurd hsender hnot⟩
      · simp only [if_neg hsender, decide_eq_true_eq] at h
        exact ⟨fun hyes => absurd hyes hsender, fun _ => h.2⟩
  | _ => exact Store.valuesShort_of_plain h

open Service in
theorem others_unnoticed_put :
    ∃ s, (init (ascii "s") ruledEngine).run ruledX (fun _ _ => 0) unnoticedRun = some s ∧
      s.sent = [(ascii "o", .text (ascii "OK")), (ascii "c", .text (ascii "OK")),
        (ascii "c", .text (ascii "OK")), (ascii "o", .text [])] ∧
      ∃ events' s', (init (ascii "s") ruledEngine).run ruledX (fun _ _ => 0) events' = some s' ∧
        events'.flatMap ServiceEvent.received =
          (unnoticedRun.flatMap ServiceEvent.received).filter
            (fun msg => decide (ZmqServer.identityOf msg = ascii "o")) ∧
        s'.sent = s.sent.filter fun r => decide (r.1 = ascii "o") := by
  have hsent : ((init (ascii "s") ruledEngine).run ruledX (fun _ _ => 0) unnoticedRun).map
      Service.sent = some [(ascii "o", .text (ascii "OK")), (ascii "c", .text (ascii "OK")),
        (ascii "c", .text (ascii "OK")), (ascii "o", .text [])] := by decide +kernel
  obtain ⟨s, hrun, hs⟩ := Option.map_eq_some_iff.mp hsent
  have hsteps : allSteps (step ruledX fun _ _ => 0) discreet (init (ascii "s") ruledEngine)
      unnoticedRun = true := by decide +kernel
  refine ⟨s, hrun, hs, others_unnoticed ruledX Lite3.reference_lawful Zstd.plain_lossless
    (fun _ _ => 0) (ascii "s") ruledEngine ruledEngine_readable (fun _ => rfl) (· = ascii "o")
    (· = ascii "b") unnoticedRun ?_ s hrun⟩
  intro before event after hsplit s hbefore
  exact discreet_sound (everyStep_of_allSteps hsteps before event after hsplit s hbefore)

end

end L3KV
