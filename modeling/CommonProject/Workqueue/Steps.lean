import CommonProject.Workqueue.Basic

/-! What one step of the workqueue can do. -/
namespace CommonProject.Workqueue
open Foundations
variable {ω : Type}

theorem Shared.lock_map_eq_some {σ σ' : Shared ω} {π : Type} {pc pc' : π} {e : Effect} :
    (σ.lock.map fun τ => (τ, pc, Effect.none)) = some (σ', pc', e) ↔
      σ.locked = false ∧ { σ with locked := true } = σ' ∧ pc = pc' ∧ Effect.none = e := by
  unfold Shared.lock
  cases σ.locked <;> simp

inductive WorkerAct [DecidableEq ω] (ok : Bool) (σ : Shared ω) :
    WorkerPc ω → Shared ω → WorkerPc ω → Effect → Prop
  | created : σ.locked = false →
      WorkerAct ok σ .created { σ with locked := true } .startIdle .none
  | startIdle :
      WorkerAct ok σ .startIdle { σ with nrIdleWorker := σ.nrIdleWorker + 1 } .startCount .none
  | startCount :
      WorkerAct ok σ .startCount { σ with nrWorker := σ.nrWorker + 1 } .wakeUp .none
  | wakeUp : WorkerAct ok σ .wakeUp { σ with nrIdleWorker := σ.nrIdleWorker - 1 } .fetch .none
  | fetchNone : σ.workList = [] → WorkerAct ok σ .fetch σ .checkAlive .none
  | fetchWork {work : ω} {rest : List ω} : σ.workList = work :: rest →
      WorkerAct ok σ .fetch { σ with workList := rest, taken := σ.taken ++ [work] }
        (.unlockRun work) .none
  | unlockRun {work : ω} : WorkerAct ok σ (.unlockRun work) σ.unlock (.runFunc work) .none
  | runFunc {work : ω} :
      WorkerAct ok σ (.runFunc work) { σ with called := σ.called ++ [work] } (.clearWq work) .none
  | clearWq {work : ω} : WorkerAct ok σ (.clearWq work)
      { σ with wq := Function.update σ.wq work false, finished := σ.finished ++ [work] } .relock .none
  | relock : σ.locked = false → WorkerAct ok σ .relock { σ with locked := true } .grow .none
  | growNeeded : σ.needsWorker = true →
      WorkerAct ok σ .grow { σ with refCount := σ.refCount + 1 } .spawn .none
  | growUnneeded : σ.needsWorker = false → WorkerAct ok σ .grow σ .fetch .none
  | spawnDone : ok = true → WorkerAct ok σ .spawn σ .fetch .spawn
  | spawnFailed : ok = false → WorkerAct ok σ .spawn σ .unspawn .none
  | unspawn : WorkerAct ok σ .unspawn ({ σ with refCount := σ.refCount - 1 }.warn
      "Cannot create additional worker for workqueue") .fetch .none
  | alive : σ.alive = true →
      WorkerAct ok σ .checkAlive { σ with nrIdleWorker := σ.nrIdleWorker + 1 } .surplusTest .none
  | dead : σ.alive = false →
      WorkerAct ok σ .checkAlive { σ with nrWorker := σ.nrWorker - 1 } .leaveRef .none
  | surplus : σ.nrMaxIdleWorker < σ.nrIdleWorker →
      WorkerAct ok σ .surplusTest { σ with nrIdleWorker := σ.nrIdleWorker - 1 } .leaveCount .none
  | wait : σ.nrIdleWorker ≤ σ.nrMaxIdleWorker →
      WorkerAct ok σ .surplusTest σ.useCond.unlock .blocked .none
  | woken : σ.locked = false → WorkerAct ok σ .woken { σ with locked := true } .wakeUp .none
  | leaveCount : WorkerAct ok σ .leaveCount { σ with nrWorker := σ.nrWorker - 1 } .leaveRef .none
  | leaveRef : WorkerAct ok σ .leaveRef { σ with refCount := σ.refCount - 1 } .leaveUnlock .none
  | leaveUnlock : WorkerAct ok σ .leaveUnlock σ.unlock .exited .none

inductive CallAct [DecidableEq ω] (σ : Shared ω) :
    CallPc ω → Shared ω → CallPc ω → Effect → Prop
  | lock {work : ω} : σ.locked = false →
      CallAct σ (.lock work) { σ with locked := true } (.insert work) .none
  | already {work : ω} : σ.wq work = true →
      CallAct σ (.insert work) σ (.unlock work .already) .none
  | insert {work : ω} : σ.wq work = false → σ.alive = true → CallAct σ (.insert work)
      { σ with workList := σ.workList ++ [work], accepted := σ.accepted ++ [work] }
      (.storeWq work) .none
  | dead {work : ω} : σ.wq work = false → σ.alive = false →
      CallAct σ (.insert work) σ (.unlock work .dead) .none
  | storeWq {work : ω} : CallAct σ (.storeWq work)
      { σ with wq := Function.update σ.wq work true } (.notify work) .none
  | nobodyIdle {work : ω} : σ.nrIdleWorker = 0 →
      CallAct σ (.notify work) σ (.unlock work .ok) .none
  | notify {work : ω} : σ.nrIdleWorker ≠ 0 →
      CallAct σ (.notify work) σ.useCond (.unlock work .ok) .signal
  | unlock {work : ω} {r : QueueResult} : CallAct σ (.unlock work r)
      { σ.unlock with warnings := σ.warnings ++ r.warning } (.returned work r) .none

inductive OwnerAct (n : Nat) (ok : Bool) (σ : Shared ω) :
    OwnerPc → Shared ω → OwnerPc → Effect → Prop
  | nameTooLong {name : String} : workqueueNameLen < name.utf8ByteSize + 1 →
      OwnerAct n ok σ (.enter name) (σ.warn ("Workqueue name is too long (max " ++
        toString workqueueNameLen ++ ")")) (.failed none) .none
  | enter {name : String} : name.utf8ByteSize + 1 ≤ workqueueNameLen →
      OwnerAct n ok σ (.enter name) (assignFields n σ name) .mutexInit .none
  | mutexInit : ok = true →
      OwnerAct n ok σ .mutexInit { σ with locked := false, lockDestroyed := false } .condInit .none
  | mutexFailed : ok = false →
      OwnerAct n ok σ .mutexInit (σ.warn "Cannot init mutex for workqueue") (.failed none) .none
  | condInit : ok = true →
      OwnerAct n ok σ .condInit { σ with condDestroyed := false } .listInit .none
  | condFailed : ok = false →
      OwnerAct n ok σ .condInit (σ.warn "Cannot init cond for workqueue") (.lockDestroy none) .none
  | listInit : OwnerAct n ok σ .listInit { σ with workList := [] } (.loop 0) .none
  | loop {i : Nat} : i < n →
      OwnerAct n ok σ (.loop i) { σ with refCount := σ.refCount + 1 } (.create i) .none
  | loopEnd {i : Nat} : n ≤ i → OwnerAct n ok σ (.loop i) σ .ready .none
  | create {i : Nat} : ok = true → OwnerAct n ok σ (.create i) σ (.loop (i + 1)) .spawn
  | createFailed {i : Nat} : ok = false → OwnerAct n ok σ (.create i) σ (.uncount i) .none
  | uncount {i : Nat} : OwnerAct n ok σ (.uncount i) ({ σ with refCount := σ.refCount - 1 }.warn
      "Cannot create worker for workqueue") (.cleanTest i) .none
  | cleanEnd {i : Nat} : σ.nrWorker = 0 →
      OwnerAct n ok σ (.cleanTest i) σ (.cleanDestroy i) .none
  | cleanTest {i : Nat} : σ.nrWorker ≠ 0 →
      OwnerAct n ok σ (.cleanTest i) σ (.cleanSignal i) .none
  | cleanSignal {i : Nat} : OwnerAct n ok σ (.cleanSignal i) σ.useCond (.cleanTest i) .signal
  | cleanDestroy {i : Nat} : OwnerAct n ok σ (.cleanDestroy i)
      { σ with condDestroyed := true } (.exitTest (.cleanup i)) .none
  | exitEnd {c : Closing} : σ.refCount = 0 → OwnerAct n ok σ (.exitTest c) σ (.exitLock c) .none
  | exitTest {c : Closing} : σ.refCount ≠ 0 →
      OwnerAct n ok σ (.exitTest c) σ (.exitSignal c) .none
  | exitSignal {c : Closing} : OwnerAct n ok σ (.exitSignal c) σ.useCond (.exitTest c) .signal
  | exitLock {c : Closing} : σ.locked = false →
      OwnerAct n ok σ (.exitLock c) { σ with locked := true } (.exitUnlock c) .none
  | cleanUnlock {i : Nat} :
      OwnerAct n ok σ (.exitUnlock (.cleanup i)) σ.unlock (.lockDestroy (some i)) .none
  | exitUnlock : OwnerAct n ok σ (.exitUnlock .destroy) σ.unlock .warnIdle .none
  | lockDestroy {i : Option Nat} :
      OwnerAct n ok σ (.lockDestroy i) { σ with lockDestroyed := true } (.failed i) .none
  | ready : OwnerAct n ok σ .ready σ .destroyLock .none
  | destroyLock : σ.locked = false →
      OwnerAct n ok σ .destroyLock { σ with locked := true } .destroyClear .none
  | destroyClear : OwnerAct n ok σ .destroyClear { σ with alive := false } .destroyUnlock .none
  | destroyUnlock : OwnerAct n ok σ .destroyUnlock σ.unlock .drainList .none
  | listEmpty : σ.workList = [] → OwnerAct n ok σ .drainList σ .drainCount .none
  | listLeft : σ.workList ≠ [] → OwnerAct n ok σ .drainList σ .drainSignal .none
  | noWorker : σ.nrWorker = 0 → OwnerAct n ok σ .drainCount σ (.exitTest .destroy) .none
  | workerLeft : σ.nrWorker ≠ 0 → OwnerAct n ok σ .drainCount σ .drainSignal .none
  | drainSignal : OwnerAct n ok σ .drainSignal σ.useCond .drainList .signal
  | noneIdle : σ.nrIdleWorker = 0 → OwnerAct n ok σ .warnIdle σ .condDestroy .none
  | warnIdle : σ.nrIdleWorker ≠ 0 → OwnerAct n ok σ .warnIdle
      (σ.warn ("There are " ++ toString σ.nrIdleWorker ++ " idle workers in workqueue"))
      .condDestroy .none
  | condDestroy : OwnerAct n ok σ .condDestroy { σ with condDestroyed := true } .mutexDestroy .none
  | mutexDestroy : OwnerAct n ok σ .mutexDestroy { σ with lockDestroyed := true } .destroyed .none

section Acts
variable {n : Nat} {ok : Bool} {σ σ' : Shared ω} {e : Effect}

private theorem workerStep_act [DecidableEq ω] {pc pc' : WorkerPc ω}
    (h : workerStep ok σ pc = some (σ', pc', e)) : WorkerAct ok σ pc σ' pc' e := by
  revert h
  fun_cases workerStep ok σ pc <;> intro h
  all_goals first
    | obtain ⟨hl, rfl, rfl, rfl⟩ := Shared.lock_map_eq_some.mp h
    | cases h
  all_goals constructor <;> simp_all

private theorem callStep_act [DecidableEq ω] {pc pc' : CallPc ω}
    (h : callStep σ pc = some (σ', pc', e)) : CallAct σ pc σ' pc' e := by
  revert h
  fun_cases callStep σ pc <;> intro h
  all_goals first
    | obtain ⟨hl, rfl, rfl, rfl⟩ := Shared.lock_map_eq_some.mp h
    | cases h
  all_goals constructor <;> simp_all

theorem ownerStep_act {pc pc' : OwnerPc} (h : ownerStep n ok σ pc = some (σ', pc', e)) :
    OwnerAct n ok σ pc σ' pc' e := by
  revert h
  fun_cases ownerStep n ok σ pc <;> intro h
  all_goals first
    | obtain ⟨hl, rfl, rfl, rfl⟩ := Shared.lock_map_eq_some.mp h
    | cases h
  all_goals constructor <;> simp_all

end Acts
section Effects
variable [DecidableEq ω] {ws ws' : List (WorkerPc ω)} {k : Nat} {target : Option Nat} {e : Effect}

theorem wakeWorker_eq_some :
    wakeWorker ws k = some ws' ↔ ws[k]? = some .blocked ∧ ws' = ws.set k .woken := by
  unfold wakeWorker
  split <;> simp_all [eq_comm]

theorem wakeWorker_total {f : WorkerPc ω → Int} (hf : f .woken = f .blocked)
    (h : wakeWorker ws k = some ws') : total f ws' = total f ws := by
  obtain ⟨hk, rfl⟩ := wakeWorker_eq_some.mp h
  rw [total_set f _ hk]
  omega

theorem wakeWorker_number {P : WorkerPc ω → Bool} (hw : P .woken = P .blocked)
    (h : wakeWorker ws k = some ws') : number P ws' = number P ws :=
  wakeWorker_total (by simp [hw]) h

/-- A weight that a wake-up does not change grows by the weight of a created worker. -/
theorem perform_total {f : WorkerPc ω → Int} (hf : f .woken = f .blocked)
    (h : perform target ws e = some ws') :
    total f ws' = total f ws + if e = .spawn then f .created else 0 := by
  cases e with
  | none => cases h; simp
  | spawn => cases h; simp
  | signal =>
    cases target with
    | some k => simp [wakeWorker_total hf h]
    | none =>
      simp only [perform] at h
      split at h
      · cases h
      · cases h; simp

theorem perform_number {P : WorkerPc ω → Bool} (hw : P .woken = P .blocked)
    (hc : P .created = false) (h : perform target ws e = some ws') :
    number P ws' = number P ws := by
  have ht := perform_total (f := fun pc => (P pc).toInt) (by simp [hw]) h
  simpa [hc, number] using ht

theorem set_perform_number {P : WorkerPc ω → Bool} (hw : P .woken = P .blocked)
    (hc : P .created = false) {pc pc' : WorkerPc ω} (hk : ws[k]? = some pc)
    (h : perform target (ws.set k pc') e = some ws') :
    number P ws' = number P ws + ((P pc').toInt - (P pc).toInt) := by
  rw [perform_number hw hc h, number_set P pc' hk]

theorem perform_length (h : perform target ws e = some ws') :
    (ws'.length : Int) = ws.length + if e = .spawn then 1 else 0 := by
  rw [← total_one, ← total_one]
  exact perform_total rfl h

/-- Other threads change only by being created or woken. -/
theorem perform_forall {Q : WorkerPc ω → Prop} (hc : Q .created) (hw : Q .woken)
    (h : perform target ws e = some ws') (hQ : ∀ pc ∈ ws, Q pc) : ∀ pc ∈ ws', Q pc := by
  intro pc hpc
  cases e with
  | none =>
    cases h
    exact hQ pc hpc
  | spawn =>
    cases h
    rcases List.mem_append.mp hpc with hm | hm
    · exact hQ pc hm
    · exact List.mem_singleton.mp hm ▸ hc
  | signal =>
    cases target with
    | some k =>
      obtain ⟨-, rfl⟩ := wakeWorker_eq_some.mp h
      rcases List.mem_or_eq_of_mem_set hpc with hm | rfl
      · exact hQ pc hm
      · exact hw
    | none =>
      simp only [perform] at h
      split at h
      · cases h
      · cases h
        exact hQ pc hpc

end Effects
section Moves
variable [DecidableEq ω] {n : Nat} {s t : State ω}

inductive Move (n : Nat) (s : State ω) : State ω → Prop
  | worker {k : Nat} {ok : Bool} {pc pc' : WorkerPc ω} {σ : Shared ω} {e : Effect}
      {ws : List (WorkerPc ω)} : s.workers[k]? = some pc →
      WorkerAct ok s.shared pc σ pc' e →
      perform none (s.workers.set k pc') e = some ws →
      Move n s { s with shared := σ, workers := ws }
  | wake {k : Nat} {ws : List (WorkerPc ω)} : wakeWorker s.workers k = some ws →
      Move n s { s with workers := ws }
  | submit {work : ω} : s.owner.accepting → Move n s { s with calls := s.calls ++ [.lock work] }
  | call {k : Nat} {target : Option Nat} {pc pc' : CallPc ω} {σ : Shared ω} {e : Effect}
      {ws : List (WorkerPc ω)} : s.calls[k]? = some pc →
      CallAct s.shared pc σ pc' e → perform target s.workers e = some ws →
      Move n s { s with shared := σ, workers := ws, calls := s.calls.set k pc' }
  | owner {ok : Bool} {target : Option Nat} {pc' : OwnerPc} {σ : Shared ω} {e : Effect}
      {ws : List (WorkerPc ω)} : OwnerAct n ok s.shared s.owner σ pc' e →
      perform target s.workers e = some ws →
      Move n s { s with shared := σ, workers := ws, owner := pc' }

section Events
variable {k : Nat} {ok : Bool} {target : Option Nat} {work : ω}

theorem step_worker_inv (h : step n s (.worker k ok) = some t) : ∃ pc pc' σ e ws,
    s.workers[k]? = some pc ∧ WorkerAct ok s.shared pc σ pc' e ∧
    perform none (s.workers.set k pc') e = some ws ∧ t = { s with shared := σ, workers := ws } := by
  simp only [step, Option.bind_eq_bind, Option.bind_eq_some_iff] at h
  obtain ⟨pc, hpc, ⟨σ, pc', e⟩, hs, ws, hws, ht⟩ := h
  exact ⟨pc, pc', σ, e, ws, hpc, workerStep_act hs, hws, (Option.some.inj ht).symm⟩

theorem step_wake_inv (h : step n s (.wake k) = some t) :
    ∃ ws, wakeWorker s.workers k = some ws ∧ t = { s with workers := ws } := by
  simp only [step, Option.bind_eq_bind, Option.bind_eq_some_iff] at h
  obtain ⟨ws, hws, ht⟩ := h
  exact ⟨ws, hws, (Option.some.inj ht).symm⟩

theorem step_submit_inv (h : step n s (.submit work) = some t) :
    s.owner.accepting ∧ t = { s with calls := s.calls ++ [.lock work] } := by
  simp only [step] at h
  split at h
  · exact ⟨‹_›, (Option.some.inj h).symm⟩
  · cases h

theorem step_call_inv (h : step n s (.call k target) = some t) : ∃ pc pc' σ e ws,
    s.calls[k]? = some pc ∧ CallAct s.shared pc σ pc' e ∧
    perform target s.workers e = some ws ∧
    t = { s with shared := σ, workers := ws, calls := s.calls.set k pc' } := by
  simp only [step, Option.bind_eq_bind, Option.bind_eq_some_iff] at h
  obtain ⟨pc, hpc, ⟨σ, pc', e⟩, hs, ws, hws, ht⟩ := h
  exact ⟨pc, pc', σ, e, ws, hpc, callStep_act hs, hws, (Option.some.inj ht).symm⟩

theorem step_owner_inv (h : step n s (.owner ok target) = some t) : ∃ pc' σ e ws,
    OwnerAct n ok s.shared s.owner σ pc' e ∧ perform target s.workers e = some ws ∧
    t = { s with shared := σ, workers := ws, owner := pc' } := by
  simp only [step, Option.bind_eq_bind, Option.bind_eq_some_iff] at h
  obtain ⟨⟨σ, pc', e⟩, hs, ws, hws, ht⟩ := h
  exact ⟨pc', σ, e, ws, ownerStep_act hs, hws, (Option.some.inj ht).symm⟩

end Events

theorem step_move {e : Event ω} (h : step n s e = some t) : Move n s t := by
  cases e with
  | worker k ok =>
    obtain ⟨pc, pc', σ, e, ws, hpc, hs, hws, rfl⟩ := step_worker_inv h
    exact .worker hpc hs hws
  | wake k =>
    obtain ⟨ws, hws, rfl⟩ := step_wake_inv h
    exact .wake hws
  | submit work =>
    obtain ⟨hacc, rfl⟩ := step_submit_inv h
    exact .submit hacc
  | call k target =>
    obtain ⟨pc, pc', σ, e, ws, hpc, hs, hws, rfl⟩ := step_call_inv h
    exact .call hpc hs hws
  | owner ok target =>
    obtain ⟨pc', σ, e, ws, hs, hws, rfl⟩ := step_owner_inv h
    exact .owner hs hws

end Moves
end CommonProject.Workqueue
