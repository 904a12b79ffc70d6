import CommonProject.Workqueue.Steps

/-! The counters of the workqueue count its workers. -/
namespace CommonProject.Workqueue
open Foundations
variable {ω : Type}

@[simp] def WorkerPc.critical : WorkerPc ω → Bool
  | .created | .runFunc _ | .clearWq _ | .relock | .blocked | .woken | .exited => false
  | _ => true

/-- Between the start of a condition wait and the worker's account of its end. -/
@[simp] def WorkerPc.idle : WorkerPc ω → Bool
  | .startCount | .wakeUp | .surplusTest | .blocked | .woken => true
  | _ => false

@[simp] def WorkerPc.waiting : WorkerPc ω → Bool
  | .blocked | .woken => true
  | _ => false

/-- Past its start-up and not yet on the way out. -/
@[simp] def WorkerPc.started : WorkerPc ω → Bool
  | .created | .startIdle | .startCount | .leaveRef | .leaveUnlock | .exited => false
  | _ => true

@[simp] def WorkerPc.staying : WorkerPc ω → Bool
  | .leaveCount | .leaveRef | .leaveUnlock | .exited => false
  | _ => true

/-- The references a worker accounts for: its own, and that of the worker it creates. -/
@[simp] def WorkerPc.refs : WorkerPc ω → Int
  | .spawn | .unspawn => 2
  | .leaveUnlock | .exited => 0
  | _ => 1

@[simp] def CallPc.critical : CallPc ω → Bool
  | .lock _ | .returned _ _ => false
  | _ => true

@[simp] def OwnerPc.critical : OwnerPc → Bool
  | .destroyClear | .destroyUnlock | .exitUnlock _ => true
  | _ => false

@[simp] def OwnerPc.creating : OwnerPc → Bool
  | .create _ | .uncount _ => true
  | _ => false

/-- The list of works exists and workers may. -/
@[simp] def OwnerPc.begun : OwnerPc → Bool
  | .enter _ | .mutexInit | .condInit | .listInit => false
  | .lockDestroy i | .failed i => i.isSome
  | _ => true

/-- `destroy_workqueue` has cleared `alive`. -/
@[simp] def OwnerPc.closed : OwnerPc → Bool
  | .destroyUnlock | .drainList | .drainCount | .drainSignal | .warnIdle | .condDestroy
  | .mutexDestroy | .destroyed => true
  | .exitTest c | .exitSignal c | .exitLock c | .exitUnlock c => c.created.isNone
  | _ => false

section Local
variable {n : Nat} {ok : Bool} {σ σ' : Shared ω} {e : Effect}

/-- What no step of a worker or a call changes. -/
structure SameSetup (σ σ' : Shared ω) : Prop where
  alive : σ'.alive = σ.alive
  maxWorker : σ'.nrMaxWorker = σ.nrMaxWorker
  maxIdle : σ'.nrMaxIdleWorker = σ.nrMaxIdleWorker
  condDestroyed : σ'.condDestroyed = σ.condDestroyed

theorem WorkerAct.setup [DecidableEq ω] {pc pc' : WorkerPc ω} (h : WorkerAct ok σ pc σ' pc' e) :
    SameSetup σ σ' := by
  cases h
  all_goals exact ⟨rfl, rfl, rfl, rfl⟩

private theorem WorkerAct.counts [DecidableEq ω] {pc pc' : WorkerPc ω}
    (h : WorkerAct ok σ pc σ' pc' e) :
    σ'.nrIdleWorker = σ.nrIdleWorker + (pc'.idle.toInt - pc.idle.toInt) ∧
    σ'.nrWorker = σ.nrWorker + (pc'.started.toInt - pc.started.toInt) ∧
    σ'.refCount = σ.refCount + (pc'.refs - pc.refs) + if e = .spawn then 1 else 0 := by
  cases h
  all_goals refine ⟨?_, ?_, ?_⟩ <;> simp [Shared.unlock, Shared.useCond, Shared.warn] <;> omega

/-- The lock is taken and released by the threads that enter and leave critical sections. -/
private theorem WorkerAct.locked [DecidableEq ω] {pc pc' : WorkerPc ω}
    (h : WorkerAct ok σ pc σ' pc' e) (hc : pc.critical → σ.locked) :
    σ'.locked.toInt = σ.locked.toInt + (pc'.critical.toInt - pc.critical.toInt) := by
  cases h
  all_goals simp_all [Shared.unlock, Shared.useCond, Shared.warn]

theorem CallAct.setup [DecidableEq ω] {pc pc' : CallPc ω} (h : CallAct σ pc σ' pc' e) :
    SameSetup σ σ' ∧ σ'.nrIdleWorker = σ.nrIdleWorker ∧ σ'.nrWorker = σ.nrWorker ∧
    σ'.refCount = σ.refCount ∧ e ≠ .spawn := by
  cases h
  all_goals exact ⟨⟨rfl, rfl, rfl, rfl⟩, rfl, rfl, rfl, by decide⟩

private theorem CallAct.locked [DecidableEq ω] {pc pc' : CallPc ω} (h : CallAct σ pc σ' pc' e)
    (hc : pc.critical → σ.locked) :
    σ'.locked.toInt = σ.locked.toInt + (pc'.critical.toInt - pc.critical.toInt) := by
  cases h
  all_goals simp_all [Shared.unlock, Shared.useCond]

theorem OwnerAct.counts {pc pc' : OwnerPc} (h : OwnerAct n ok σ pc σ' pc' e)
    (hb : pc.begun) :
    pc'.begun ∧ σ'.nrMaxWorker = σ.nrMaxWorker ∧ σ'.nrMaxIdleWorker = σ.nrMaxIdleWorker ∧
    σ'.nrIdleWorker = σ.nrIdleWorker ∧ σ'.nrWorker = σ.nrWorker ∧
    σ'.refCount = σ.refCount + (pc'.creating.toInt - pc.creating.toInt) +
      if e = .spawn then 1 else 0 := by
  cases h
  all_goals simp_all [Shared.unlock, Shared.useCond, Shared.warn]
  all_goals omega

private theorem OwnerAct.locked {pc pc' : OwnerPc} (h : OwnerAct n ok σ pc σ' pc' e)
    (hb : pc.begun) (hc : pc.critical → σ.locked) :
    σ'.locked.toInt = σ.locked.toInt + (pc'.critical.toInt - pc.critical.toInt) := by
  cases h
  all_goals simp_all [Shared.unlock, Shared.useCond, Shared.warn]

end Local

/-- The lock has at most one holder, and each counter counts the workers it is meant to. -/
structure Accounted (n : Nat) (s : State ω) : Prop where
  begun : s.owner.begun
  lock : number WorkerPc.critical s.workers + number CallPc.critical s.calls +
    s.owner.critical.toInt = s.shared.locked.toInt
  idle : s.shared.nrIdleWorker = number WorkerPc.idle s.workers
  started : s.shared.nrWorker = number WorkerPc.started s.workers
  refs : s.shared.refCount = total WorkerPc.refs s.workers + s.owner.creating.toInt
  maxWorker : s.shared.nrMaxWorker = n * multipleCpus
  maxIdle : s.shared.nrMaxIdleWorker = n

section Global
variable {n : Nat} {s t : State ω}

/-- Whoever is in a critical section keeps the others out of theirs. -/
theorem Accounted.worker_holds (h : Accounted n s) {pc : WorkerPc ω} (hm : pc ∈ s.workers)
    (hc : pc.critical) : s.shared.locked ∧ number WorkerPc.critical s.workers = 1 ∧
      number CallPc.critical s.calls = 0 ∧ s.owner.critical = false := by
  have hw := number_pos.mpr ⟨pc, hm, hc⟩
  have hl := h.lock
  have hn := number_nonneg CallPc.critical s.calls
  have ho := toInt_nonneg s.owner.critical
  have h1 := toInt_le_one s.shared.locked
  exact ⟨toInt_pos.mp (by omega), by omega, by omega, toInt_eq_zero.mp (by omega)⟩

theorem Accounted.call_holds (h : Accounted n s) {pc : CallPc ω} (hm : pc ∈ s.calls)
    (hc : pc.critical) : s.shared.locked ∧ number WorkerPc.critical s.workers = 0 ∧
      number CallPc.critical s.calls = 1 ∧ s.owner.critical = false := by
  have hw := number_pos.mpr ⟨pc, hm, hc⟩
  have hl := h.lock
  have hn := number_nonneg WorkerPc.critical s.workers
  have ho := toInt_nonneg s.owner.critical
  have h1 := toInt_le_one s.shared.locked
  exact ⟨toInt_pos.mp (by omega), by omega, by omega, toInt_eq_zero.mp (by omega)⟩

theorem Accounted.owner_holds (h : Accounted n s) (hc : s.owner.critical) :
    s.shared.locked ∧ number WorkerPc.critical s.workers = 0 ∧
      number CallPc.critical s.calls = 0 := by
  have hl := h.lock
  have hn := number_nonneg WorkerPc.critical s.workers
  have hm := number_nonneg CallPc.critical s.calls
  have h1 := toInt_le_one s.shared.locked
  rw [hc, Bool.toInt_true] at hl
  exact ⟨toInt_pos.mp (by omega), by omega, by omega⟩

theorem Accounted.worker_outside (h : Accounted n s) (hl : s.shared.locked = false)
    {pc : WorkerPc ω} (hm : pc ∈ s.workers) : pc.critical = false := by
  by_contra hc
  have hlocked := (h.worker_holds hm (by simpa using hc)).1
  rw [hl] at hlocked
  cases hlocked

theorem Accounted.call_outside (h : Accounted n s) (hl : s.shared.locked = false)
    {pc : CallPc ω} (hm : pc ∈ s.calls) : pc.critical = false := by
  by_contra hc
  have hlocked := (h.call_holds hm (by simpa using hc)).1
  rw [hl] at hlocked
  cases hlocked

variable [DecidableEq ω]

theorem Accounted.move (h : Accounted n s) (hm : Move n s t) : Accounted n t := by
  have hl := h.lock
  have hidle := h.idle
  have hstarted := h.started
  have hrefs := h.refs
  cases hm with
  | worker hk hs hp =>
    obtain ⟨hi, hw, hr⟩ := hs.counts
    have hset := hs.setup
    have hl' := hs.locked fun hc => (h.worker_holds (List.mem_of_getElem? hk) hc).1
    refine ⟨h.begun, ?_, ?_, ?_, ?_, hset.maxWorker.trans h.maxWorker, hset.maxIdle.trans h.maxIdle⟩
    · have hn := set_perform_number (P := WorkerPc.critical) rfl rfl hk hp
      simp only
      omega
    · have hn := set_perform_number (P := WorkerPc.idle) rfl rfl hk hp
      simp only
      omega
    · have hn := set_perform_number (P := WorkerPc.started) rfl rfl hk hp
      simp only
      omega
    · have hn := perform_total (f := WorkerPc.refs) rfl hp
      rw [total_set _ _ hk] at hn
      have h1 : (WorkerPc.created : WorkerPc ω).refs = 1 := rfl
      rw [h1] at hn
      simp only
      omega
  | wake hw =>
    refine ⟨h.begun, ?_, ?_, ?_, ?_, h.maxWorker, h.maxIdle⟩
    · rwa [wakeWorker_number (P := WorkerPc.critical) rfl hw]
    · rwa [wakeWorker_number (P := WorkerPc.idle) rfl hw]
    · rwa [wakeWorker_number (P := WorkerPc.started) rfl hw]
    · rwa [wakeWorker_total (f := WorkerPc.refs) rfl hw]
  | submit ha =>
    refine ⟨h.begun, ?_, hidle, hstarted, hrefs, h.maxWorker, h.maxIdle⟩
    simpa using hl
  | @call _ _ _ pc' _ _ _ hk hs hp =>
    obtain ⟨hset, hi, hw, hr, he⟩ := hs.setup
    have hl' := hs.locked fun hc => (h.call_holds (List.mem_of_getElem? hk) hc).1
    refine ⟨h.begun, ?_, ?_, ?_, ?_, hset.maxWorker.trans h.maxWorker, hset.maxIdle.trans h.maxIdle⟩
    · have hn := perform_number (P := WorkerPc.critical) rfl rfl hp
      have hc := number_set CallPc.critical pc' hk
      simp only
      omega
    · rw [perform_number (P := WorkerPc.idle) rfl rfl hp, ← hidle, hi]
    · rw [perform_number (P := WorkerPc.started) rfl rfl hp, ← hstarted, hw]
    · rw [perform_total (f := WorkerPc.refs) rfl hp, if_neg he, add_zero, hr, hrefs]
  | owner hs hp =>
    obtain ⟨hb, hmw, hmi, hi, hw, hr⟩ := hs.counts h.begun
    have hl' := hs.locked h.begun fun hc => (h.owner_holds hc).1
    refine ⟨hb, ?_, ?_, ?_, ?_, hmw.trans h.maxWorker, hmi.trans h.maxIdle⟩
    · have hn := perform_number (P := WorkerPc.critical) rfl rfl hp
      simp only
      omega
    · rw [perform_number (P := WorkerPc.idle) rfl rfl hp, ← hidle, hi]
    · rw [perform_number (P := WorkerPc.started) rfl rfl hp, ← hstarted, hw]
    · have hn := perform_total (f := WorkerPc.refs) rfl hp
      have h1 : (WorkerPc.created : WorkerPc ω).refs = 1 := rfl
      rw [h1] at hn
      simp only
      omega

end Global
end CommonProject.Workqueue
